import Ebnf.Proofs.Lexeme.Neighbours
import Ebnf.Proofs.Text.Bytes
import Ebnf.Token.Basic

namespace Ebnf

open Lexeme

/-- What has a span of its own: a token without its trivia, or a piece of
trivia. -/
inductive Item
  | trivia (x : Trivia)
  | token (kind : Kind) (span : Span)
deriving DecidableEq, Repr

def Item.span : Item → Span
  | .trivia x => x.span
  | .token _ span => span

namespace Token

def items (t : Token) : List Item := t.trivia.map .trivia ++ [.token t.kind t.span]

def spans (t : Token) : List Span := t.trivia.map Trivia.span ++ [t.span]

theorem map_span_items (t : Token) : t.items.map Item.span = t.spans := by
  simp [items, spans, Item.span, Function.comp_def]

theorem map_span_flatMap_items (ts : List Token) : (ts.flatMap items).map Item.span = ts.flatMap spans := by
  rw [List.map_flatMap]
  exact congrArg (ts.flatMap ·) (funext map_span_items)

end Token

namespace Lexeme

def item (l : Lexeme) (span : Span) : Item :=
  l.role.elim (fun trivia => .trivia (trivia span)) fun kind => .token kind span

def items : Nat → List Lexeme → List Item
  | n, [] => [.token .eof ⟨n, n⟩]
  | n, l :: ls => l.item ⟨n, n + l.spelling.byteLength⟩ :: items (n + l.spelling.byteLength) ls

theorem span_item (l : Lexeme) (span : Span) : (l.item span).span = span := by
  cases l <;> rfl

theorem mem_items {n : Nat} {ls : List Lexeme} {x : Item} (h : x ∈ items n ls) :
    x = .token .eof ⟨n + (spell ls).byteLength, n + (spell ls).byteLength⟩ ∨
      ∃ as l bs, ls = as ++ l :: bs ∧ x = l.item ⟨n + (spell as).byteLength,
        n + (spell as).byteLength + l.spelling.byteLength⟩ := by
  induction ls generalizing n with
  | nil => exact .inl (List.mem_singleton.1 h)
  | cons l ls ih =>
      rcases List.mem_cons.1 h with rfl | h
      · exact .inr ⟨[], l, ls, rfl, rfl⟩
      · rcases ih h with rfl | ⟨as, l', bs, rfl, rfl⟩
        · left
          simp [Nat.add_assoc]
        · right
          exact ⟨l :: as, l', bs, rfl, by simp [Nat.add_assoc]⟩

end Lexeme

/-- Laying lexemes out loses none of them and adds the end alone. -/
theorem Token.flatMap_items_place (here : Location) (before : List Trivia) (ls : List Lexeme) :
    (Token.place here before ls).flatMap Token.items =
      before.map .trivia ++ Lexeme.items here.offset ls := by
  induction ls generalizing here before with
  | nil => simp [place, items, Lexeme.items]
  | cons l ls ih =>
      have hnext := Location.after_offset here l.spelling
      cases hr : l.role with
      | inl trivia => simp [place, hr, ih, Lexeme.items, Lexeme.item, hnext]
      | inr kind => simp [place, hr, ih, Lexeme.items, Lexeme.item, hnext, items]

theorem tokenize_eq_ok {source : Text} {ts : List Token} : tokenize source = .ok ts ↔
    ∃ ls, Chained ls [] ∧ spell ls = source ∧ Token.place .start [] ls = ts := by
  constructor
  · intro h
    cases hs : split source with
    | mk ls f =>
        cases f with
        | some f => simp [tokenize, hs] at h
        | none =>
            obtain ⟨hc, he⟩ := chained_of_split hs
            exact ⟨ls, hc, he, by simpa [tokenize, hs] using h⟩
  · rintro ⟨ls, hc, rfl, rfl⟩
    have hs : split (spell ls) = (ls, none) := by simpa [split] using split_spell hc
    simp [tokenize, hs]

end Ebnf
