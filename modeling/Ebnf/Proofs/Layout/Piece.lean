import Ebnf.Layout.Piece
import Ebnf.Proofs.Document.Passage
import Ebnf.Proofs.Grammar.Leaves
import Ebnf.Proofs.Layout.Comment

namespace Ebnf

open Lexeme

namespace Layout

/-- Pieces whose words spell these tokens. The flag tells that nothing or a
space stands in front; without it a first word must not lengthen the word in
front of it. -/
inductive Spells : Bool → List Piece → List Kind → Prop
  | nil (fresh) : Spells fresh [] []
  | space {fresh ps ks} (h : Spells true ps ks) : Spells fresh (.space :: ps) ks
  | word {fresh ps k ks} (l : Lexeme) (hp : l.Proper) (hk : l.kind? = some k)
      (ha : fresh = false → l.spelling.Apart) (h : Spells false ps ks) : Spells fresh (.word l.spelling :: ps) (k :: ks)

namespace Spells

variable {fresh : Bool} {ps qs : List Piece} {ks ls : List Kind}

theorem of_false (h : Spells false ps ks) : Spells fresh ps ks := by
  cases h with
  | nil => exact .nil fresh
  | space h => exact .space h
  | word l hp hk ha h => exact .word l hp hk (fun _ => ha rfl) h

theorem append (hp : Spells fresh ps ks) (hq : Spells false qs ls) : Spells fresh (ps ++ qs) (ks ++ ls) := by
  induction hp with
  | nil => exact hq.of_false
  | space _ ih => exact .space ih
  | word l hp hk ha _ ih => exact .word l hp hk ha ih

theorem mark {m : Mark} (ha : fresh = false → Text.Apart [m.char]) (h : Spells false ps ks) :
    Spells fresh (.word [m.char] :: ps) (.mark m :: ks) :=
  .word (.mark m) trivial rfl ha h

end Spells

theorem atomText_eq (style : QuoteStyle) (a : Atom) : atomText style a = (a.requote style).lexeme.spelling := by
  cases a <;> rfl

theorem spells_operator (c : Connective) {ps : List Piece} {ks : List Kind} (h : Spells false ps ks) :
    Spells false (gapBefore c ++ operator (.joining c) :: ps) (.mark (.operator (.joining c)) :: ks) := by
  by_cases hc : c = .concatenation
  · subst hc
    have ha : Text.Apart [','] := by
      rintro c ⟨⟩
      decide
    exact .mark (m := .operator (.joining .concatenation)) (fun _ => ha) h
  · rw [gapBefore, if_neg hc]
    exact .space (.mark (m := .operator (.joining c)) (by simp) h)

theorem spells_pieces {α : Type} (style : QuoteStyle) {e : Expr α} (h : ∀ k ∈ e.yield, k.Legal) :
    Spells true (pieces style e) (e.mapAtom (Atom.requote style)).yield := by
  induction e with
  | atom a p =>
      rw [pieces, atomText_eq]
      exact .word _ (a.proper_requote style (h _ (by simp [Expr.yield]))) (Atom.kind?_lexeme _) (by simp) (.nil _)
  | binary c l r p ihl ihr =>
      have hl := ihl fun k hk => h k (by simp [Expr.yield, hk])
      have hr := ihr fun k hk => h k (by simp [Expr.yield, hk])
      rw [pieces, List.append_assoc]
      exact hl.append (spells_operator c (.space hr))
  | without l p ih =>
      have hl := ih fun k hk => h k (by simp [Expr.yield, hk])
      exact hl.append (spells_operator .exception (.nil _))
  | counted n q e p ih =>
      have he := ih fun k hk => h k (by simp [Expr.yield, hk])
      have hn : (Kind.integer n).Legal := h _ (by simp [Expr.yield])
      exact .word (.integer (Decimal.digits n)) hn.proper_digits
        (congrArg (some ∘ Kind.integer) (Decimal.value_digits n)) (by simp)
        (.space (.mark (m := .operator .counting) (by simp) (.space he)))
  | group b e p ih =>
      have he := ih fun k hk => h k (by simp [Expr.yield, hk])
      have hb : Spells false [.space, .word [b.closer]] [.mark (.closing b)] :=
        .space (.mark (m := .closing b) (by simp) (.nil _))
      exact .mark (m := .opening b) (by simp) (.space (he.append hb))
  | empty b p =>
      exact .mark (m := .opening b) (by simp) (.mark (m := .closing b) (fun _ => Text.apart_closer b []) (.nil _))

def attach (notes : Nat → List Text) : Nat → List Kind → List (List Text × Kind)
  | _, [] => []
  | i, k :: ks => (notes i, k) :: attach notes (i + 1) ks

theorem attach_append (notes : Nat → List Text) (i : Nat) (ks ls : List Kind) :
    attach notes i (ks ++ ls) = attach notes i ks ++ attach notes (i + ks.length) ls := by
  induction ks generalizing i with
  | nil => rfl
  | cons k ks ih => simp [attach, ih, Nat.add_comm, Nat.add_left_comm]

theorem map_snd_attach (notes : Nat → List Text) (i : Nat) (ks : List Kind) :
    (attach notes i ks).map Prod.snd = ks := by
  induction ks generalizing i with
  | nil => rfl
  | cons k ks ih => simp [attach, ih]

theorem map_fst_attach (notes : Nat → List Text) (i : Nat) (ks : List Kind) :
    (attach notes i ks).map Prod.fst = (List.range' i ks.length).map notes := by
  induction ks generalizing i with
  | nil => rfl
  | cons k ks ih => simp [attach, ih, List.range'_succ]

variable {nl : Newline} {run : Text}

/-- What the layout writes between two lexemes: spaces, or a break and the
spaces behind it. -/
def Padding (nl : Newline) (run : Text) : Prop := ∃ n, run = Text.spaces (n + 1) ∨ run = nl.text ++ Text.spaces n

namespace Padding

theorem space (nl : Newline) : Padding nl [' '] := ⟨0, .inl rfl⟩

theorem newline (nl : Newline) : Padding nl nl.text := ⟨0, .inr (List.append_nil _).symm⟩

theorem proper (h : Padding nl run) : (Lexeme.gap run).Proper := by
  have hspaces (n : Nat) : ∀ c ∈ Text.spaces n, isGap c = true := by
    intro c hc
    rw [List.eq_of_mem_replicate hc]
    rfl
  obtain ⟨n, rfl | rfl⟩ := h
  · exact ⟨List.cons_ne_nil _ _, hspaces (n + 1)⟩
  · have hbreak : nl.text ≠ [] ∧ ∀ c ∈ nl.text, isGap c = true := by
      cases nl with
      | unix => exact ⟨List.cons_ne_nil _ _, List.forall_mem_singleton.2 rfl⟩
      | windows => exact ⟨List.cons_ne_nil _ _, List.forall_mem_cons.2 ⟨rfl, List.forall_mem_singleton.2 rfl⟩⟩
    refine ⟨List.append_ne_nil_of_left_ne_nil hbreak.1 _, fun c hc => ?_⟩
    exact (List.mem_append.1 hc).elim (hbreak.2 c) (hspaces n c)

end Padding

def Padded (nl : Newline) : Lexeme → Prop
  | .gap run => Padding nl run
  | _ => True

theorem padded_of_kind? {l : Lexeme} {k : Kind} (h : l.kind? = some k) : Padded nl l := by
  cases l with
  | gap => cases h
  | _ => trivial

def Fills (nl : Newline) (l : Lexeme) : Prop := l.IsTrivia ∧ Padded nl l

theorem Padding.fills (h : Padding nl run) : Fills nl (.gap run) := ⟨⟨h.proper, rfl⟩, h⟩

theorem fills_comment {c : Text} (h : (Lexeme.comment c).Proper) : Fills nl (.comment (normalText nl c)) :=
  ⟨⟨proper_normalText h, rfl⟩, trivial⟩

/-- The text has these tokens, with these comments in front of them, wherever
it stands in front of a text that keeps apart. -/
def Carries (nl : Newline) (t : Text) (ts : List (List Text × Kind)) : Prop :=
  ∃ ls, spell ls = t ∧ tokens [] ls = ts ∧ waiting [] ls = [] ∧ (∀ l ∈ ls, Padded nl l) ∧
    ∀ u : Text, u.Apart → Legible ls u

namespace Carries

variable {t u : Text} {ts us : List (List Text × Kind)}

theorem nil : Carries nl [] [] := ⟨[], rfl, rfl, rfl, by simp, fun _ _ => trivial⟩

theorem append (ht : Carries nl t ts) (hu : Carries nl u us) (ha : ∀ v : Text, v.Apart → Text.Apart (u ++ v)) :
    Carries nl (t ++ u) (ts ++ us) := by
  obtain ⟨ls, rfl, rfl, hw, hp, hl⟩ := ht
  obtain ⟨ms, rfl, rfl, hw', hp', hm⟩ := hu
  refine ⟨ls ++ ms, spell_append ls ms, ?_, ?_, List.forall_mem_append.2 ⟨hp, hp'⟩,
    fun v hv => legible_append.2 ⟨hl _ (ha v hv), hm v hv⟩⟩
  · rw [tokens_append, hw]
  · rw [waiting_append, hw, hw']

theorem gap (hr : Padding nl run) (ht : Carries nl t ts) : Carries nl (run ++ t) ts := by
  obtain ⟨ls, rfl, rfl, hw, hp, hl⟩ := ht
  exact ⟨.gap run :: ls, rfl, rfl, hw, List.forall_mem_cons.2 ⟨hr, hp⟩,
    fun u hu => ⟨hr.proper, .inl rfl, hl u hu⟩⟩

end Carries

variable {notes : Nat → List Text}

theorem exists_commentsText (nl : Newline) {cs : List Text} (h : ∀ c ∈ cs, (Lexeme.comment c).Proper)
    (fresh : Bool) : ∃ ls, spell ls = commentsText nl.text fresh cs ∧ (∀ l ∈ ls, Fills nl l) ∧
      ls.flatMap Lexeme.notes = cs.map (normalText nl) := by
  have hgap : Fills nl (.gap [' ']) := (Padding.space nl).fills
  induction cs generalizing fresh with
  | nil => exact ⟨[], rfl, by simp, rfl⟩
  | cons c cs ih =>
      obtain ⟨hc, hcs⟩ := List.forall_mem_cons.1 h
      obtain ⟨ls, hs, ht, hn⟩ := ih hcs true
      have hrest : ∀ l ∈ .comment (normalText nl c) :: .gap [' '] :: ls, Fills nl l :=
        List.forall_mem_cons.2 ⟨fills_comment hc, List.forall_mem_cons.2 ⟨hgap, ht⟩⟩
      have hnotes : (Lexeme.comment (normalText nl c) :: .gap [' '] :: ls).flatMap Lexeme.notes =
          (c :: cs).map (normalText nl) := congrArg (normalText nl c :: ·) hn
      have hspell : spell (.comment (normalText nl c) :: .gap [' '] :: ls) = commentsText nl.text true (c :: cs) := by
        rw [spell_cons, ← commentText_eq, spell_cons, hs]
        rfl
      cases fresh with
      | true => exact ⟨_, hspell, hrest, hnotes⟩
      | false =>
          exact ⟨.gap [' '] :: .comment (normalText nl c) :: .gap [' '] :: ls, congrArg (' ' :: ·) hspell,
            List.forall_mem_cons.2 ⟨hgap, hrest⟩, hnotes⟩

theorem apart_write {ps : List Piece} {ks : List Kind} (h : Spells false ps ks) (i : Nat) {u : Text}
    (hu : u.Apart) : Text.Apart (write nl.text notes false i ps ++ u) := by
  cases h with
  | nil => exact hu
  | space h => exact Text.apart_space _
  | word l hp hk ha h =>
      rw [write]
      cases notes i with
      | nil =>
          obtain ⟨c, s, hs⟩ := List.exists_cons_of_ne_nil hp.spelling_ne_nil
          have hl := ha rfl
          rw [hs] at hl ⊢
          exact hl
      | cons c cs => exact Text.apart_space _

theorem carries_write (nl : Newline) (hn : ∀ i, ∀ c ∈ notes i, (Lexeme.comment c).Proper) {fresh : Bool}
    {ps : List Piece} {ks : List Kind} (h : Spells fresh ps ks) (i : Nat) :
    Carries nl (write nl.text notes fresh i ps) (attach (fun j => (notes j).map (normalText nl)) i ks) := by
  induction h generalizing i with
  | nil => exact .nil
  | space _ ih => exact (ih i).gap (.space nl)
  | @word fresh ps k ks l hp hk _ h ih =>
      obtain ⟨cl, hcs, hct, hcn⟩ := exists_commentsText nl (hn i) fresh
      obtain ⟨ls, hs, ht, hw, hpad, hl⟩ := ih (i + 1)
      have hwait : waiting [] cl = (notes i).map (normalText nl) := by
        rw [waiting_of_trivia fun m hm => (hct m hm).1.2, hcn, List.nil_append]
      have hall : ∀ m ∈ cl ++ l :: ls, Padded nl m := List.forall_mem_append.2
        ⟨fun m hm => (hct m hm).2, List.forall_mem_cons.2 ⟨padded_of_kind? hk, hpad⟩⟩
      refine ⟨cl ++ l :: ls, ?_, ?_, ?_, hall,
        fun u hu => legible_append.2 ⟨legible_of_trivia (fun m hm => (hct m hm).1) _, hp, .inr ?_, hl u hu⟩⟩
      · rw [spell_append, spell_cons, hcs, hs, write, List.append_assoc]
      · rw [tokens_append, tokens_of_trivia fun m hm => (hct m hm).1.2, tokens_token hk, ht, hwait]
        rfl
      · rw [waiting_append, waiting_token hk, hw]
      · -- the next word keeps apart, or a space or a comment stands in front of it
        rw [hs]
        exact stops_of_apart hk (apart_write h (i + 1) hu)

end Layout

end Ebnf
