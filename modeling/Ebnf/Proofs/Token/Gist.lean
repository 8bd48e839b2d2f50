import Ebnf.Token.Basic
import Ebnf.Proofs.Lexeme.Split
import Ebnf.Proofs.Text.Bytes

namespace Ebnf

/-- A token with the texts of the comments in front of it. Gaps and lines are
left out. -/
structure Gist where
  comments : List Text
  kind : Kind
  span : Span
deriving DecidableEq, Repr

def Token.gist (t : Token) : Gist := ⟨t.comments.map (·.text), t.kind, t.span⟩

namespace Lexeme

def kind? (l : Lexeme) : Option Kind := l.role.elim (fun _ => none) some

def notes : Lexeme → List Text
  | .comment body => [body]
  | _ => []

def tokens : List Text → List Lexeme → List (List Text × Kind)
  | _, [] => []
  | before, l :: ls => match l.kind? with
      | none => tokens (before ++ l.notes) ls
      | some k => (before, k) :: tokens [] ls

def waiting : List Text → List Lexeme → List Text
  | before, [] => before
  | before, l :: ls => match l.kind? with
      | none => waiting (before ++ l.notes) ls
      | some _ => waiting [] ls

def gists : Nat → List Text → List Lexeme → List Gist
  | _, _, [] => []
  | n, before, l :: ls =>
      let next := n + l.spelling.byteLength
      match l.kind? with
      | none => gists next (before ++ l.notes) ls
      | some k => ⟨before, k, ⟨n, next⟩⟩ :: gists next [] ls

variable {l : Lexeme} {ls ms : List Lexeme} {k : Kind} {before : List Text} {n : Nat}

theorem tokens_trivia (h : l.kind? = none) : tokens before (l :: ls) = tokens (before ++ l.notes) ls := by
  simp [tokens, h]

theorem tokens_token (h : l.kind? = some k) : tokens before (l :: ls) = (before, k) :: tokens [] ls := by
  simp [tokens, h]

theorem waiting_trivia (h : l.kind? = none) : waiting before (l :: ls) = waiting (before ++ l.notes) ls := by
  simp [waiting, h]

theorem waiting_token (h : l.kind? = some k) : waiting before (l :: ls) = waiting [] ls := by
  simp [waiting, h]

theorem gists_trivia (h : l.kind? = none) :
    gists n before (l :: ls) = gists (n + l.spelling.byteLength) (before ++ l.notes) ls := by
  simp [gists, h]

theorem gists_token (h : l.kind? = some k) : gists n before (l :: ls) =
    ⟨before, k, ⟨n, n + l.spelling.byteLength⟩⟩ :: gists (n + l.spelling.byteLength) [] ls := by
  simp [gists, h]

theorem tokens_append : tokens before (ls ++ ms) = tokens before ls ++ tokens (waiting before ls) ms := by
  induction ls generalizing before with
  | nil => rfl
  | cons l ls ih =>
      cases h : l.kind? with
      | none => rw [List.cons_append, tokens_trivia h, tokens_trivia h, waiting_trivia h, ih]
      | some k => rw [List.cons_append, tokens_token h, tokens_token h, waiting_token h, ih, List.cons_append]

theorem waiting_append : waiting before (ls ++ ms) = waiting (waiting before ls) ms := by
  induction ls generalizing before with
  | nil => rfl
  | cons l ls ih =>
      cases h : l.kind? with
      | none => rw [List.cons_append, waiting_trivia h, waiting_trivia h, ih]
      | some k => rw [List.cons_append, waiting_token h, waiting_token h, ih]

theorem gists_append : gists n before (ls ++ ms) =
    gists n before ls ++ gists (n + (spell ls).byteLength) (waiting before ls) ms := by
  induction ls generalizing n before with
  | nil => rfl
  | cons l ls ih =>
      rw [spell_cons, Text.byteLength_append, ← Nat.add_assoc]
      cases h : l.kind? with
      | none => rw [List.cons_append, gists_trivia h, gists_trivia h, waiting_trivia h, ih]
      | some k => rw [List.cons_append, gists_token h, gists_token h, waiting_token h, ih, List.cons_append]

theorem map_gists : (gists n before ls).map (fun g => (g.comments, g.kind)) = tokens before ls := by
  induction ls generalizing n before with
  | nil => rfl
  | cons l ls ih =>
      cases h : l.kind? with
      | none => rw [gists_trivia h, tokens_trivia h, ih]
      | some k => rw [gists_token h, tokens_token h, List.map_cons, ih]

theorem map_kind_gists : (gists n before ls).map (·.kind) = ls.filterMap kind? := by
  induction ls generalizing n before with
  | nil => rfl
  | cons l ls ih =>
      cases h : l.kind? with
      | none => rw [gists_trivia h, List.filterMap_cons_none h, ih]
      | some k => rw [gists_token h, List.filterMap_cons_some h, List.map_cons, ih]

theorem gists_of_trivia (h : ∀ l ∈ ls, l.kind? = none) : gists n before ls = [] := by
  induction ls generalizing n before with
  | nil => rfl
  | cons l ls ih =>
      obtain ⟨hl, hls⟩ := List.forall_mem_cons.1 h
      rw [gists_trivia hl, ih hls]

theorem tokens_of_trivia (h : ∀ l ∈ ls, l.kind? = none) : tokens before ls = [] := by
  rw [← map_gists (n := 0), gists_of_trivia h]
  rfl

theorem waiting_of_trivia (h : ∀ l ∈ ls, l.kind? = none) : waiting before ls = before ++ ls.flatMap notes := by
  induction ls generalizing before with
  | nil => simp [waiting]
  | cons l ls ih =>
      obtain ⟨hl, hls⟩ := List.forall_mem_cons.1 h
      rw [waiting_trivia hl, ih hls, List.flatMap_cons, List.append_assoc]

end Lexeme

def Gist.stop (n : Nat) (before : List Text) : Gist := ⟨before, .eof, ⟨n, n⟩⟩

open Lexeme

theorem Token.map_gist_place (here : Location) (before : List Trivia) (ls : List Lexeme) :
    (Token.place here before ls).map Token.gist =
      gists here.offset ((before.filterMap Trivia.comment?).map (·.text)) ls ++
        [.stop (here.offset + (spell ls).byteLength)
          (waiting ((before.filterMap Trivia.comment?).map (·.text)) ls)] := by
  induction ls generalizing here before with
  | nil => rfl
  | cons l ls ih =>
      rw [spell_cons, Text.byteLength_append, ← Nat.add_assoc, ← Location.after_offset]
      cases l with
      | gap | comment =>
          rw [gists_trivia rfl, waiting_trivia rfl, place, ← Location.after_offset]
          simp [role, ih, List.filterMap_cons, Trivia.comment?, notes]
      | _ =>
          rw [gists_token rfl, waiting_token rfl, place, ← Location.after_offset]
          simp [role, ih, gist, comments]

def Text.gists? (n : Nat) (before : List Text) (t : Text) : Option (List Gist) :=
  match split t with
  | (ls, none) => some (gists n before ls ++ [.stop (n + t.byteLength) (waiting before ls)])
  | (_, some _) => none

theorem map_gist_tokenize (source : Text) :
    (tokenize source).toOption.map (List.map Token.gist) = source.gists? 0 [] := by
  cases h : split source with
  | mk ls f =>
      cases f with
      | none =>
          have ht := Token.map_gist_place .start [] ls
          rw [(chained_of_split h).2] at ht
          simpa [tokenize, h, Text.gists?, Except.toOption, Location.start] using ht
      | some f => simp [tokenize, h, Text.gists?, Except.toOption]

/-- A token that stands in front of such a text ends there. -/
def Text.Apart (u : Text) : Prop := ∀ c ∈ u.head?, isNamePart c = false ∧ c ≠ '*'

theorem Text.apart_space (u : Text) : Apart (' ' :: u) := by
  rintro c ⟨⟩
  decide

theorem Text.apart_closer (b : Bracket) (u : Text) : Apart (b.closer :: u) := by
  rintro c ⟨⟩
  cases b <;> decide

theorem Lexeme.stops_of_apart {l : Lexeme} {k : Kind} {u : Text} (hk : l.kind? = some k)
    (hu : u.Apart) : l.Stops u := by
  cases l with
  | gap | comment => cases hk
  | identifier name => exact fun c hc => (hu c hc).1
  | integer ds =>
      intro c hc
      have hn := (hu c hc).1
      simp only [isNamePart, Char.isAlphanum, Bool.or_eq_false_iff] at hn
      exact hn.1.2
  | mark m =>
      cases m with
      | opening b => cases b with
          | grouped => exact fun h => (hu _ h).2 rfl
          | _ => trivial
      | _ => trivial
  | _ => trivial

namespace Lexeme

/-- Lexemes that are read back in front of `u`, except that gaps may stand side
by side. -/
def Legible : List Lexeme → Text → Prop
  | [], _ => True
  | l :: ls, u => l.Proper ∧ (l.kind? = none ∨ l.Stops (spell ls ++ u)) ∧ Legible ls u

theorem legible_append {ls ms : List Lexeme} {u : Text} :
    Legible (ls ++ ms) u ↔ Legible ls (spell ms ++ u) ∧ Legible ms u := by
  induction ls with
  | nil => simp [Legible]
  | cons l ls ih => simp [Legible, ih, and_assoc]

theorem Chained.legible {ls : List Lexeme} {u : Text} (h : Chained ls u) : Legible ls u := by
  induction ls with
  | nil => trivial
  | cons l ls ih => exact ⟨h.1, .inr h.2.1, ih h.2.2⟩

/-- Only the last lexeme touches the text behind, so another text may stand
there if no token becomes longer in front of it. -/
theorem Chained.legible_of_apart {ls : List Lexeme} {u v : Text} (h : Chained ls u) (hv : v.Apart) :
    Legible ls v := by
  induction ls with
  | nil => trivial
  | cons l ls ih =>
      obtain ⟨hp, hs, ht⟩ := h
      refine ⟨hp, ?_, ih ht⟩
      cases ls with
      | nil =>
          cases hk : l.kind? with
          | none => exact .inl rfl
          | some k => exact .inr (stops_of_apart hk hv)
      | cons l' ls =>
          obtain ⟨c, s, hc⟩ := List.exists_cons_of_ne_nil ht.1.spelling_ne_nil
          exact .inr (hs.congr (by simp [hc]))

end Lexeme

namespace Text

section

variable {c : Char} {t : Text} {l : Lexeme} {rest : Text} {k : Kind}

theorem byteLength_of_scan (h : scan c t = .ok (l, rest)) :
    byteLength (c :: t) = l.spelling.byteLength + rest.byteLength := by
  rw [← (scan_eq_ok.1 h).2.2, byteLength_append]

theorem gists?_trivia (h : scan c t = .ok (l, rest)) (hk : l.kind? = none) (n : Nat) (before : List Text) :
    gists? n before (c :: t) = gists? (n + l.spelling.byteLength) (before ++ l.notes) rest := by
  rw [gists?, gists?, split_cons_ok h, byteLength_of_scan h, Nat.add_assoc]
  obtain ⟨ls, f⟩ := split rest
  cases f with
  | none => simp only [Lexeme.gists_trivia hk, waiting_trivia hk]
  | some f => rfl

theorem gists?_token (h : scan c t = .ok (l, rest)) (hk : l.kind? = some k) (n : Nat) (before : List Text) :
    gists? n before (c :: t) = (gists? (n + l.spelling.byteLength) [] rest).map
      (⟨before, k, ⟨n, n + l.spelling.byteLength⟩⟩ :: ·) := by
  rw [gists?, gists?, split_cons_ok h, byteLength_of_scan h, Nat.add_assoc]
  obtain ⟨ls, f⟩ := split rest
  cases f with
  | none => simp only [Lexeme.gists_token hk, waiting_token hk, Option.map_some, List.cons_append]
  | some f => rfl

end

theorem gists?_gap {c : Char} (hc : isGap c = true) (n : Nat) (before : List Text) (u : Text) :
    gists? n before (c :: u) = gists? (n + c.utf8Size) before u := by
  rw [gists?_trivia (scan_gap hc) rfl]
  cases u with
  | nil => simp [spelling, notes]
  | cons d u =>
      by_cases hd : isGap d = true
      · rw [gists?_trivia (scan_gap hd) rfl]
        simp [spelling, notes, hd, Nat.add_assoc]
      · simp [spelling, notes, hd]

theorem gists?_run {run : Text} (h : ∀ c ∈ run, isGap c = true) (n : Nat) (before : List Text) (u : Text) :
    gists? n before (run ++ u) = gists? (n + run.byteLength) before u := by
  induction run generalizing n with
  | nil => rfl
  | cons c run ih =>
      obtain ⟨hc, hr⟩ := List.forall_mem_cons.1 h
      rw [List.cons_append, gists?_gap hc, ih hr, byteLength_cons, Nat.add_assoc]

theorem gists?_spell {ls : List Lexeme} {u : Text} (h : Legible ls u) (n : Nat) (before : List Text) :
    gists? n before (spell ls ++ u) =
      (gists? (n + (spell ls).byteLength) (waiting before ls) u).map (Lexeme.gists n before ls ++ ·) := by
  induction ls generalizing n before with
  | nil => simp [Lexeme.gists, waiting]
  | cons l ls ih =>
      obtain ⟨hp, hs, hl⟩ := h
      obtain ⟨c, s, he⟩ := List.exists_cons_of_ne_nil hp.spelling_ne_nil
      have hscan (hst : l.Stops (spell ls ++ u)) : scan c (s ++ (spell ls ++ u)) = .ok (l, spell ls ++ u) :=
        scan_of_spelling hp hst (by rw [he, List.cons_append])
      have hcons : spell (l :: ls) ++ u = c :: (s ++ (spell ls ++ u)) := by simp [he]
      rw [spell_cons, byteLength_append, ← Nat.add_assoc]
      cases hk : l.kind? with
      | none =>
          rw [Lexeme.gists_trivia hk, waiting_trivia hk, ← ih hl]
          -- a gap in front of a gap is not scanned on its own, so it is passed character by character
          cases l with
          | gap run => simp [spelling, notes, gists?_run hp.2]
          | comment body =>
              rw [← spell_cons, hcons, gists?_trivia (hscan trivial) hk]
          | _ => cases hk
      | some k =>
          rw [Lexeme.gists_token hk, waiting_token hk, ← spell_cons, hcons,
            gists?_token (hscan (hs.resolve_left (by simp [hk]))) hk, ih hl]
          simp [Function.comp_def]

end Text

theorem exists_tokenize_spell {ls : List Lexeme} (h : Legible ls []) :
    ∃ ts, tokenize (spell ls) = .ok ts ∧
      ts.map Token.gist = gists 0 [] ls ++ [.stop (spell ls).byteLength (waiting [] ls)] := by
  have hg := Text.gists?_spell h 0 []
  have hnil (n : Nat) (before : List Text) : Text.gists? n before [] = some [.stop n before] := by
    simp [Text.gists?, split, gists, waiting]
  rw [List.append_nil, hnil, ← map_gist_tokenize] at hg
  cases ht : tokenize (spell ls) with
  | error e => simp [ht, Except.toOption] at hg
  | ok ts => exact ⟨ts, rfl, by simpa [ht, Except.toOption] using hg⟩

end Ebnf
