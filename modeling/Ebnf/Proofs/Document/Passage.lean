import Ebnf.Document
import Ebnf.Proofs.Grammar.Leaves
import Ebnf.Proofs.Parser.Language

namespace Ebnf

open Lexeme

namespace Lexeme

theorem kind?_ne_eof {l : Lexeme} {k : Kind} (h : l.kind? = some k) : k ≠ .eof := by
  cases l <;> cases h <;> simp

theorem eq_mark_of_kind? {l : Lexeme} {m : Mark} (h : l.kind? = some (.mark m)) : l = .mark m := by
  cases l <;> cases h
  rfl

theorem eq_identifier_of_kind? {l : Lexeme} {name : Text} (h : l.kind? = some (.identifier name)) :
    l = .identifier name := by
  cases l <;> cases h
  rfl

variable {n : Nat} {before : List Text} {ls : List Lexeme}

theorem kind_ne_eof_of_mem_gists {g : Gist} (h : g ∈ gists n before ls) : g.kind ≠ .eof := by
  induction ls generalizing n before with
  | nil => cases h
  | cons l ls ih =>
      cases hk : l.kind? with
      | none =>
          rw [gists_trivia hk] at h
          exact ih h
      | some k =>
          rw [gists_token hk] at h
          rcases List.mem_cons.1 h with rfl | h
          · exact kind?_ne_eof hk
          · exact ih h

def IsTrivia (l : Lexeme) : Prop := l.Proper ∧ l.kind? = none

theorem legible_of_trivia (h : ∀ l ∈ ls, l.IsTrivia) (u : Text) : Legible ls u := by
  induction ls with
  | nil => trivial
  | cons l ls ih =>
      obtain ⟨hl, hls⟩ := List.forall_mem_cons.1 h
      exact ⟨hl.1, .inl hl.2, ih hls⟩

theorem trivia_of_gists_eq_nil (h : gists n before ls = []) : ∀ l ∈ ls, l.kind? = none := by
  induction ls generalizing n before with
  | nil => simp
  | cons l ls ih =>
      cases hk : l.kind? with
      | none =>
          rw [gists_trivia hk] at h
          exact List.forall_mem_cons.2 ⟨hk, ih h⟩
      | some k =>
          rw [gists_token hk] at h
          cases h

theorem exists_lexeme {gs hs : List Gist} {g : Gist} (h : gists n before ls = gs ++ g :: hs) :
    ∃ l₁ l l₂, ls = l₁ ++ l :: l₂ ∧ gists n before l₁ = gs ∧ l.kind? = some g.kind ∧
      gists (n + (spell l₁).byteLength + l.spelling.byteLength) [] l₂ = hs := by
  induction ls generalizing n before gs with
  | nil => simp [gists] at h
  | cons l ls ih =>
      cases hk : l.kind? with
      | none =>
          rw [gists_trivia hk] at h
          obtain ⟨l₁, m, l₂, rfl, hg, hm, ht⟩ := ih h
          refine ⟨l :: l₁, m, l₂, rfl, by rw [gists_trivia hk, hg], hm, ?_⟩
          rwa [spell_cons, Text.byteLength_append, ← Nat.add_assoc]
      | some k =>
          rw [gists_token hk] at h
          cases gs with
          | nil =>
              obtain ⟨rfl, rfl⟩ := List.cons.inj h
              exact ⟨[], l, ls, rfl, rfl, hk, rfl⟩
          | cons g' gs =>
              rw [List.cons_append] at h
              obtain ⟨rfl, h'⟩ := List.cons.inj h
              obtain ⟨l₁, m, l₂, rfl, hg, hm, ht⟩ := ih h'
              refine ⟨l :: l₁, m, l₂, rfl, by rw [gists_token hk, hg], hm, ?_⟩
              rwa [spell_cons, Text.byteLength_append, ← Nat.add_assoc]

theorem Legible.proper {u : Text} (h : Legible ls u) : ∀ l ∈ ls, l.Proper := by
  induction ls with
  | nil => simp
  | cons l ls ih => exact List.forall_mem_cons.2 ⟨h.1, ih h.2.2⟩

theorem legal_of_mem_tokens (hl : ∀ l ∈ ls, l.Proper) {x : List Text × Kind}
    (hx : x ∈ tokens before ls) : x.2.Legal := by
  induction ls generalizing before with
  | nil => cases hx
  | cons l ls ih =>
      obtain ⟨hp, hls⟩ := List.forall_mem_cons.1 hl
      cases hk : l.kind? with
      | none =>
          rw [tokens_trivia hk] at hx
          exact ih hls hx
      | some k =>
          rw [tokens_token hk] at hx
          rcases List.mem_cons.1 hx with rfl | hx
          · exact ⟨l, hp, hk⟩
          · exact ih hls hx

end Lexeme

def Gist.extent (gs : List Gist) : Span :=
  match gs.head?, gs.getLast? with
  | some a, some b => a.span.hull b.span
  | _, _ => default

theorem Gist.extent_cons_append (a b : Gist) (gs : List Gist) :
    extent (a :: (gs ++ [b])) = a.span.hull b.span := by
  simp [extent, List.getLast?_cons]

theorem Token.extent_eq (ts : List Token) : Token.extent ts = Gist.extent (ts.map Token.gist) := by
  simp only [extent, Gist.extent, List.head?_map, List.getLast?_map]
  cases ts.head? <;> cases ts.getLast? <;> rfl

/-- A rule in its text: the trivia in front of it, and everything from its name
to its semicolon. The body is read in the same way wherever it stands. -/
structure Passage where
  lead : List Lexeme
  body : List Lexeme
  lead_trivia : ∀ l ∈ lead, l.IsTrivia
  body_legible : ∀ u, Legible body u
  body_form : ∃ name ls, body = .identifier name :: (ls ++ [.mark .semicolon])

namespace Passage

def lexemes (p : Passage) : List Lexeme := p.lead ++ p.body

def size (p : Passage) : Nat := (spell p.lexemes).byteLength

def place (p : Passage) (n : Nat) : Span := ⟨n + (spell p.lead).byteLength, n + p.size⟩

def notes (p : Passage) : List Text := p.lead.flatMap Lexeme.notes

def kinds (p : Passage) : List Kind := (tokens [] p.body).map (·.2)

def gists (p : Passage) (n : Nat) : List Gist :=
  Lexeme.gists (n + (spell p.lead).byteLength) p.notes p.body

inductive Laid : Nat → List (Rule Span) → List Passage → Prop
  | nil (n) : Laid n [] []
  | cons {n r rs} {p : Passage} {ps} (hk : p.kinds = r.yield) (hp : r.place = p.place n)
      (h : Laid (n + p.size) rs ps) : Laid n (r :: rs) (p :: ps)

section

variable (p : Passage)

theorem size_eq : p.size = (spell p.lead).byteLength + (spell p.body).byteLength := by
  simp [size, lexemes]

theorem waiting_lead : waiting [] p.lead = p.notes := by
  rw [waiting_of_trivia fun l hl => (p.lead_trivia l hl).2]
  rfl

theorem waiting_body (before : List Text) : waiting before p.body = [] := by
  obtain ⟨name, ls, h⟩ := p.body_form
  rw [h, waiting_token rfl, waiting_append]
  rfl

theorem legible (u : Text) : Legible p.lexemes u :=
  legible_append.2 ⟨legible_of_trivia p.lead_trivia _, p.body_legible u⟩

theorem gists_lexemes (n : Nat) : Lexeme.gists n [] p.lexemes = p.gists n := by
  rw [lexemes, gists_append, gists_of_trivia fun l hl => (p.lead_trivia l hl).2, waiting_lead]
  rfl

theorem waiting_lexemes : waiting [] p.lexemes = [] := by
  rw [lexemes, waiting_append, waiting_body]

theorem exists_tokens :
    ∃ k ts, tokens [] p.body = ([], k) :: ts ∧ ∀ before, tokens before p.body = (before, k) :: ts := by
  obtain ⟨name, ls, h⟩ := p.body_form
  exact ⟨.identifier name, tokens [] (ls ++ [.mark .semicolon]), by rw [h]; rfl, fun before => by rw [h]; rfl⟩

theorem map_kind_gists (n : Nat) : (p.gists n).map (·.kind) = p.kinds := by
  obtain ⟨k, ts, h₀, h⟩ := p.exists_tokens
  have hm : ((p.gists n).map fun g => (g.comments, g.kind)).map Prod.snd =
      (tokens p.notes p.body).map Prod.snd := congrArg (List.map Prod.snd) map_gists
  rw [List.map_map, h] at hm
  rw [kinds, h₀]
  exact hm

theorem legal : ∀ k ∈ p.kinds, k.Legal := by
  intro k hk
  obtain ⟨x, hx, rfl⟩ := List.mem_map.1 hk
  exact legal_of_mem_tokens (p.body_legible []).proper hx

theorem extent_gists (n : Nat) : Gist.extent (p.gists n) = p.place n := by
  obtain ⟨name, ls, h⟩ := p.body_form
  have hs (m : Nat) (before : List Text) :
      Lexeme.gists m before [.mark .semicolon] = [⟨before, .mark .semicolon, ⟨m, m + 1⟩⟩] := rfl
  rw [gists, place, size_eq, h, gists_token rfl, gists_append, hs, Gist.extent_cons_append, Span.hull]
  have hm : (Lexeme.mark .semicolon).spelling.byteLength = 1 := rfl
  simp only [spell_cons, spell_append, spell_nil, Text.byteLength_append, Text.byteLength_nil, hm]
  congr 1
  · exact Nat.min_eq_left (by omega)
  · rw [Nat.max_eq_right (by omega)]
    omega

end

def gistsFrom : Nat → List Passage → List (List Gist)
  | _, [] => []
  | n, p :: ps => p.gists n :: gistsFrom (n + p.size) ps

def allLexemes (ps : List Passage) (trail : List Lexeme) : List Lexeme := ps.flatMap lexemes ++ trail

theorem allLexemes_cons (p : Passage) (ps : List Passage) (trail : List Lexeme) :
    allLexemes (p :: ps) trail = p.lexemes ++ allLexemes ps trail := by
  simp [allLexemes]

theorem Laid.kinds {n : Nat} {rs : List (Rule Span)} {ps : List Passage} (h : Laid n rs ps) :
    List.Forall₂ (fun r p => Passage.kinds p = Rule.yield r) rs ps := by
  induction h with
  | nil => exact .nil
  | cons hk _ _ ih => exact .cons hk ih

theorem Laid.legal {n : Nat} {rs : List (Rule Span)} {ps : List Passage} (h : Laid n rs ps) :
    ∀ r ∈ rs, ∀ k ∈ r.yield, k.Legal := by
  induction h with
  | nil => simp
  | @cons n r rs p ps hk _ _ ih => exact List.forall_mem_cons.2 ⟨hk ▸ p.legal, ih⟩

theorem Laid.slices {n : Nat} {rs : List (Rule Span)} {ps : List Passage} (h : Laid n rs ps) {before : Text}
    (hn : before.byteLength = n) (trail : List Lexeme) :
    List.Forall₂ (fun r p => (before ++ spell (allLexemes ps trail)).slice? r.place.start r.place.stop =
      some (spell (Passage.body p))) rs ps := by
  induction h generalizing before with
  | nil => exact .nil
  | @cons n r rs p ps hk hp _ ih =>
      have hnext : (before ++ spell p.lexemes).byteLength = n + p.size := by
        rw [Text.byteLength_append, hn, size]
      have hrest := ih hnext
      have hs := Text.slice?_append (before ++ spell p.lead) (spell p.body) (spell (allLexemes ps trail))
      rw [List.append_assoc] at hrest
      rw [allLexemes_cons, spell_append]
      refine .cons ?_ hrest
      rw [hp, place, size_eq, ← hn, lexemes, spell_append]
      simpa [Nat.add_assoc] using hs

theorem legible_allLexemes (ps : List Passage) {trail : List Lexeme} (h : ∀ l ∈ trail, l.IsTrivia) (u : Text) :
    Legible (allLexemes ps trail) u := by
  induction ps with
  | nil => exact legible_of_trivia h u
  | cons p ps ih =>
      rw [allLexemes_cons]
      exact legible_append.2 ⟨p.legible _, ih⟩

theorem gists_allLexemes (n : Nat) (ps : List Passage) {trail : List Lexeme} (h : ∀ l ∈ trail, l.IsTrivia) :
    Lexeme.gists n [] (allLexemes ps trail) = (gistsFrom n ps).flatten := by
  induction ps generalizing n with
  | nil => exact gists_of_trivia fun l hl => (h l hl).2
  | cons p ps ih =>
      rw [allLexemes_cons, gists_append, p.gists_lexemes, p.waiting_lexemes, ← size, ih]
      rfl

theorem waiting_allLexemes (ps : List Passage) {trail : List Lexeme} (h : ∀ l ∈ trail, l.IsTrivia) :
    waiting [] (allLexemes ps trail) = trail.flatMap Lexeme.notes := by
  induction ps with
  | nil => exact waiting_of_trivia fun l hl => (h l hl).2
  | cons p ps ih => rw [allLexemes_cons, waiting_append, p.waiting_lexemes, ih]

end Passage

end Ebnf
