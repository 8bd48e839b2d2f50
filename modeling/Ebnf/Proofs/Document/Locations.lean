import Ebnf.Proofs.Document.Failure
import Ebnf.Proofs.Parser.FirstImpossible
import Ebnf.Proofs.Parser.Relocation
import Ebnf.Proofs.Token.Fault

namespace Ebnf

open Lexeme

/-- A location says how many bytes of the source stand in front of it, on which
line it is, and how far from the last line feed or from the start. Lines are
counted by line feeds and columns by characters. -/
def Location.Exact (source : Text) (l : Location) : Prop :=
  ∃ before after, before ++ after = source ∧ l.offset = before.byteLength ∧
    l.line = 1 + before.count '\n' ∧ l.column = 1 + (before.rtakeWhile (· ≠ '\n')).length

theorem Location.after_start_eq (t : Text) :
    start.after t = ⟨t.byteLength, 1 + t.count '\n', 1 + (t.rtakeWhile (· ≠ '\n')).length⟩ := by
  rw [← behind_start]
  simp [behind, start]

theorem Location.exact_after_start (before after : Text) : (start.after before).Exact (before ++ after) := by
  refine ⟨before, after, rfl, ?_⟩
  rw [after_start_eq]
  exact ⟨rfl, rfl, rfl⟩

theorem Token.location_of_mem_place {here : Location} {before : List Trivia} {ls : List Lexeme} {t : Token}
    (h : t ∈ place here before ls) :
    t.location.offset = t.span.start ∧ ∃ as bs, as ++ bs = ls ∧ t.location = here.after (spell as) ∧
      ∀ l ∈ bs.head?, l.role = .inr t.kind := by
  induction ls generalizing here before with
  | nil =>
      obtain rfl := List.mem_singleton.1 h
      exact ⟨rfl, [], [], rfl, rfl, by simp⟩
  | cons l ls ih =>
      have hrest {waiting : List Trivia} (h : t ∈ place (here.after l.spelling) waiting ls) :
          t.location.offset = t.span.start ∧ ∃ as bs, as ++ bs = l :: ls ∧ t.location = here.after (spell as) ∧
            ∀ l ∈ bs.head?, l.role = .inr t.kind := by
        obtain ⟨hstart, as, bs, rfl, hl, hrole⟩ := ih h
        refine ⟨hstart, l :: as, bs, rfl, ?_, hrole⟩
        rw [hl, spell_cons, Location.after_append]
      rw [place] at h
      split at h
      · exact hrest h
      · next kind hk =>
          rcases List.mem_cons.1 h with rfl | h
          · exact ⟨rfl, [], l :: ls, rfl, rfl, by simpa using hk⟩
          · exact hrest h

theorem location_exact_of_tokenize {source : Text} {ts : List Token} {t : Token} (h : tokenize source = .ok ts)
    (ht : t ∈ ts) : t.location.offset = t.span.start ∧ t.location.Exact source := by
  obtain ⟨ls, -, rfl, rfl⟩ := tokenize_eq_ok.1 h
  obtain ⟨hstart, as, bs, rfl, hl, -⟩ := Token.location_of_mem_place ht
  refine ⟨hstart, ?_⟩
  rw [hl, spell_append]
  exact Location.exact_after_start _ _

theorem lexError_location_exact {source : Text} {e : LexError} (h : tokenize source = .error e) :
    e.location.Exact source := by
  obtain ⟨ls, rest, -, rfl, hl, -⟩ := tokenize_eq_error.1 h
  rw [← hl]
  exact Location.exact_after_start _ _

def ParseError.locations : ParseError → List Location
  | .mismatchedBracket location _ opened _ => [location, opened]
  | e => e.location?.toList

theorem Token.mem_of_nest {t : Token} {os os' : List (Bracket × Location)} {o : Bracket × Location}
    (h : t.nest os = some os') (ho : o ∈ os') :
    o ∈ os ∨ t.kind = .mark (.opening o.1) ∧ t.location = o.2 := by
  obtain ⟨kind, span, location, trivia⟩ := t
  cases kind with
  | mark m =>
      cases m with
      | opening b =>
          cases h
          rcases List.mem_cons.1 ho with rfl | ho
          · exact .inr ⟨rfl, rfl⟩
          · exact .inl ho
      | closing b =>
          cases os with
          | nil => cases h
          | cons o' os =>
              simp only [nest] at h
              split at h
              · cases h
                exact .inl (List.mem_cons_of_mem o' ho)
              · cases h
      | equals | semicolon | operator =>
          cases h
          exact .inl ho
  | identifier | terminal | integer | special | eof =>
      cases h
      exact .inl ho

/-- A bracket that is still open was opened by one of the tokens, and is known
by the place where that token stands. -/
theorem Token.exists_opening_of_foldlM_nest {us : List Token} {os os' : List (Bracket × Location)}
    {o : Bracket × Location} (h : us.foldlM nest os = some os') (ho : o ∈ os') :
    o ∈ os ∨ ∃ t ∈ us, t.kind = .mark (.opening o.1) ∧ t.location = o.2 := by
  induction us generalizing os with
  | nil =>
      obtain rfl := Option.some.inj h
      exact .inl ho
  | cons u us ih =>
      rw [List.foldlM_cons] at h
      obtain ⟨os₁, hu, h⟩ := Option.bind_eq_some_iff.1 h
      rcases ih h with ho₁ | ⟨t, ht, hk⟩
      · rcases mem_of_nest hu ho₁ with ho | hk
        · exact .inl ho
        · exact .inr ⟨u, List.mem_cons_self, hk⟩
      · exact .inr ⟨t, List.mem_cons_of_mem u ht, hk⟩

theorem Phase.mem_locations_refusal {us : List Token} {q : Phase} {t : Token} {l : Location}
    (hq : Phase.name.reach? us = some q) (hl : l ∈ (q.refusal t).locations) :
    l = t.location ∨ ∃ u ∈ us, u.location = l := by
  obtain ⟨hloc, -⟩ := q.refusal_blames t
  cases he : q.refusal t with
  | noRules =>
      rw [he] at hl
      cases hl
  | lexical | malformedRule | unexpected =>
      left
      rw [he] at hl hloc
      obtain rfl := List.mem_singleton.1 hl
      exact Option.some.inj hloc
  | mismatchedBracket location b opened found =>
      rw [he] at hl hloc
      rcases List.mem_cons.1 hl with rfl | hl
      · exact .inl (Option.some.inj hloc)
      · obtain rfl := List.mem_singleton.1 hl
        obtain ⟨os, hos⟩ := brackets_of_refusal he
        have hmem : (b, l) ∈ q.brackets := by
          rw [hos]
          exact List.mem_cons_self
        rcases Token.exists_opening_of_foldlM_nest (nest_reach? hq) hmem with ho | ⟨u, hu, -, hul⟩
        · cases ho
        · exact .inr ⟨u, hu, hul⟩

/-- Every location that is reported for a source is exact: those of all tokens,
of what cannot be divided into tokens, and of what cannot be read as a grammar.
A token is located where it starts, and an error of the grammar where the
cursor has stopped. -/
theorem locations_exact (source : Text) :
    (∀ ts, tokenize source = .ok ts → ∀ t ∈ ts, t.location.offset = t.span.start ∧ t.location.Exact source) ∧
    (∀ e, tokenize source = .error e → e.location.Exact source) ∧
    ∀ e, parse source = .error e → (∀ l ∈ e.locations, l.Exact source) ∧
      ((∃ l, tokenize source = .error l ∧ e = .lexical l) ∨
        ∃ us t, StopsAt source e us t ∧ ∀ l ∈ e.location?, l = t.location) := by
  refine ⟨fun ts h t ht => location_exact_of_tokenize h ht, fun e h => lexError_location_exact h, fun e h => ?_⟩
  rcases parse_error_cases h with ⟨l, hl, rfl⟩ | ⟨us, t, hs, ⟨-, -, rfl⟩ | ⟨q, hq, -, rfl⟩⟩
  · refine ⟨?_, .inl ⟨l, hl, rfl⟩⟩
    intro l' hl'
    obtain rfl := List.mem_singleton.1 hl'
    exact lexError_location_exact hl
  · refine ⟨?_, .inr ⟨us, t, hs, ?_⟩⟩
    · simp [ParseError.locations, ParseError.location?]
    · simp [ParseError.location?]
  · obtain ⟨vs, c, hts, -, -⟩ := id hs
    refine ⟨fun l hl => ?_, .inr ⟨us, t, hs, fun l hl => ?_⟩⟩
    · rcases Phase.mem_locations_refusal hq hl with rfl | ⟨u, hu, rfl⟩
      · exact (location_exact_of_tokenize hts (List.mem_append_right us List.mem_cons_self)).2
      · exact (location_exact_of_tokenize hts (List.mem_append_left _ hu)).2
    · rw [(q.refusal_blames t).1] at hl
      exact (Option.mem_some_iff.1 hl).symm

theorem locations_exact_of_unclosed_bracket :
    let source : Text := "(*ä\n*)r = ['ö\n', (a ;".toList
    let e : ParseError := .mismatchedBracket ⟨22, 3, 7⟩ .grouped ⟨19, 3, 4⟩ (.mark .semicolon)
    parse source = .error e ∧ (∀ l ∈ e.locations, l.Exact source) ∧
      ((∃ l, tokenize source = .error l ∧ e = .lexical l) ∨
        ∃ us t, StopsAt source e us t ∧ ∀ l ∈ e.location?, l = t.location) := by
  intro source e
  have h : parse source = .error e := by decide +kernel
  exact ⟨h, (locations_exact source).2.2 e h⟩

end Ebnf
