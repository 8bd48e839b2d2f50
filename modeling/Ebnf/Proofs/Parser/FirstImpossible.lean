import Ebnf.Proofs.Parser.Nesting
import Ebnf.Proofs.Parser.Language

namespace Ebnf

def ParseError.found? : ParseError → Option Kind
  | .lexical _ | .noRules => none
  | .malformedRule _ _ found | .mismatchedBracket _ _ _ found | .unexpected _ found _ => some found

/-- An error blames a token: it names that token and the place where it stands. -/
def ParseError.Blames (e : ParseError) (t : Token) : Prop :=
  e.location? = some t.location ∧ e.found? = some t.kind

theorem Reading.settle_blames {goal : Goal} {s : Reading} {t : Token} {e : ParseError}
    (h : s.settle goal t = .error e) : e.Blames t := by
  have hoperand {e' : Expr Span} {fs : List Frame} (h : settleOperand goal e' fs t = .error e) : e.Blames t := by
    rw [settleOperand] at h
    split at h
    · cases h
    split at h
    · cases h
      exact ⟨rfl, rfl⟩
    split at h
    · cases h
      exact ⟨rfl, rfl⟩
    · cases h
  obtain ⟨focus, fs⟩ := s
  cases focus with
  | operand | count value span | opened b span location =>
      cases h
      exact ⟨rfl, rfl⟩
  | excepted left minus => exact hoperand h
  | complete e' => exact hoperand h

theorem Phase.refusal_blames (p : Phase) (t : Token) : (p.refusal t).Blames t := by
  cases p with
  | name | equals => exact ⟨rfl, rfl⟩
  | body h =>
      rw [refusal]
      split <;> exact ⟨rfl, rfl⟩
  | within h s =>
      rw [refusal]
      split
      · next e he => exact Reading.settle_blames he
      · exact ⟨rfl, rfl⟩

/-- A grammar is read from these tokens. -/
def Accepted (ts : List Token) : Prop := ∃ g, (Cursor.ofTokens ts).grammar.1 = .ok g

theorem Accepted.of_reach? {us : List Token} {stop : Token} (hne : us ≠ [])
    (h : Phase.name.reach? us = some .name) (hstop : stop.kind = .eof) : Accepted (us ++ [stop]) := by
  obtain ⟨rs, hrs⟩ := readRules_reach h
  have hread : readRules stop .name us = .ok rs [] := by
    have := hrs stop []
    rw [List.append_nil] at this
    rw [this, readRules, Outcome.map, List.append_nil]
  have hrs' : rs ≠ [] := by
    rintro rfl
    obtain ⟨-, segs, hsegs, hm⟩ := readRules_ok Phase.name_follows hread
    cases hm
    exact hne hsegs
  obtain ⟨g, hg, rfl⟩ := Grammar.ofRules?_of_ne_nil hrs'
  exact ⟨g, (Cursor.grammar_ok (Phase.ne_eof_of_reach? h) hstop).2 ⟨hread, hg⟩⟩

/-- What `us` begin can be completed, but not with `t` behind them. The error
blames `t` and does not depend on what stands behind it, and a bracket that it
asks to be closed is the innermost one that `us` leave open. -/
structure FirstImpossible (us : List Token) (t : Token) (e : ParseError) : Prop where
  blames : e.Blames t
  completable : ∃ vs stop, (∀ v ∈ vs, v.kind ≠ .eof) ∧ stop.kind = .eof ∧ Accepted (us ++ vs ++ [stop])
  impossible : ∀ vs, ¬ Accepted (us ++ t :: vs)
  settled : ∀ vs, (Cursor.ofTokens (us ++ t :: vs)).grammar.1 = .error e
  innermost : ∀ location b opened found, e = .mismatchedBracket location b opened found →
    ∃ os, Token.unclosed? us = some ((b, opened) :: os)

theorem Phase.Refuses.firstImpossible {us : List Token} {t : Token} {q : Phase}
    (hq : Phase.name.reach? us = some q) (ht : q.Refuses t) : FirstImpossible us t (q.refusal t) := by
  refine ⟨q.refusal_blames t, ?_, ?_, Cursor.grammar_error_of_refuses hq ht, ?_⟩
  · obtain ⟨vs, hne, hvs⟩ := q.exists_completion
    have hreach : Phase.name.reach? (us ++ vs) = some .name := by
      rw [reach?_append, hq]
      exact hvs
    refine ⟨vs, Kind.eof.token, ne_eof_of_reach? hvs, rfl, Accepted.of_reach? ?_ hreach rfl⟩
    simp [hne]
  · rintro vs ⟨g, hg⟩
    rw [Cursor.grammar_error_of_refuses hq ht] at hg
    cases hg
  · intro location b opened found he
    obtain ⟨os, hos⟩ := brackets_of_refusal he
    exact ⟨os, (nest_reach? hq).trans (congrArg some hos)⟩

/-- An error that has a place is about the first token with which the tokens
cannot be completed any more. -/
theorem grammar_error_firstImpossible {ts : List Token} {stop : Token} (hts : ∀ t ∈ ts, t.kind ≠ .eof)
    (hstop : stop.kind = .eof) {e : ParseError} (h : (Cursor.ofTokens (ts ++ [stop])).grammar.1 = .error e)
    {location : Location} (hl : e.location? = some location) :
    ∃ us t vs, ts ++ [stop] = us ++ t :: vs ∧ FirstImpossible us t e := by
  rw [Cursor.ofTokens_append hts hstop, Cursor.grammar, Cursor.run, readGrammar] at h
  cases ho : readRules stop .name ts with
  | ok rs rest =>
      simp only [ho] at h
      cases hg : Grammar.ofRules? rs with
      | none =>
          rw [hg] at h
          cases h
          cases hl
      | some g =>
          rw [hg] at h
          cases h
  | error e' rest =>
      simp only [ho] at h
      cases h
      obtain ⟨us, t, vs, q, hs, hq, ht, rfl⟩ := readRules_error hstop hts ho
      exact ⟨us, t, vs, hs, ht.firstImpossible hq⟩

theorem grammar_error_firstImpossible_of_crossed_brackets :
    let token (k : Kind) (n : Nat) : Token := ⟨k, ⟨n, n + 1⟩, ⟨n, 1, n + 1⟩, []⟩
    let ts : List Token := [token (.identifier ['r']) 0, token (.mark .equals) 1,
      token (.mark (.opening .repeated)) 2, token (.mark (.opening .grouped)) 3, token (.identifier ['a']) 4,
      token (.mark (.operator (.joining .exception))) 5, token (.mark (.closing .optional)) 6,
      token (.mark .semicolon) 7]
    let e : ParseError := .mismatchedBracket ⟨6, 1, 7⟩ .grouped ⟨3, 1, 4⟩ (.mark (.closing .optional))
    (Cursor.ofTokens (ts ++ [token .eof 8])).grammar.1 = .error e ∧ e.location? = some ⟨6, 1, 7⟩ ∧
      ∃ us t vs, ts ++ [token .eof 8] = us ++ t :: vs ∧ FirstImpossible us t e := by
  intro token ts e
  have hts : ∀ t ∈ ts, t.kind ≠ .eof := by decide
  have h : (Cursor.ofTokens (ts ++ [token .eof 8])).grammar.1 = .error e := by rfl
  exact ⟨h, rfl, grammar_error_firstImpossible hts rfl h rfl⟩

end Ebnf
