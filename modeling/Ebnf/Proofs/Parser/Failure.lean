import Ebnf.Proofs.Parser.Language
import Ebnf.Proofs.Parser.Progress

namespace Ebnf

variable {stop t : Token} {ts us rest : List Token} {p q : Phase} {e : ParseError}

theorem readRules_error_rest (hstop : stop.kind = .eof) (hts : ∀ t ∈ ts, t.kind ≠ .eof)
    (h : readRules stop p ts = .error e rest) :
    ∃ us t vs q, ts ++ [stop] = us ++ t :: vs ∧ rest ++ [stop] = t :: vs ∧ p.reach? us = some q ∧
      q.Refuses t ∧ e = q.refusal t := by
  obtain ⟨us, t, vs, q, hs, hq, ht, rfl⟩ := readRules_error hstop hts h
  refine ⟨us, t, vs, q, hs, ?_, hq, ht, rfl⟩
  obtain ⟨rs, hrs⟩ := readRules_reach hq
  rcases vs.eq_nil_or_concat with rfl | ⟨vs, v, rfl⟩
  · -- the refused token is the end, and nothing is ahead of it
    obtain ⟨rfl, hend⟩ := List.append_inj' hs rfl
    obtain rfl := List.singleton_inj.1 hend
    have hread := hrs stop []
    rw [List.append_nil, h] at hread
    cases q with
    | name => exact absurd rfl (ht.incomplete hstop)
    | _ => rw [(Outcome.error.inj hread).2, List.nil_append]
  · rw [List.concat_eq_append, ← List.cons_append, ← List.append_assoc] at hs
    obtain ⟨rfl, hend⟩ := List.append_inj' hs rfl
    have hread := hrs stop (t :: vs)
    rw [h, readRules, ht.unread] at hread
    rw [(Outcome.error.inj hread).2, hend, List.concat_eq_append, List.cons_append]

def Cursor.remaining (c : Cursor) : List Token := c.ahead ++ [c.stop]

/-- Reading a grammar stops on the token that cannot be read, or on the end of
no tokens at all. -/
theorem Cursor.grammar_stops {c : Cursor} (hts : ∀ t ∈ ts, t.kind ≠ .eof) (hstop : stop.kind = .eof)
    (h : (ofTokens (ts ++ [stop])).grammar = (.error e, c)) :
    ∃ us t vs, ts ++ [stop] = us ++ t :: vs ∧ c.remaining = t :: vs ∧
      ((us = [] ∧ t.kind = .eof ∧ e = .noRules) ∨
        ∃ q, Phase.name.reach? us = some q ∧ q.Refuses t ∧ e = q.refusal t) := by
  rw [ofTokens_append hts hstop, grammar, run, readGrammar] at h
  obtain ⟨he, rfl⟩ := Prod.mk.inj h
  cases ho : readRules stop .name ts with
  | ok rs rest =>
      obtain ⟨rfl, segs, hsegs, hm⟩ := readRules_ok Phase.name_follows ho
      simp only [ho] at he ⊢
      cases hg : Grammar.ofRules? rs with
      | some g =>
          rw [hg] at he
          cases he
      | none =>
          rw [hg] at he
          cases he
          cases rs with
          | cons r rs => cases hg
          | nil =>
              cases hm
              obtain rfl : ts = [] := hsegs
              exact ⟨[], stop, [], rfl, rfl, .inl ⟨rfl, hstop, rfl⟩⟩
  | error e' rest =>
      simp only [ho] at he ⊢
      cases he
      obtain ⟨us, t, vs, q, hs, hr, hq, ht, rfl⟩ := readRules_error_rest hstop hts ho
      exact ⟨us, t, vs, hs, hr, .inr ⟨q, hq, ht, rfl⟩⟩

end Ebnf
