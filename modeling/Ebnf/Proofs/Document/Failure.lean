import Ebnf.Proofs.Document.Source
import Ebnf.Proofs.Parser.Failure

namespace Ebnf

variable {source : Text} {e : ParseError}

theorem parse_of_tokenize_error {l : LexError} (h : tokenize source = .error l) :
    parse source = .error (.lexical l) := by
  rw [parse, Document.ofSource, Cursor.ofSource, h]
  rfl

theorem parse_of_tokenize_ok {ts : List Token} (h : tokenize source = .ok ts) :
    parse source = (Cursor.ofTokens ts).grammar.1 := by
  rw [parse, Document.ofSource, Cursor.ofSource, h]
  simp only [Except.map, Except.mapError, bind, Except.bind, pure, Except.pure]
  cases (Cursor.ofTokens ts).grammar.1 <;> rfl

/-- Reading the tokens of the source fails with `e`, and the cursor is left on
`t`, behind `us`. -/
def StopsAt (source : Text) (e : ParseError) (us : List Token) (t : Token) : Prop :=
  ∃ vs c, tokenize source = .ok (us ++ t :: vs) ∧
    (Cursor.ofTokens (us ++ t :: vs)).grammar = (.error e, c) ∧ c.remaining = t :: vs

theorem parse_error_cases (h : parse source = .error e) :
    (∃ l, tokenize source = .error l ∧ e = .lexical l) ∨
      ∃ us t, StopsAt source e us t ∧ ((us = [] ∧ t.kind = .eof ∧ e = .noRules) ∨
        ∃ q, Phase.name.reach? us = some q ∧ q.Refuses t ∧ e = q.refusal t) := by
  cases ht : tokenize source with
  | error l =>
      rw [parse_of_tokenize_error ht] at h
      exact .inl ⟨l, rfl, (Except.error.inj h).symm⟩
  | ok ts =>
      obtain ⟨us, stop, rfl, hus, hstop, -⟩ := tokenize_closed ht
      rw [parse_of_tokenize_ok ht] at h
      obtain ⟨us', t, vs, hs, hc, hfault⟩ := Cursor.grammar_stops hus hstop (Prod.ext h rfl)
      exact .inr ⟨us', t, ⟨vs, _, by rw [ht, hs], by rw [← hs]; exact Prod.ext h rfl, hc⟩, hfault⟩

end Ebnf
