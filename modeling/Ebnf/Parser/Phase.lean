import Ebnf.Parser.Reading

namespace Ebnf

structure Head where
  name : Text
  span : Span
deriving DecidableEq, Repr

inductive Phase
  | name
  | equals (h : Head)
  | body (h : Head)
  | within (h : Head) (s : Reading)
deriving DecidableEq, Repr

def Head.rule (h : Head) (body : Option (Expr Span)) (semicolon : Span) : Rule Span :=
  ⟨h.name, h.span, body, h.span.hull semicolon⟩

def Goal.body : Goal := .expression Connective.alternation.strength

namespace Phase

/-- What follows behind `t`: a further phase, or the rule that `t` ends. -/
def read? : Phase → Token → Option (Phase ⊕ Rule Span)
  | .name, t => match t.kind with
      | .identifier n => some (.inl (.equals ⟨n, t.span⟩))
      | _ => none
  | .equals h, t => if t.kind = .mark .equals then some (.inl (.body h)) else none
  | .body h, t =>
      if t.kind = .mark .semicolon then some (.inr (h.rule none t.span))
      else (Reading.readOperand? [] t).map (.inl ∘ .within h)
  | .within h s, t => match s.read? .body t, s.settle .body t with
      | some s', _ => some (.inl (.within h s'))
      | none, .ok e => if t.kind = .mark .semicolon then some (.inr (h.rule (some e) t.span)) else none
      | none, .error _ => none

def refusal : Phase → Token → ParseError
  | .name, t => .malformedAt t .name
  | .equals _, t => .malformedAt t .equals
  | .body _, t =>
      if t.kind = .eof then .malformedAt t .semicolon
      else .unexpectedAt t (Expected.starts ++ [.mark .semicolon])
  | .within _ s, t => match s.settle .body t with
      | .error e => e
      | .ok _ => .malformedAt t .semicolon

end Phase

end Ebnf
