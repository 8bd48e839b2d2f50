import Ebnf.Text.Basic

namespace Ebnf

/-- A half-open range of bytes. -/
structure Span where
  start : Nat
  stop : Nat
deriving DecidableEq, Repr, Inhabited

namespace Span

def hull (a b : Span) : Span := ⟨min a.start b.start, max a.stop b.stop⟩

def isEmpty (a : Span) : Bool := a.stop ≤ a.start

/-- The text inside, and nothing where the span does not fit the source. -/
def slice (a : Span) (source : Text) : Text := (source.slice? a.start a.stop).getD []

def lineRange (a : Span) (source : Text) : Nat × Nat :=
  (source.breaksBefore (min a.start a.stop) + 1, source.breaksBefore a.stop + 1)

end Span

end Ebnf
