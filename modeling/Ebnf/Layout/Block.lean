import Ebnf.Grammar.Yield
import Ebnf.Layout.Config
import Ebnf.Source.Span

namespace Ebnf.Layout

def parted (source : Text) (r s : Rule Span) : Bool :=
  let between := Span.slice ⟨r.place.stop, s.place.start⟩ source
  Text.occursIn ['\n', '\n'] between || Text.occursIn ['\n', '\r', '\n'] between

def blocks (source : Text) : List (Rule Span) → List (List (Rule Span))
  | [] => []
  | [r] => [[r]]
  | r :: s :: rs => match blocks source (s :: rs) with
      | b :: bs => if parted source r s then [r] :: b :: bs else (r :: b) :: bs
      | [] => [[r]]

/-- A rule at its place in the layout. `index` is that of its first token. -/
structure Entry where
  index : Nat
  width : Nat
  opensBlock : Bool
  rule : Rule Span
deriving DecidableEq, Repr

def tokenCount : List (Rule Span) → Nat
  | [] => 0
  | r :: rs => r.yield.length + tokenCount rs

def nameWidth (align : Bool) (block : List (Rule Span)) : Nat :=
  if align then (block.map (·.name.length)).foldr max 0 else 0

def blockEntries (width : Nat) : Bool → Nat → List (Rule Span) → List Entry
  | _, _, [] => []
  | opens, i, r :: rs => ⟨i, width, opens, r⟩ :: blockEntries width false (i + r.yield.length) rs

def entriesFrom (align : Bool) : Bool → Nat → List (List (Rule Span)) → List Entry
  | _, _, [] => []
  | opens, i, b :: bs =>
      blockEntries (nameWidth align b) opens i b ++ entriesFrom align true (i + tokenCount b) bs

def entries (align : Bool) (source : Text) (rules : List (Rule Span)) : List Entry :=
  entriesFrom align false 0 (blocks source rules)

end Ebnf.Layout
