import Ebnf.Text.Basic

namespace Ebnf

structure Location where
  offset : Nat
  line : Nat
  column : Nat
deriving DecidableEq, Repr, Inhabited

namespace Location

def start : Location := ⟨0, 1, 1⟩

/-- Bytes move the offset and characters the column. A line feed alone opens
the next line. -/
def advance (l : Location) (c : Char) : Location :=
  if c = '\n' then ⟨l.offset + c.utf8Size, l.line + 1, 1⟩ else ⟨l.offset + c.utf8Size, l.line, l.column + 1⟩

def after (l : Location) (t : Text) : Location := t.foldl advance l

def message (l : Location) : String := s!"line {l.line}, column {l.column}"

theorem after_append (l : Location) (t u : Text) : l.after (t ++ u) = (l.after t).after u :=
  List.foldl_append

end Location

end Ebnf
