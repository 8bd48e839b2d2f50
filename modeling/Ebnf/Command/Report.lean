import Ebnf.Parser.Error

namespace Ebnf.Command

structure Excerpt where
  line : Text
  pad : Text
deriving DecidableEq, Repr

/-- Tabs stay tabs, so that the caret stands below its character. -/
def excerpt? (source : Text) (l : Location) : Option Excerpt :=
  source.lines[l.line - 1]?.map fun line =>
    ⟨line, (line.take (l.column - 1)).map fun c => if c = '\t' then '\t' else ' '⟩

def excerptText (number : Nat) (x : Excerpt) : Text :=
  let gutter := Decimal.digits number
  let blank := Text.spaces gutter.length
  blank ++ " |\n".toList ++ gutter ++ " | ".toList ++ x.line ++ '\n' :: blank ++ " | ".toList ++ x.pad ++ ['^', '\n']

/-- An error as the user sees it, with the line where it lies. -/
def report (path source : Text) (e : ParseError) : Text :=
  "error: ".toList ++ e.message.toList ++ "\n  --> ".toList ++ path ++
    match e.location? with
    | none => ['\n']
    | some l =>
        ':' :: Decimal.digits l.line ++ ':' :: Decimal.digits l.column ++ '\n' ::
          ((excerpt? source l).map (excerptText l.line)).getD []

end Ebnf.Command
