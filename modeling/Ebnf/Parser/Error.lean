import Ebnf.Token.Basic

namespace Ebnf

inductive Expected
  | identifier
  | terminal
  | special
  | integer
  | mark (m : Mark)
  | countMark
deriving DecidableEq, Repr

namespace Expected

def name : Expected → String
  | .identifier => "identifier"
  | .terminal => "terminal string"
  | .special => "special sequence"
  | .integer => "integer"
  | .mark m => String.ofList ['\'', m.char, '\'']
  | .countMark => "'*' after repetition count"

def starts : List Expected :=
  [.identifier, .terminal, .special, .integer] ++ Bracket.all.map (.mark ∘ .opening)

/-- What a complete operand can be followed by, brackets aside. -/
def continuations : List Expected :=
  [.mark (.operator (.joining .alternation)), .mark (.operator (.joining .concatenation)),
    .mark (.operator (.joining .exception)), .mark .semicolon]

end Expected

inductive RulePart
  | name
  | equals
  | semicolon
deriving DecidableEq, Repr

namespace RulePart

def all : List RulePart := [.name, .equals, .semicolon]

def description : RulePart → String
  | .name => "rule name"
  | .equals => "'=' after rule name"
  | .semicolon => "';' at end of rule"

end RulePart

inductive ParseError
  | lexical (e : LexError)
  | noRules
  | malformedRule (location : Location) (expected : RulePart) (found : Kind)
  | mismatchedBracket (location : Location) (bracket : Bracket) (opened : Location) (found : Kind)
  | unexpected (location : Location) (found : Kind) (expected : List Expected)
deriving DecidableEq, Repr

namespace ParseError

def malformedAt (t : Token) (expected : RulePart) : ParseError := .malformedRule t.location expected t.kind

def mismatchedAt (t : Token) (b : Bracket) (opened : Location) : ParseError :=
  .mismatchedBracket t.location b opened t.kind

def unexpectedAt (t : Token) (expected : List Expected) : ParseError := .unexpected t.location t.kind expected

def location? : ParseError → Option Location
  | .lexical e => some e.location
  | .noRules => none
  | .malformedRule location _ _ | .mismatchedBracket location _ _ _ | .unexpected location _ _ => some location

def message : ParseError → String
  | .lexical e => e.message
  | .noRules => "Parse error: input contains no syntax rules"
  | .malformedRule location expected found =>
      s!"Parse error at {location.message}: malformed rule, expected {expected.description}, found {found.display}"
  | .mismatchedBracket location bracket opened found =>
      s!"Parse error at {location.message}: expected '{bracket.closer}' to close the bracket " ++
        s!"opened at {opened.message}, found {found.display}"
  | .unexpected location found expected =>
      s!"Parse error at {location.message}: unexpected {found.display}, expected one of " ++
        ", ".intercalate (expected.map Expected.name)

end ParseError

end Ebnf
