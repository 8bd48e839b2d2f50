import Ebnf.Text.Decimal

namespace Ebnf

inductive Quote
  | single
  | double
deriving DecidableEq, Repr, Inhabited

def Quote.all : List Quote := [.single, .double]

def Quote.char : Quote → Char
  | .single => '\''
  | .double => '"'

inductive Bracket
  | optional
  | repeated
  | grouped
deriving DecidableEq, Repr, Inhabited

namespace Bracket

def all : List Bracket := [.optional, .repeated, .grouped]

def opener : Bracket → Char
  | .optional => '['
  | .repeated => '{'
  | .grouped => '('

def closer : Bracket → Char
  | .optional => ']'
  | .repeated => '}'
  | .grouped => ')'

end Bracket

inductive Connective
  | alternation
  | concatenation
  | exception
deriving DecidableEq, Repr, Inhabited

/-- Binding strength. Equal strength associates to the left. -/
def Connective.strength : Connective → Nat
  | .alternation => 1
  | .concatenation => 2
  | .exception => 3

inductive Operator
  | joining (c : Connective)
  | counting
deriving DecidableEq, Repr, Inhabited

namespace Operator

def all : List Operator := [.joining .alternation, .joining .concatenation, .joining .exception, .counting]

def strength : Operator → Nat
  | .joining c => c.strength
  | .counting => 4

def symbol : Operator → Char
  | .joining .alternation => '|'
  | .joining .concatenation => ','
  | .joining .exception => '-'
  | .counting => '*'

def name : Operator → String
  | .joining .alternation => "alternation"
  | .joining .concatenation => "concatenation"
  | .joining .exception => "exception"
  | .counting => "repetition-count"

end Operator

inductive Mark
  | equals
  | semicolon
  | operator (o : Operator)
  | opening (b : Bracket)
  | closing (b : Bracket)
deriving DecidableEq, Repr, Inhabited

namespace Mark

def all : List Mark :=
  [.equals, .semicolon] ++ Operator.all.map .operator ++ Bracket.all.map .opening ++ Bracket.all.map .closing

def char : Mark → Char
  | .equals => '='
  | .semicolon => ';'
  | .operator o => o.symbol
  | .opening b => b.opener
  | .closing b => b.closer

def ofChar? (c : Char) : Option Mark := all.find? (·.char = c)

end Mark

/-- What a token means. Two tokens of one kind can be spelled differently:
only the value of an integer counts. -/
inductive Kind
  | identifier (name : Text)
  | terminal (text : Text) (quote : Quote)
  | integer (value : Nat)
  | special (text : Text)
  | mark (m : Mark)
  | eof
deriving DecidableEq, Repr, Inhabited

namespace Kind

def startsExpression : Kind → Bool
  | .identifier _ | .terminal _ _ | .special _ | .integer _ | .mark (.opening _) => true
  | _ => false

def display : Kind → String
  | .identifier name => "identifier '" ++ String.ofList name ++ "'"
  | .terminal text quote => "terminal " ++ String.ofList (quote.char :: text ++ [quote.char])
  | .integer value => s!"integer {value}"
  | .special text => "special sequence ?" ++ String.ofList text ++ "?"
  | .mark m => String.ofList ['\'', m.char, '\'']
  | .eof => "end of file"

end Kind

end Ebnf
