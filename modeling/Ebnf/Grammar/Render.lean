import Ebnf.Grammar.Tree

namespace Ebnf

variable {α : Type}

def Atom.spelling : Atom → Text
  | .identifier name => name
  | .terminal text quote => quote.char :: text ++ [quote.char]
  | .special text => '?' :: text ++ ['?']

/-- The tree in operator-first form. Every operator stands in parentheses of
its own, so the shape shows; places do not. -/
def Expr.render : Expr α → Text
  | .atom a _ => a.spelling
  | .binary c l r _ => '(' :: (Operator.joining c).symbol :: ' ' :: l.render ++ ' ' :: r.render ++ [')']
  | .without l _ => '(' :: (Operator.joining .exception).symbol :: ' ' :: l.render ++ [')']
  | .counted n _ e _ => '(' :: Operator.counting.symbol :: ' ' :: Decimal.digits n ++ ' ' :: e.render ++ [')']
  | .group b e _ => b.opener :: e.render ++ [b.closer]
  | .empty b _ => [b.opener, b.closer]

def Rule.render (r : Rule α) : Text := r.name ++ " = ".toList ++ r.body.elim [] Expr.render ++ [';']

def Grammar.render (g : Grammar α) : Text := ['\n'].intercalate (g.rules.map Rule.render)

end Ebnf
