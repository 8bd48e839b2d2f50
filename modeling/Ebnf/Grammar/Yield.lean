import Ebnf.Grammar.Tree

namespace Ebnf

variable {α : Type}

def Atom.kind : Atom → Kind
  | .identifier name => .identifier name
  | .terminal text quote => .terminal text quote
  | .special text => .special text

def Expr.yield : Expr α → List Kind
  | .atom a _ => [a.kind]
  | .binary c l r _ => l.yield ++ .mark (.operator (.joining c)) :: r.yield
  | .without l _ => l.yield ++ [.mark (.operator (.joining .exception))]
  | .counted n _ e _ => .integer n :: .mark (.operator .counting) :: e.yield
  | .group b e _ => .mark (.opening b) :: e.yield ++ [.mark (.closing b)]
  | .empty b _ => [.mark (.opening b), .mark (.closing b)]

def bodyYield (body : Option (Expr α)) : List Kind := body.elim [] Expr.yield

def Rule.yield (r : Rule α) : List Kind :=
  .identifier r.name :: .mark .equals :: bodyYield r.body ++ [.mark .semicolon]

def Grammar.yield (g : Grammar α) : List Kind := g.rules.flatMap Rule.yield

end Ebnf
