import Ebnf.Token.Kind

namespace Ebnf

inductive Atom
  | identifier (name : Text)
  | terminal (text : Text) (quote : Quote)
  | special (text : Text)
deriving DecidableEq, Repr

/-- An expression whose nodes carry a place. Trees read from a text have spans
for places; `Expr Unit` is the tree alone. Only an exception can lack its right
operand, and a count stands nowhere but in front of a repeated operand. -/
inductive Expr (α : Type)
  | atom (a : Atom) (place : α)
  | binary (c : Connective) (left right : Expr α) (place : α)
  | without (left : Expr α) (place : α)
  | counted (count : Nat) (countPlace : α) (body : Expr α) (place : α)
  | group (b : Bracket) (inner : Expr α) (place : α)
  | empty (b : Bracket) (place : α)
deriving DecidableEq, Repr

structure Rule (α : Type) where
  name : Text
  namePlace : α
  body : Option (Expr α)
  place : α
deriving DecidableEq, Repr

structure Grammar (α : Type) where
  rules : List (Rule α)
  place : α
deriving DecidableEq, Repr

variable {α β : Type}

namespace Expr

def place : Expr α → α
  | .atom _ p | .binary _ _ _ p | .without _ p | .counted _ _ _ p | .group _ _ p | .empty _ p => p

def map (f : α → β) : Expr α → Expr β
  | .atom a p => .atom a (f p)
  | .binary c l r p => .binary c (l.map f) (r.map f) (f p)
  | .without l p => .without (l.map f) (f p)
  | .counted n q e p => .counted n (f q) (e.map f) (f p)
  | .group b e p => .group b (e.map f) (f p)
  | .empty b p => .empty b (f p)

end Expr

def Rule.map (f : α → β) (r : Rule α) : Rule β := ⟨r.name, f r.namePlace, r.body.map (Expr.map f), f r.place⟩

def Grammar.map (f : α → β) (g : Grammar α) : Grammar β := ⟨g.rules.map (Rule.map f), f g.place⟩

def Grammar.rule? (g : Grammar α) (name : Text) : Option (Rule α) := g.rules.find? (·.name = name)

end Ebnf
