import Ebnf.Explorer.Scroll
import Ebnf.Explorer.Style
import Ebnf.Grammar.Render

namespace Ebnf.Explorer

inductive Role
  | rule
  | operator
  | group
  | identifier
  | terminal
  | special
  | integer
  | empty
deriving DecidableEq, Repr

structure Row where
  depth : Nat
  label : Text
  role : Role
deriving DecidableEq, Repr

variable {α : Type}

def atomRow (depth : Nat) : Atom → Row
  | .identifier name => ⟨depth, "identifier ".toList ++ name, .identifier⟩
  | .terminal text quote => ⟨depth, "terminal ".toList ++ (Atom.terminal text quote).spelling, .terminal⟩
  | .special text => ⟨depth, "special ".toList ++ (Atom.special text).spelling, .special⟩

def operatorRow (depth : Nat) (o : Operator) : Row := ⟨depth, o.name.toList ++ [' ', o.symbol], .operator⟩

def bracketName : Bracket → Text
  | .optional => "optional".toList
  | .repeated => "repeated".toList
  | .grouped => "grouped".toList

def groupRow (depth : Nat) (b : Bracket) : Row :=
  ⟨depth, bracketName b ++ [' ', b.opener, ' ', b.closer], .group⟩

def exprRows (depth : Nat) : Expr α → List Row
  | .atom a _ => [atomRow depth a]
  | .binary c l r _ => operatorRow depth (.joining c) :: exprRows (depth + 1) l ++ exprRows (depth + 1) r
  | .without l _ =>
      operatorRow depth (.joining .exception) :: exprRows (depth + 1) l ++
        [⟨depth + 1, "(nothing excluded)".toList, .empty⟩]
  | .counted n _ e _ =>
      operatorRow depth .counting :: ⟨depth + 1, "count ".toList ++ Decimal.digits n, .integer⟩ ::
        exprRows (depth + 1) e
  | .group b e _ => groupRow depth b :: exprRows (depth + 1) e
  | .empty b _ => [groupRow depth b, ⟨depth + 1, "(empty)".toList, .empty⟩]

def outline (r : Rule α) : List Row :=
  ⟨0, "rule ".toList ++ r.name, .rule⟩ ::
    r.body.elim [⟨1, "(empty definition)".toList, .empty⟩] (exprRows 1)

def Role.style : Role → Style
  | .rule => (Style.coloured theme.ruleName).emphasized
  | .operator | .group => .coloured theme.operator
  | .identifier => .coloured theme.identifier
  | .terminal => .coloured theme.terminal
  | .special => .coloured theme.special
  | .integer => .coloured theme.number
  | .empty => (Style.coloured theme.comment).slanted

def Row.line (r : Row) : Line :=
  let guide := (List.replicate (r.depth - 1) "│ ".toList).flatten
  let branch := if 0 < r.depth then "├ ".toList else []
  [⟨guide ++ branch, .coloured theme.borderNormal⟩, ⟨r.label, r.role.style⟩]

/-- The offset of the tree after drawing. Without a rule there is nothing to
scroll. -/
def treeOffset (rule : Option (Rule α)) (height offset : Nat) : Nat :=
  rule.elim offset fun r => Scroll.clamp (outline r).length (Scroll.visible height) offset

end Ebnf.Explorer
