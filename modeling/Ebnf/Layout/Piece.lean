import Ebnf.Grammar.Render
import Ebnf.Layout.Config
import Ebnf.Text.Blank

namespace Ebnf.Layout

inductive Piece
  | space
  | word (w : Text)
deriving DecidableEq, Repr

variable {α : Type}

def atomText (style : QuoteStyle) : Atom → Text
  | .terminal text quote => (Atom.terminal text (style.choose text quote)).spelling
  | a => a.spelling

def operator (o : Operator) : Piece := .word [o.symbol]

/-- A comma follows its left operand at once, every other operator a space. -/
def gapBefore (c : Connective) : List Piece := if c = .concatenation then [] else [.space]

def pieces (style : QuoteStyle) : Expr α → List Piece
  | .atom a _ => [.word (atomText style a)]
  | .binary c l r _ => pieces style l ++ gapBefore c ++ operator (.joining c) :: .space :: pieces style r
  | .without l _ => pieces style l ++ [.space, operator (.joining .exception)]
  | .counted n _ e _ => .word (Decimal.digits n) :: .space :: operator .counting :: .space :: pieces style e
  | .group b e _ => .word [b.opener] :: .space :: pieces style e ++ [.space, .word [b.closer]]
  | .empty b _ => [.word [b.opener], .word [b.closer]]

/-- A comment of one line is trimmed. One of several lines keeps its text, but
its breaks become those of the output. -/
def commentText (newline body : Text) : Text :=
  let inside := if '\n' ∈ body then Text.replaceBreaks newline (Text.unixBreaks body) else ' ' :: Blank.trim body ++ [' ']
  '(' :: '*' :: inside ++ ['*', ')']

/-- Comments in the middle of a line. Each one has a space on both sides,
unless `fresh` says that nothing or a space stands in front already. -/
def commentsText (newline : Text) : Bool → List Text → Text
  | _, [] => []
  | fresh, c :: cs => (if fresh then [] else [' ']) ++ commentText newline c ++ ' ' :: commentsText newline true cs

/-- The first word is the token of index `i`, and each later word the next
token. `notes` are the comments in front of a token. -/
def write (newline : Text) (notes : Nat → List Text) : Bool → Nat → List Piece → Text
  | _, _, [] => []
  | _, i, .space :: ps => ' ' :: write newline notes true i ps
  | fresh, i, .word w :: ps =>
      commentsText newline fresh (notes i) ++ w ++ write newline notes false (i + 1) ps

end Ebnf.Layout
