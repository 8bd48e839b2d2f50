import Ebnf.Parser.Cursor

namespace Ebnf

/-- A grammar together with all tokens of its text, the end token included. -/
structure Document where
  grammar : Grammar Span
  tokens : List Token
deriving DecidableEq, Repr

namespace Document

def comments (d : Document) : List (Nat × List Comment) :=
  d.tokens.zipIdx.filterMap fun p =>
    if p.1.comments.isEmpty then none else some (p.2, p.1.comments)

def commentCount (d : Document) : Nat := d.tokens.foldr (fun t n => t.comments.length + n) 0

def ofSource (source : Text) : Except ParseError Document := do
  let c ← (Cursor.ofSource source).mapError .lexical
  let g ← c.grammar.1
  return ⟨g, c.tokens⟩

end Document

def parse (source : Text) : Except ParseError (Grammar Span) := (Document.ofSource source).map (·.grammar)

end Ebnf
