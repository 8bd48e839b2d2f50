import Ebnf.Document
import Ebnf.Layout.Block
import Ebnf.Layout.Piece

namespace Ebnf.Layout

structure Page where
  config : Config
  source : Text
  notes : Array (List Text)
deriving DecidableEq, Repr

def alternatives {α : Type} : Expr α → List (Expr α)
  | .binary .alternation l r _ => alternatives l ++ [r]
  | e => [e]

/-- The texts of a rule's line. It can be broken in front of each separator. -/
structure Parts where
  head : Text
  first : Text
  further : List (Text × Text)
  last : Text
deriving DecidableEq, Repr

def Parts.text (glue : Text) (p : Parts) : Text :=
  p.head ++ p.first ++ p.further.flatMap (fun s => glue ++ s.1 ++ ' ' :: s.2) ++ p.last

namespace Page

def newline (p : Page) : Text := p.config.newline.text

def notesAt (p : Page) (i : Nat) : List Text := (p.notes[i]?).getD []

def write (p : Page) (i : Nat) (ps : List Piece) : Text := Layout.write p.newline p.notesAt true i ps

def further (p : Page) : Nat → List (Expr Span) → List (Text × Text)
  | _, [] => []
  | i, e :: es =>
      (p.write i [operator (.joining .alternation)], p.write (i + 1) (pieces p.config.quotes e)) ::
        further p (i + 1 + e.yield.length) es

def parts (p : Page) (e : Entry) : Parts :=
  let head := e.rule.name.padRight e.width ++ ' ' :: p.write (e.index + 1) [.word ['='], .space]
  let behind := p.write (e.index + 2 + (bodyYield e.rule.body).length) [.word [';']]
  match e.rule.body.elim [] alternatives with
  | [] => ⟨head, [], [], behind⟩
  | a :: as =>
      ⟨head, p.write (e.index + 2) (pieces p.config.quotes a), p.further (e.index + 2 + a.yield.length) as,
        ' ' :: behind⟩

/-- A line that is too wide gets one alternative per line, each separator in
the column of the equals sign. -/
def ruleText (p : Page) (e : Entry) : Text :=
  let parts := p.parts e
  let line := parts.text [' ']
  if parts.further ≠ [] ∧ p.config.lineWidth < line.length then
    parts.text (p.newline ++ Text.spaces (parts.head.length - 2))
  else line

def noteLines (p : Page) (i : Nat) : Text := (p.notesAt i).flatMap fun c => commentText p.newline c ++ p.newline

def ignores (p : Page) (e : Entry) : Bool := (p.notesAt e.index).any (Text.occursIn p.config.ignore)

def segment (p : Page) (e : Entry) : Text :=
  p.noteLines e.index ++ (if p.ignores e then e.rule.place.slice p.source else p.ruleText e) ++ p.newline

def text (p : Page) (rules : List (Rule Span)) : Text :=
  (entries p.config.align p.source rules).flatMap
      (fun e => (if e.opensBlock then p.newline else []) ++ p.segment e) ++
    p.noteLines (tokenCount rules)

def ofDocument (config : Config) (source : Text) (d : Document) : Page :=
  ⟨config, source, (d.tokens.map fun t => t.comments.map (·.text)).toArray⟩

end Page

/-- The document in canonical layout. `source` is the text it was read from. -/
def format (config : Config) (source : Text) (d : Document) : Text :=
  (Page.ofDocument config source d).text d.grammar.rules

end Ebnf.Layout
