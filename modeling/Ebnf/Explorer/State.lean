import Ebnf.Document
import Ebnf.Explorer.Highlight
import Ebnf.Explorer.Outline
import Ebnf.Explorer.Scroll

namespace Ebnf.Explorer

inductive Focused
  | rules
  | tree
  | source
deriving DecidableEq, Repr

def Focused.next : Focused → Focused
  | .rules => .tree
  | .tree => .source
  | .source => .rules

def Focused.previous : Focused → Focused
  | .rules => .source
  | .tree => .rules
  | .source => .tree

inductive Key
  | up
  | down
  | left
  | right
  | first
  | last
  | pageUp
  | pageDown
  | tab
  | backTab
  | escape
  | enter
  | char (c : Char)
deriving DecidableEq, Repr

def Key.named : List (String × Key) :=
  [("up", .up), ("down", .down), ("left", .left), ("right", .right), ("home", .first), ("end", .last),
    ("pageup", .pageUp), ("pagedown", .pageDown), ("tab", .tab), ("backtab", .backTab), ("esc", .escape),
    ("enter", .enter)]

def Key.ofName? (name : String) : Option Key :=
  match Key.named.lookup name, name.toList with
  | some k, _ => some k
  | none, [c] => some (.char c)
  | none, _ => none

/-- What is explored, and what is worked out once for all frames. -/
structure Subject where
  document : Document
  source : Text
  fileName : Text
  lines : List Line
  ranges : List (Nat × Nat)
deriving DecidableEq, Repr

namespace Subject

def ofDocument (d : Document) (source fileName : Text) : Subject :=
  ⟨d, source, fileName, highlight source d.tokens, d.grammar.rules.map (·.place.lineRange source)⟩

def rules (s : Subject) : List (Rule Span) := s.document.grammar.rules

def message (s : Subject) : Text :=
  "Parsed ".toList ++ Decimal.digits s.rules.length ++ " rule(s), ".toList ++
    Decimal.digits s.document.commentCount ++ " comment(s)".toList

end Subject

structure State where
  subject : Subject
  focus : Focused := .rules
  selected : Nat := 0
  rulesScroll : Nat := 0
  treeScroll : Nat := 0
  sourceScroll : Nat := 0
  quit : Bool := false
deriving DecidableEq, Repr

structure Heights where
  rules : Nat
  tree : Nat
  source : Nat
deriving DecidableEq, Repr

/-- The lines shown above the selected rule. -/
def contextLines : Nat := 2

namespace State

def rule? (x : State) : Option (Rule Span) := x.subject.rules[x.selected]?

def lines? (x : State) : Option (Nat × Nat) := x.subject.ranges[x.selected]?

/-- Select a rule, or the last one if there are not so many, and bring its
source into view. -/
def select (x : State) (i : Nat) : State :=
  if x.subject.rules.isEmpty then x
  else
    let selected := min i (x.subject.rules.length - 1)
    { x with
      selected
      treeScroll := 0
      sourceScroll := match x.subject.ranges[selected]? with
        | some (line, _) => line - (1 + contextLines)
        | none => x.sourceScroll }

def start (s : Subject) : State := select { subject := s } 0

def move (x : State) (rule offset : Nat → Nat) : State :=
  match x.focus with
  | .rules => x.select (rule x.selected)
  | .tree => { x with treeScroll := offset x.treeScroll }
  | .source => { x with sourceScroll := offset x.sourceScroll }

def press (x : State) : Key → State
  | .char 'q' | .char 'Q' | .escape => { x with quit := true }
  | .tab => { x with focus := x.focus.next }
  | .backTab => { x with focus := x.focus.previous }
  | .up => x.move Scroll.back Scroll.back
  | .down => x.move Scroll.forth Scroll.forth
  | .first => x.move (fun _ => 0) (fun _ => 0)
  | .last => x.move (fun _ => Scroll.maxOffset) (fun _ => Scroll.maxOffset)
  | _ => x

/-- Drawing brings every offset back to what its pane can show. -/
def settle (x : State) (h : Heights) : State :=
  { x with
    rulesScroll := Scroll.follow x.selected (Scroll.visible h.rules) x.rulesScroll
    treeScroll := treeOffset x.rule? h.tree x.treeScroll
    sourceScroll := Scroll.clamp x.subject.lines.length (Scroll.visible h.source) x.sourceScroll }

end State

end Ebnf.Explorer
