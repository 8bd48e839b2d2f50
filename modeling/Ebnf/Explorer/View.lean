import Ebnf.Explorer.Pane
import Ebnf.Explorer.State

namespace Ebnf.Explorer

structure Areas where
  rules : Rect
  tree : Rect
  source : Rect
  status : Rect
deriving DecidableEq, Repr

/-- The status bar takes the last row and the rule list a quarter of the
width. The tree lies above the source in what is left. -/
def areas (width height : Nat) : Areas :=
  let rows := height - 1
  let left := percent 25 width
  let top := percent 50 rows
  ⟨⟨0, 0, left, rows⟩, ⟨left, 0, width - left, top⟩, ⟨left, top, width - left, rows - top⟩,
    ⟨0, rows, width, min height 1⟩⟩

def Areas.heights (a : Areas) : Heights := ⟨a.rules.height, a.tree.height, a.source.height⟩

namespace State

def paint (x : State) (width height : Nat) : Screen :=
  let a := areas width height
  let s := drawRules (.blank width height) a.rules x.subject.rules x.selected (x.focus = .rules) x.rulesScroll
  let s := drawTree s a.tree x.rule? (x.focus = .tree) x.treeScroll
  let s := drawSource s a.source x.subject.lines x.lines? (x.focus = .source) x.sourceScroll
  drawStatus s a.status x.subject.fileName x.subject.message x.selected x.subject.rules.length

def draw (x : State) (width height : Nat) : Screen × State :=
  let x := x.settle (areas width height).heights
  (x.paint width height, x)

end State

end Ebnf.Explorer
