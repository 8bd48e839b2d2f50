import Ebnf.Explorer.Style

namespace Ebnf.Explorer

structure Cell where
  symbol : Char := ' '
  style : Style := .plain
deriving DecidableEq, Repr, Inhabited

structure Rect where
  x : Nat
  y : Nat
  width : Nat
  height : Nat
deriving DecidableEq, Repr

def Rect.inner (r : Rect) : Rect := ⟨r.x + 1, r.y + 1, r.width - 2, r.height - 2⟩

def wideRanges : List (Nat × Nat) :=
  [(0x1100, 0x115f), (0x2e80, 0x303e), (0x3041, 0x4dbf), (0x4e00, 0xa4cf), (0xac00, 0xd7a3), (0xf900, 0xfaff),
    (0xfe30, 0xfe6f), (0xff00, 0xff60), (0xffe0, 0xffe6), (0x1f300, 0x1f64f), (0x1f900, 0x1f9ff),
    (0x20000, 0x3fffd)]

def columns (c : Char) : Nat := if wideRanges.any fun r => r.1 ≤ c.toNat && c.toNat ≤ r.2 then 2 else 1

inductive Alignment
  | left
  | right
deriving DecidableEq, Repr

structure Glyph where
  column : Nat
  symbol : Char
  style : Style
deriving DecidableEq, Repr

/-- The beginning of a text that fits into `width` columns, each character at
its column. One that is wider than all of them is passed over. -/
def fit (width : Nat) : Nat → List (Char × Style) → List Glyph
  | _, [] => []
  | column, (c, style) :: cs =>
      if width < columns c then fit width column cs
      else if width < column + columns c then []
      else ⟨column, c, style⟩ :: fit width (column + columns c) cs

abbrev Screen := Array (Array Cell)

namespace Screen

def blank (width height : Nat) : Screen := Array.replicate height (Array.replicate width {})

def modify (s : Screen) (x y : Nat) (f : Cell → Cell) : Screen := Array.modify s y (·.modify x f)

def put (s : Screen) (x y : Nat) (c : Char) (style : Style) : Screen :=
  s.modify x y fun cell => ⟨c, cell.style.patch style⟩

def tint (s : Screen) (r : Rect) (style : Style) : Screen :=
  (List.range r.height).foldl (fun s j => (List.range r.width).foldl
    (fun s i => s.modify (r.x + i) (r.y + j) fun cell => ⟨cell.symbol, cell.style.patch style⟩) s) s

def putGlyph (x y : Nat) (s : Screen) (p : Glyph) : Screen :=
  let s := s.put (x + p.column) y p.symbol p.style
  if columns p.symbol = 2 then s.modify (x + p.column + 1) y fun _ => {} else s

def writeLine (s : Screen) (r : Rect) (alignment : Alignment) (line : Line) : Screen :=
  if r.height = 0 then s
  else
    let glyphs := fit r.width 0 (line.flatMap fun t => t.text.map (·, t.style))
    let used := glyphs.foldr (fun p n => columns p.symbol + n) 0
    let offset := match alignment with
      | .left => 0
      | .right => r.width - used
    glyphs.foldl (putGlyph (r.x + offset) r.y) s

def writeLines (s : Screen) (r : Rect) (lines : List Line) : Screen :=
  (lines.take r.height).zipIdx.foldl (fun s p => s.writeLine ⟨r.x, r.y + p.2, r.width, 1⟩ .left p.1) s

/-- Where two sides meet, the corner wins, and of several corners in one cell
the one further to the top, then to the left. -/
def drawBorder (s : Screen) (r : Rect) (style : Style) : Screen :=
  if r.width = 0 || r.height = 0 then s
  else
    let right := r.x + r.width - 1
    let bottom := r.y + r.height - 1
    let down (x : Nat) (s : Screen) := (List.range r.height).foldl (fun s j => s.put x (r.y + j) '│' style) s
    let across (y : Nat) (s : Screen) := (List.range r.width).foldl (fun s i => s.put (r.x + i) y '─' style) s
    let sides := s |> down r.x |> across r.y |> down right |> across bottom
    (((sides.put right bottom '┘' style).put right r.y '┐' style).put r.x bottom '└' style).put r.x r.y '┌' style

def drawTitle (s : Screen) (r : Rect) (title : Text) : Screen :=
  s.writeLine ⟨r.x + 1, r.y, r.width - 2, r.height⟩ .left [⟨title, .plain⟩]

end Screen

end Ebnf.Explorer
