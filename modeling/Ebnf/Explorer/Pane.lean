import Ebnf.Explorer.Outline
import Ebnf.Explorer.Screen
import Ebnf.Explorer.Scroll
import Ebnf.Source.Span
import Ebnf.Text.Decimal

namespace Ebnf.Explorer

def borderStyle (focused : Bool) : Style :=
  if focused then (Style.coloured theme.borderFocused).emphasized else .coloured theme.borderNormal

def drawPane (s : Screen) (r : Rect) (title : Text) (focused : Bool) (offset : Nat) (lines : List Line) : Screen :=
  ((s.drawBorder r (borderStyle focused)).drawTitle r title).writeLines r.inner
    ((lines.drop offset).take (Scroll.visible r.height))

/-! The rule list. -/

def ruleLine (selected : Bool) (r : Rule Span) : Line :=
  let style :=
    if selected then ((Style.coloured theme.ruleName).on theme.currentLine).emphasized
    else .coloured theme.foreground
  [⟨if selected then "▶ ".toList else "  ".toList, style⟩, ⟨r.name, style⟩] ++
    if r.body.isNone then [⟨" (empty)".toList, (Style.coloured theme.comment).slanted⟩] else []

def rulesTitle (rules : List (Rule Span)) : Text := " Rules (".toList ++ Decimal.digits rules.length ++ ") ".toList

def drawRules (s : Screen) (r : Rect) (rules : List (Rule Span)) (selected : Nat) (focused : Bool)
    (offset : Nat) : Screen :=
  drawPane s r (rulesTitle rules) focused offset (rules.zipIdx.map fun p => ruleLine (p.2 = selected) p.1)

/-! The tree of one rule. -/

def treeTitle : Text := " Syntax Tree ".toList

def drawTree (s : Screen) (r : Rect) (rule : Option (Rule Span)) (focused : Bool) (offset : Nat) : Screen :=
  match rule with
  | some rule => drawPane s r treeTitle focused offset ((outline rule).map Row.line)
  | none =>
      drawPane (s.tint r (.coloured theme.comment)) r treeTitle focused 0
        [[⟨"(no rule selected)".toList, .plain⟩]]

/-! The source with line numbers. -/

/-- Lines are counted from one, and `chosen` is a range with both ends. -/
def numberedLine (chosen : Option (Nat × Nat)) (number : Nat) (line : Line) : Line :=
  let label := (Decimal.digits number).padLeft 4 ++ [' ']
  if chosen.any fun c => c.1 ≤ number && number ≤ c.2 then
    ⟨'▶' :: label, (Style.coloured theme.secondary).emphasized⟩ ::
      line.map fun t => { t with style := t.style.on theme.currentLine }
  else ⟨' ' :: label, .coloured theme.comment⟩ :: line

def sourceTitle : Text := " Source ".toList

def drawSource (s : Screen) (r : Rect) (lines : List Line) (chosen : Option (Nat × Nat)) (focused : Bool)
    (offset : Nat) : Screen :=
  drawPane s r sourceTitle focused offset (lines.zipIdx.map fun p => numberedLine chosen (p.2 + 1) p.1)

/-! The status bar. -/

def percent (p n : Nat) : Nat := (n * p + 50) / 100

def barStyle : Style := { background := some theme.currentLine }

def barText (c : Colour) : Style := (Style.coloured c).on theme.currentLine

def ruleCount (selected total : Nat) : Text :=
  if total = 0 then " Rule 0/0 ".toList
  else " Rule ".toList ++ Decimal.digits (selected + 1) ++ '/' :: Decimal.digits total ++ [' ']

def statusLine (fileName message : Text) (selected total : Nat) : Line :=
  [⟨ruleCount selected total, ((Style.coloured .black).on theme.primary).emphasized⟩,
    ⟨" | ".toList, barText theme.comment⟩, ⟨fileName, barText theme.secondary⟩,
    ⟨' ' :: message ++ [' '], barText theme.foreground⟩]

def hint (keys does : String) : Line :=
  [⟨keys.toList, (Style.coloured .black).on theme.comment⟩, ⟨does.toList, barText theme.foreground⟩]

def hintGap : Line := [⟨['│'], barText theme.comment⟩, ⟨[' '], barText theme.foreground⟩]

def hintLine : Line :=
  hint " ↑/↓ " " move " ++ hintGap ++ hint " ⇥ " " pane " ++ hintGap ++
    hint " Home/End " " first/last " ++ hintGap ++ hint "q" " quit "

def drawStatus (s : Screen) (r : Rect) (fileName message : Text) (selected total : Nat) : Screen :=
  let half := percent 50 r.width
  let left : Rect := { r with width := half }
  let right : Rect := ⟨r.x + half, r.y, r.width - half, r.height⟩
  let s := (s.tint left barStyle).writeLine left .left (statusLine fileName message selected total)
  (s.tint right barStyle).writeLine right .right hintLine

end Ebnf.Explorer
