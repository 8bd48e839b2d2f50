import Ebnf.Explorer.Style
import Ebnf.Token.Basic

namespace Ebnf.Explorer

def tabWidth : Nat := 4

/-- An identifier in front of an equals sign names a rule. -/
def kindStyle (namesRule : Bool) : Kind → Style
  | .identifier _ => if namesRule then (Style.coloured theme.ruleName).emphasized else .coloured theme.identifier
  | .terminal _ _ => .coloured theme.terminal
  | .special _ => .coloured theme.special
  | .integer _ => .coloured theme.number
  | .mark .equals | .mark .semicolon => .coloured theme.foreground
  | .mark _ => .coloured theme.operator
  | .eof => .plain

def triviaStyle : Trivia → Style
  | .gap _ => .plain
  | .comment _ _ => (Style.coloured theme.comment).slanted

def styledSpans : List Token → List (Span × Style)
  | [] => []
  | t :: ts =>
      t.trivia.map (fun v => (v.span, triviaStyle v)) ++
        (t.span, kindStyle (ts.head?.any (·.kind = .mark .equals)) t.kind) :: styledSpans ts

/-- Cut a text of `size` bytes along spans, from byte `cursor` on. `rest` begins
`lag` bytes in front of that byte, because a span can end inside a character.
A span that starts further to the left or ends behind the text is left out, and
text that no span covers is plain. -/
def cover (size cursor : Nat) : Text × Nat → List (Span × Style) → List Stretch
  | (rest, lag), [] => [⟨(rest.dropBytes? lag).getD [], .plain⟩]
  | (rest, lag), (span, style) :: spans =>
      if span.start < cursor || size < span.stop then cover size cursor (rest, lag) spans
      else
        let start := lag + (span.start - cursor)
        let stop := lag + (span.stop - cursor)
        ⟨Span.slice ⟨lag, start⟩ rest, .plain⟩ :: ⟨Span.slice ⟨start, stop⟩ rest, style⟩ ::
          cover size span.stop (rest.dropWithin stop) spans

/-- Put the lines of one stretch in front of the lines behind it. The last of
them and the first of those are one line, and empty pieces leave no trace. -/
def prependLines (style : Style) : List Text → List Line → List Line
  | [], rows => rows
  | [p], row :: rows => (if p.isEmpty then row else ⟨p, style⟩ :: row) :: rows
  | p :: ps, rows => (if p.isEmpty then [] else [⟨p, style⟩]) :: prependLines style ps rows

def sourceRows : List Stretch → List Line
  | [] => [[]]
  | s :: ss => prependLines s.style s.text.splitLines (sourceRows ss)

def expand : Nat → Text → Text
  | _, [] => []
  | column, c :: t =>
      if c = '\t' then
        let width := tabWidth - column % tabWidth
        Text.spaces width ++ expand (column + width) t
      else if c = '\r' then expand column t
      else c :: expand (column + 1) t

def expandRow : Nat → Line → Line
  | _, [] => []
  | column, s :: ss =>
      let text := expand column s.text
      ⟨text, s.style⟩ :: expandRow (column + text.length) ss

/-- The source as displayed, in the styles of its tokens. A break at the very
end opens no line. -/
def highlight (source : Text) (tokens : List Token) : List Line :=
  let rows := sourceRows (cover source.byteLength 0 (source, 0) (styledSpans tokens))
  let shown := if source.getLast? = some '\n' ∧ rows.getLast? = some [] then rows.dropLast else rows
  shown.map (expandRow 0)

end Ebnf.Explorer
