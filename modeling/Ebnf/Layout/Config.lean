import Ebnf.Token.Kind

namespace Ebnf.Layout

inductive Newline
  | unix
  | windows
deriving DecidableEq, Repr

def Newline.all : List Newline := [.unix, .windows]

def Newline.text : Newline → Text
  | .unix => ['\n']
  | .windows => ['\r', '\n']

inductive QuoteStyle
  | preserve
  | prefer (q : Quote)
deriving DecidableEq, Repr

/-- No terminal can hold its own quote, so the wanted quote gives way to the
other one where the text has it inside. -/
def QuoteStyle.choose (style : QuoteStyle) (text : Text) (quote : Quote) : Quote :=
  match style, quote with
  | .prefer .single, _ | .preserve, .single => if '\'' ∈ text then .double else .single
  | .prefer .double, _ | .preserve, .double => if '"' ∈ text then .single else .double

structure Config where
  lineWidth : Nat := 80
  newline : Newline := .unix
  quotes : QuoteStyle := .preserve
  align : Bool := true
  /-- A rule stays as it is when a comment in front of it has this text inside. -/
  ignore : Text := "ebnf-fmt-ignore".toList
deriving DecidableEq, Repr

end Ebnf.Layout
