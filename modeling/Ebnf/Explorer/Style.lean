import Ebnf.Text.Basic

namespace Ebnf.Explorer

inductive Colour
  | black
  | rgb (r g b : UInt8)
deriving DecidableEq, Repr

/-- Without a colour, what lies beneath shows. -/
structure Style where
  foreground : Option Colour := none
  background : Option Colour := none
  bold : Bool := false
  italic : Bool := false
deriving DecidableEq, Repr

namespace Style

def plain : Style := {}

def coloured (c : Colour) : Style := { foreground := some c }

def on (s : Style) (c : Colour) : Style := { s with background := some c }

def emphasized (s : Style) : Style := { s with bold := true }

def slanted (s : Style) : Style := { s with italic := true }

def patch (s top : Style) : Style :=
  ⟨top.foreground <|> s.foreground, top.background <|> s.background, s.bold || top.bold, s.italic || top.italic⟩

end Style

structure Stretch where
  text : Text
  style : Style
deriving DecidableEq, Repr

abbrev Line := List Stretch

structure Theme where
  foreground : Colour
  primary : Colour
  secondary : Colour
  comment : Colour
  identifier : Colour
  terminal : Colour
  special : Colour
  number : Colour
  operator : Colour
  borderFocused : Colour
  borderNormal : Colour
  currentLine : Colour
  ruleName : Colour
deriving DecidableEq, Repr

def theme : Theme where
  foreground := .rgb 205 214 244
  primary := .rgb 137 180 250
  secondary := .rgb 250 179 135
  comment := .rgb 108 112 134
  identifier := .rgb 148 226 213
  terminal := .rgb 166 227 161
  special := .rgb 245 194 231
  number := .rgb 250 179 135
  operator := .rgb 137 180 250
  borderFocused := .rgb 249 226 175
  borderNormal := .rgb 108 112 134
  currentLine := .rgb 50 50 70
  ruleName := .rgb 249 226 175

end Ebnf.Explorer
