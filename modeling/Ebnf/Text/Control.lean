import Ebnf.Text.Basic

namespace Ebnf.Control

inductive Sequence
  | outside
  | escape
  | escapeParts
  | parameters
  | device
  | deviceParameters
  | deviceParts
  | command
  | string
deriving DecidableEq, Repr

/-- The byte that ends a control string. It can be a part of a longer character. -/
def holdsTerminator (c : Char) : Bool := (String.utf8EncodeChar c).contains 0x9c

namespace Sequence

def extend (s : Sequence) (c : Char) : Sequence :=
  match s with
  | .outside => .outside
  | .escape =>
      if c = '[' then .parameters
      else if c = ']' then .command
      else if c = 'P' then .device
      else if c = 'X' ∨ c = '^' ∨ c = '_' then .string
      else if ' ' ≤ c ∧ c ≤ '/' then .escapeParts
      else if '0' ≤ c ∧ c ≤ '~' then .outside
      else .escape
  | .escapeParts => if '0' ≤ c ∧ c ≤ '~' then .outside else .escapeParts
  | .parameters => if '@' ≤ c ∧ c ≤ '~' then .outside else .parameters
  | .device =>
      if ' ' ≤ c ∧ c ≤ '/' then .deviceParts
      else if '0' ≤ c ∧ c ≤ '?' then .deviceParameters
      else if '@' ≤ c ∧ c ≤ '~' then .string
      else .device
  | .deviceParameters =>
      if ' ' ≤ c ∧ c ≤ '/' then .deviceParts
      else if '<' ≤ c ∧ c ≤ '~' then .string
      else .deviceParameters
  | .deviceParts => if '0' ≤ c ∧ c ≤ '~' then .string else .deviceParts
  | .command => if c = '\x07' then .outside else .command
  | .string => if holdsTerminator c then .outside else .string

/-- An escape begins a new sequence everywhere, and two controls break one off. -/
def next (s : Sequence) (c : Char) : Sequence :=
  if c = '\x1b' then .escape else if c = '\x18' ∨ c = '\x1a' then .outside else s.extend c

def isInterruptible : Sequence → Bool
  | .outside | .escape | .escapeParts | .parameters => true
  | .device | .deviceParameters | .deviceParts | .command | .string => false

end Sequence

def isLayout (c : Char) : Bool := c = '\t' || c = '\n' || c = '\x0c' || c = '\r'

def isPlain (c : Char) : Bool := isLayout c || ' ' ≤ c && c ≠ '\x7f'

/-- The text without controls and control sequences. A break or a tab inside a
sequence holds it up: what follows is plain until the next control, where the
sequence goes on unless a character beyond ASCII stands between. -/
def strip (s : Sequence) (held : Bool) : Text → Text
  | [] => []
  | c :: t =>
      if (if s = .outside ∨ held then isPlain c else s.isInterruptible && isLayout c) then
        c :: strip (if c ≤ '\x7f' then s else .outside) true t
      else strip (s.next c) false t

def plain (t : Text) : Text := strip .outside false t

end Ebnf.Control
