namespace Ebnf

abbrev Text := List Char

namespace Text

def byteLength : Text → Nat
  | [] => 0
  | c :: t => c.utf8Size + byteLength t

/-- What is left after the first `n` bytes. There is an answer only where a
character of the text, or its end, starts at that byte. -/
def dropBytes? : Text → Nat → Option Text
  | t, 0 => some t
  | [], _ + 1 => none
  | c :: t, n + 1 => if c.utf8Size ≤ n + 1 then dropBytes? t (n + 1 - c.utf8Size) else none

def takeBytes? : Text → Nat → Option Text
  | _, 0 => some []
  | [], _ + 1 => none
  | c :: t, n + 1 =>
      if c.utf8Size ≤ n + 1 then (takeBytes? t (n + 1 - c.utf8Size)).map (c :: ·) else none

/-- Leave out the characters that end within the first `n` bytes. With the rest
comes how many of these bytes it still begins with. -/
def dropWithin : Text → Nat → Text × Nat
  | [], n => ([], n)
  | c :: t, n => if c.utf8Size ≤ n then dropWithin t (n - c.utf8Size) else (c :: t, n)

def slice? (t : Text) (start stop : Nat) : Option Text :=
  if start ≤ stop then (t.dropBytes? start).bind (takeBytes? · (stop - start)) else none

def breaksBefore : Text → Nat → Nat
  | [], _ => 0
  | _ :: _, 0 => 0
  | c :: t, n + 1 => (if c = '\n' then 1 else 0) + breaksBefore t (n + 1 - c.utf8Size)

def occursIn (needle : Text) : Text → Bool
  | [] => needle.isEmpty
  | c :: t => needle.isPrefixOf (c :: t) || occursIn needle t

def splitLines : Text → List Text
  | [] => [[]]
  | c :: t =>
      if c = '\n' then [] :: splitLines t
      else match splitLines t with
        | l :: ls => (c :: l) :: ls
        | [] => [[c]]

/-- The lines a reader counts: a break ends a line and takes one carriage
return in front of it along, and text after the last break is a line too. -/
def lines : Text → List Text
  | [] => []
  | '\n' :: t => [] :: lines t
  | '\r' :: '\n' :: t => [] :: lines t
  | [c] => [[c]]
  | c :: d :: t => match lines (d :: t) with
      | l :: ls => (c :: l) :: ls
      | [] => [[c]]

def unixBreaks : Text → Text
  | [] => []
  | '\r' :: '\n' :: t => '\n' :: unixBreaks t
  | c :: t => c :: unixBreaks t

def replaceBreaks (newline t : Text) : Text := t.flatMap fun c => if c = '\n' then newline else [c]

def spaces (n : Nat) : Text := List.replicate n ' '

/-- A shorter text is filled up with spaces, however large the width is. -/
def padRight (width : Nat) (t : Text) : Text := t ++ spaces (width - t.length)

def padLeft (width : Nat) (t : Text) : Text := spaces (width - t.length) ++ t

end Text

end Ebnf
