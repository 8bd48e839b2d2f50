namespace Ebnf.Explorer.Scroll

/-- Offsets are words of 64 bits. The largest one stands for the end of a list
of any length, until drawing brings it back. -/
def maxOffset : Nat := UInt64.size - 1

def back (offset : Nat) : Nat := offset - 1

def forth (offset : Nat) : Nat := min (offset + 1) maxOffset

def visible (height : Nat) : Nat := max (height - 2) 1

/-- The nearest offset at which the selected row shows. -/
def follow (selected rows offset : Nat) : Nat :=
  if selected < offset then selected
  else if offset + rows ≤ selected then selected + 1 - rows
  else offset

/-- The nearest offset that leaves no row of the last page empty. -/
def clamp (total rows offset : Nat) : Nat := if rows < total then min offset (total - rows) else 0

end Ebnf.Explorer.Scroll
