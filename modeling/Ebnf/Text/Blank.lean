import Ebnf.Text.Basic

namespace Ebnf.Blank

/-- The characters with the White_Space property. -/
def ranges : List (Nat × Nat) :=
  [(0x9, 0xd), (0x20, 0x20), (0x85, 0x85), (0xa0, 0xa0), (0x1680, 0x1680), (0x2000, 0x200a),
    (0x2028, 0x2029), (0x202f, 0x202f), (0x205f, 0x205f), (0x3000, 0x3000)]

def isBlank (c : Char) : Bool := ranges.any fun r => r.1 ≤ c.toNat && c.toNat ≤ r.2

def trimLeft (t : Text) : Text := t.dropWhile isBlank

def trim (t : Text) : Text := (trimLeft (trimLeft t).reverse).reverse

end Ebnf.Blank
