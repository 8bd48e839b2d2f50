import Ebnf.Text.Basic

namespace Ebnf.Decimal

def digits (n : Nat) : Text := Nat.toDigits 10 n

def value (ds : Text) : Nat := Nat.ofDigitChars 10 ds 0

theorem value_digits (n : Nat) : value (digits n) = n := Nat.ofDigitChars_toDigits (by decide) (by decide)

end Ebnf.Decimal
