import Ebnf.Proofs.Grammar.Quotes
import Ebnf.Proofs.Token.Gist

namespace Ebnf

open Lexeme

def Kind.Legal (k : Kind) : Prop := ∃ l : Lexeme, l.Proper ∧ l.kind? = some k

def Atom.lexeme : Atom → Lexeme
  | .identifier name => .identifier name
  | .terminal text quote => .terminal text quote
  | .special text => .special text

namespace Atom

variable {a : Atom}

theorem kind?_lexeme (a : Atom) : a.lexeme.kind? = some a.kind := by cases a <;> rfl

theorem proper_lexeme (h : a.kind.Legal) : a.lexeme.Proper := by
  obtain ⟨l, hp, hk⟩ := h
  cases a <;> cases l <;> cases hk <;> exact hp

theorem quotable_of_legal (h : a.kind.Legal) : a.Quotable := by
  cases a with
  | terminal text quote => exact proper_lexeme h
  | _ => trivial

theorem proper_requote (style : Layout.QuoteStyle) (h : a.kind.Legal) : (a.requote style).lexeme.Proper := by
  cases a with
  | terminal text quote => exact (quotable_of_legal h).requote style
  | _ => exact proper_lexeme h

end Atom

theorem Kind.Legal.proper_digits {n : Nat} (h : (Kind.integer n).Legal) :
    (Lexeme.integer (Decimal.digits n)).Proper := by
  obtain ⟨l, hp, hk⟩ := h
  cases l with
  | integer ds =>
      cases hk
      refine ⟨Nat.toDigits_ne_nil, fun c hc => Nat.isDigit_of_mem_toDigits (by decide) (by decide) hc, ?_⟩
      rw [Decimal.value_digits]
      exact hp.2.2
  | _ => cases hk

end Ebnf
