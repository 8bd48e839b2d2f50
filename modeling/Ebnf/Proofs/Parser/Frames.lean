import Ebnf.Parser.Reading
import Ebnf.Proofs.Grammar.Binding

namespace Ebnf

namespace Frame

def kinds : Frame → List Kind
  | .joined l c => l.yield ++ [.mark (.operator (.joining c))]
  | .counted n _ => [.integer n, .mark (.operator .counting)]
  | .inside b _ _ => [.mark (.opening b)]

def demand : Frame → Nat
  | .joined _ c => c.strength
  | .counted _ _ => Connective.exception.strength
  | .inside _ _ _ => 0

def strength : Frame → Nat
  | .joined _ c => c.strength
  | _ => Operator.counting.strength

def WellBound : Frame → Prop
  | .joined l c => c.strength ≤ l.strength ∧ l.WellBound
  | _ => True

def Below (k : Nat) (fs : List Frame) : Prop := ∀ f ∈ fs.head?, f.demand < k

/-- Every frame, once it has its operand, is an operand for the next one. -/
def Stacked : List Frame → Prop
  | [] => True
  | f :: fs => f.WellBound ∧ Below f.strength fs ∧ Stacked fs

def allKinds : List Frame → List Kind
  | [] => []
  | f :: fs => allKinds fs ++ f.kinds

theorem Below.mono {j k : Nat} {fs : List Frame} (h : Below j fs) (hjk : j ≤ k) : Below k fs :=
  fun f hf => Nat.lt_of_lt_of_le (h f hf) hjk

theorem below_cons {k : Nat} {f : Frame} {fs : List Frame} : Below k (f :: fs) ↔ f.demand < k := by
  simp [Below]

theorem below_four (fs : List Frame) : Below 4 fs := by
  intro f _
  cases f with
  | joined l c => exact Nat.lt_succ_of_le c.strength_le_three
  | _ => simp [demand, Connective.strength]

end Frame

namespace Expr

theorem yield_join (l : Expr Span) (c : Connective) (r : Expr Span) :
    (l.join c r).yield = l.yield ++ .mark (.operator (.joining c)) :: r.yield := rfl

end Expr

open Ebnf.Frame

namespace Reading

/-- Reducing keeps the tokens. What comes out is held at least as strongly as
the reduction asks for, and the frames that stay take less. -/
structure Reduced (k : Nat) (e : Expr Span) (fs : List Frame) (p : Expr Span × List Frame) : Prop where
  wellBound : p.1.WellBound
  strong : k ≤ p.1.strength
  below : Below k p.2
  stacked : Stacked p.2
  kinds : allKinds p.2 ++ p.1.yield = allKinds fs ++ e.yield

theorem reduce_reduced {k : Nat} {e : Expr Span} {fs : List Frame} (hk : 1 ≤ k) (he : e.WellBound)
    (hs : k ≤ e.strength) (hb : Below e.strength fs) (hf : Stacked fs) : Reduced k e fs (reduce k e fs) := by
  induction fs generalizing e with
  | nil => exact ⟨he, hs, by simp [reduce, Below], trivial, rfl⟩
  | cons f fs ih =>
      obtain ⟨hw, hn, hf'⟩ := hf
      rw [below_cons] at hb
      cases f with
      | joined l c =>
          rw [reduce]
          split
          · next hc =>
              have h := ih (e := l.join c e) ⟨hw.1, hb, hw.2, he⟩ hc hn hf'
              exact { h with kinds := h.kinds.trans (by simp [Expr.yield_join, allKinds, Frame.kinds]) }
          · next hc =>
              exact ⟨he, hs, below_cons.2 (Nat.lt_of_not_le hc), ⟨hw, hn, hf'⟩, rfl⟩
      | counted n span =>
          have h4 : e.strength = 4 := Nat.le_antisymm e.strength_le_four hb
          have h := ih (e := .counted n span e (span.hull e.place)) ⟨h4, he⟩
            (Nat.le_trans hs e.strength_le_four) hn hf'
          exact { h with kinds := h.kinds.trans (by simp [Expr.yield, allKinds, Frame.kinds]) }
      | inside b span opened =>
          exact ⟨he, hs, below_cons.2 hk, ⟨hw, hn, hf'⟩, rfl⟩

theorem reduce_zero (e : Expr Span) (fs : List Frame) : reduce 0 e fs = reduce 1 e fs := by
  induction fs generalizing e with
  | nil => rfl
  | cons f fs ih =>
      cases f with
      | joined l c => simp only [reduce, Nat.zero_le, c.one_le_strength, if_true, ih]
      | counted n span => exact ih _
      | inside => rfl

theorem reduce_eq_self {k : Nat} {e : Expr Span} {fs : List Frame} (hk : k ≤ 3) (hb : Below k fs) :
    reduce k e fs = (e, fs) := by
  cases fs with
  | nil => rfl
  | cons f fs =>
      rw [below_cons] at hb
      cases f with
      | joined l c => exact if_neg (Nat.not_le_of_lt hb)
      | counted n span => exact absurd hb (Nat.not_lt_of_le hk)
      | inside => rfl

theorem reduce_joined {k : Nat} {e l : Expr Span} {c : Connective} (fs : List Frame) (hk : k ≤ c.strength) :
    reduce k e (.joined l c :: fs) = reduce k (l.join c e) fs := by
  rw [reduce, if_pos hk]

end Reading

end Ebnf
