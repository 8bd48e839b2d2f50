import Ebnf.Grammar.Yield
import Mathlib.Data.List.Basic

namespace Ebnf

variable {α β : Type}

theorem Connective.one_le_strength (c : Connective) : 1 ≤ c.strength := by cases c <;> decide

theorem Connective.strength_le_three (c : Connective) : c.strength ≤ 3 := by cases c <;> decide

namespace Expr

/-- How strongly the root holds its operands. Leaves, bracket pairs and counts
are held as strongly as can be. -/
def strength : Expr α → Nat
  | .binary c _ _ _ => c.strength
  | .without _ _ => Connective.exception.strength
  | _ => Operator.counting.strength

/-- Operands are held at least as strongly as the operator in front of which
they stand, and more strongly than the one behind which they stand. -/
def WellBound : Expr α → Prop
  | .atom _ _ | .empty _ _ => True
  | .binary c l r _ => c.strength ≤ l.strength ∧ c.strength < r.strength ∧ l.WellBound ∧ r.WellBound
  | .without l _ => Connective.exception.strength ≤ l.strength ∧ l.WellBound
  | .counted _ _ e _ => e.strength = Operator.counting.strength ∧ e.WellBound
  | .group _ e _ => e.WellBound

instance decidableWellBound : (e : Expr α) → Decidable e.WellBound
  | .atom _ _ | .empty _ _ => isTrue trivial
  | .binary c l r _ =>
      have := decidableWellBound l
      have := decidableWellBound r
      inferInstanceAs (Decidable (c.strength ≤ l.strength ∧ c.strength < r.strength ∧ l.WellBound ∧ r.WellBound))
  | .without l _ =>
      have := decidableWellBound l
      inferInstanceAs (Decidable (Connective.exception.strength ≤ l.strength ∧ l.WellBound))
  | .counted _ _ e _ =>
      have := decidableWellBound e
      inferInstanceAs (Decidable (e.strength = Operator.counting.strength ∧ e.WellBound))
  | .group _ e _ => decidableWellBound e

theorem one_le_strength (e : Expr α) : 1 ≤ e.strength := by
  cases e with
  | binary c => exact c.one_le_strength
  | _ => simp [strength, Operator.strength, Connective.strength]

theorem strength_le_four (e : Expr α) : e.strength ≤ 4 := by
  cases e with
  | binary c => exact Nat.le_succ_of_le c.strength_le_three
  | _ => simp [strength, Operator.strength, Connective.strength]

theorem yield_starts (e : Expr α) : ∃ k ks, e.yield = k :: ks ∧ k.startsExpression = true := by
  induction e with
  | atom a => cases a <;> exact ⟨_, _, rfl, rfl⟩
  | binary c l r _ ihl _ =>
      obtain ⟨k, ks, h, hk⟩ := ihl
      exact ⟨k, _, by rw [yield, h, List.cons_append], hk⟩
  | without l _ ih =>
      obtain ⟨k, ks, h, hk⟩ := ih
      exact ⟨k, _, by rw [yield, h, List.cons_append], hk⟩
  | counted | group | empty => exact ⟨_, _, rfl, rfl⟩

theorem yield_ne_nil (e : Expr α) : e.yield ≠ [] := by
  obtain ⟨k, ks, h, -⟩ := e.yield_starts
  exact h ▸ List.cons_ne_nil k ks

theorem getLast?_yield_of_strength {e : Expr α} (hs : e.strength = Operator.counting.strength)
    (hw : e.WellBound) : e.yield.getLast? ≠ some (.mark (.operator (.joining .exception))) := by
  induction e with
  | atom a => cases a <;> simp [yield, Atom.kind]
  | binary c => exact absurd hs (Nat.ne_of_lt (Nat.lt_succ_of_le c.strength_le_three))
  | without => cases hs
  | counted n _ e _ ih =>
      have hlast := List.getLast?_append_of_ne_nil [.integer n, .mark (.operator .counting)] e.yield_ne_nil
      exact fun h => ih hw.1 hw.2 (hlast.symm.trans h)
  | group b e _ _ => simp [yield, List.getLast?_cons]
  | empty => simp [yield]

@[simp] theorem yield_map (f : α → β) (e : Expr α) : (e.map f).yield = e.yield := by
  induction e <;> simp_all [map, yield]

@[simp] theorem strength_map (f : α → β) (e : Expr α) : (e.map f).strength = e.strength := by
  cases e <;> rfl

@[simp] theorem wellBound_map (f : α → β) (e : Expr α) : (e.map f).WellBound ↔ e.WellBound := by
  induction e <;> simp_all [map, WellBound]

def bare (e : Expr α) : Expr Unit := e.map fun _ => ()

theorem yield_bare (e : Expr α) : e.bare.yield = e.yield := yield_map _ e

theorem wellBound_bare (e : Expr α) : e.bare.WellBound ↔ e.WellBound := wellBound_map _ e

theorem bare_map (f : α → β) (e : Expr α) : (e.map f).bare = e.bare := by
  induction e <;> simp_all [bare, map]

end Expr

namespace Rule

def WellBound (r : Rule α) : Prop := ∀ e ∈ r.body, e.WellBound

def bare (r : Rule α) : Rule Unit := r.map fun _ => ()

theorem yield_bare (r : Rule α) : r.bare.yield = r.yield := by
  cases h : r.body <;> simp [bare, map, yield, bodyYield, h]

theorem wellBound_bare (r : Rule α) : r.bare.WellBound ↔ r.WellBound := by
  cases h : r.body <;> simp [bare, map, WellBound, h]

theorem bare_map (f : α → β) (r : Rule α) : (r.map f).bare = r.bare := by
  cases h : r.body with
  | none => simp [bare, map, h]
  | some e =>
      have he := e.bare_map f
      simp only [Expr.bare] at he
      simp [bare, map, h, he]

theorem yield_length (r : Rule α) : r.yield.length = (bodyYield r.body).length + 3 := by
  simp [yield]

end Rule

namespace Grammar

def bare (g : Grammar α) : Grammar Unit := g.map fun _ => ()

theorem bare_map (f : α → β) (g : Grammar α) : (g.map f).bare = g.bare := by
  simp only [bare, map, List.map_map]
  congr 1
  exact List.map_congr_left fun r _ => r.bare_map f

theorem bare_rules (g : Grammar α) : g.bare.rules = g.rules.map Rule.bare := rfl

end Grammar

end Ebnf
