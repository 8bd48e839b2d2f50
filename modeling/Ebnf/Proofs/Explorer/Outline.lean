import Ebnf.Explorer.Outline
import Ebnf.Proofs.Explorer.Scroll
import Ebnf.Proofs.Grammar.Binding

namespace Ebnf.Explorer

variable {α : Type}

def exprRows? (depth : Nat) : Expr α → Option (List Row)
  | .atom a _ => some [atomRow depth a]
  | .binary c l r _ => do
      let below ← add? depth 1
      let left ← exprRows? below l
      let right ← exprRows? below r
      return operatorRow depth (.joining c) :: left ++ right
  | .without l _ => do
      let below ← add? depth 1
      let left ← exprRows? below l
      return operatorRow depth (.joining .exception) :: left ++ [⟨below, "(nothing excluded)".toList, .empty⟩]
  | .counted n _ e _ => do
      let below ← add? depth 1
      let rows ← exprRows? below e
      return operatorRow depth .counting :: ⟨below, "count ".toList ++ Decimal.digits n, .integer⟩ :: rows
  | .group b e _ => do
      let below ← add? depth 1
      let rows ← exprRows? below e
      return groupRow depth b :: rows
  | .empty b _ => do
      let below ← add? depth 1
      return [groupRow depth b, ⟨below, "(empty)".toList, .empty⟩]

def outline? (r : Rule α) : Option (List Row) := do
  let rows ← r.body.elim (some [⟨1, "(empty definition)".toList, .empty⟩]) (exprRows? 1)
  return ⟨0, "rule ".toList ++ r.name, .rule⟩ :: rows

def treeOffset? (rule : Option (Rule α)) (height offset : Nat) : Option Nat :=
  rule.elim (some offset) fun r => do
    let rows ← outline? r
    Scroll.clamp? rows.length (Scroll.visible height) offset

theorem exprRows?_eq {depth : Nat} {e : Expr α} (h : depth + e.yield.length < UInt64.size) :
    exprRows? depth e = some (exprRows depth e) := by
  induction e generalizing depth with
  | atom => rfl
  | binary c l r _ ihl ihr =>
      simp only [Expr.yield, List.length_append, List.length_cons] at h
      have hbelow : add? depth 1 = some (depth + 1) := add?_eq (by omega)
      have hl : exprRows? (depth + 1) l = some (exprRows (depth + 1) l) := ihl (by omega)
      have hr : exprRows? (depth + 1) r = some (exprRows (depth + 1) r) := ihr (by omega)
      simp [exprRows?, exprRows, hbelow, hl, hr]
  | without l _ ih =>
      simp only [Expr.yield, List.length_append, List.length_singleton] at h
      have hbelow : add? depth 1 = some (depth + 1) := add?_eq (by omega)
      have hl : exprRows? (depth + 1) l = some (exprRows (depth + 1) l) := ih (by omega)
      simp [exprRows?, exprRows, hbelow, hl]
  | counted n _ e _ ih | group b e _ ih =>
      simp only [Expr.yield, List.length_cons, List.length_append] at h
      have hbelow : add? depth 1 = some (depth + 1) := add?_eq (by omega)
      have he : exprRows? (depth + 1) e = some (exprRows (depth + 1) e) := ih (by omega)
      simp [exprRows?, exprRows, hbelow, he]
  | empty b =>
      simp only [Expr.yield, List.length_cons] at h
      have hbelow : add? depth 1 = some (depth + 1) := add?_eq (by omega)
      simp [exprRows?, exprRows, hbelow]

theorem outline?_eq {r : Rule α} (h : 1 + (bodyYield r.body).length < UInt64.size) :
    outline? r = some (outline r) := by
  cases hb : r.body with
  | none => simp [outline?, outline, hb]
  | some e =>
      rw [hb] at h
      have he : exprRows? 1 e = some (exprRows 1 e) := exprRows?_eq h
      simp [outline?, outline, hb, he]

theorem treeOffset?_eq {rule : Option (Rule α)} {height offset : Nat}
    (h : ∀ r ∈ rule, 1 + (bodyYield r.body).length < UInt64.size) :
    treeOffset? rule height offset = some (treeOffset rule height offset) := by
  cases rule with
  | none => rfl
  | some r => simp [treeOffset?, treeOffset, outline?_eq (h r rfl), Scroll.clamp?_eq]

end Ebnf.Explorer
