import Ebnf.Proofs.Grammar.Binding

namespace Ebnf

/-- A tree that can be malformed: any operator can stand between any operands,
any right operand can be absent, and an integer can stand anywhere. -/
inductive Shape
  | atom (a : Atom)
  | integer (value : Nat)
  | binary (o : Operator) (left right : Shape)
  | without (o : Operator) (left : Shape)
  | group (b : Bracket) (inner : Shape)
  | empty (b : Bracket)
deriving DecidableEq, Repr

variable {α : Type}

namespace Shape

def yield : Shape → List Kind
  | .atom a => [a.kind]
  | .integer n => [.integer n]
  | .binary o l r => l.yield ++ .mark (.operator o) :: r.yield
  | .without o l => l.yield ++ [.mark (.operator o)]
  | .group b e => .mark (.opening b) :: e.yield ++ [.mark (.closing b)]
  | .empty b => [.mark (.opening b), .mark (.closing b)]

def strength : Shape → Nat
  | .binary o _ _ | .without o _ => o.strength
  | _ => Operator.counting.strength

/-- A count is an integer in front of an operand, and integers stand nowhere
else. Only an exception can lack its right operand. The other operators
associate to the left. -/
def WellFormed : Shape → Prop
  | .atom _ | .empty _ => True
  | .integer _ => False
  | .binary .counting (.integer _) r => r.strength = Operator.counting.strength ∧ r.WellFormed
  | .binary .counting _ _ => False
  | .binary (.joining c) l r => c.strength ≤ l.strength ∧ c.strength < r.strength ∧ l.WellFormed ∧ r.WellFormed
  | .without o l => o = .joining .exception ∧ o.strength ≤ l.strength ∧ l.WellFormed
  | .group _ e => e.WellFormed

theorem yield_ne_nil (s : Shape) : s.yield ≠ [] := by
  cases s <;> simp [yield]

theorem eof_notMem_yield (s : Shape) : .eof ∉ s.yield := by
  induction s with
  | atom a => cases a <;> simp [yield, Atom.kind]
  | _ => simp_all [yield]

end Shape

def Expr.shape : Expr α → Shape
  | .atom a _ => .atom a
  | .binary c l r _ => .binary (.joining c) l.shape r.shape
  | .without l _ => .without (.joining .exception) l.shape
  | .counted n _ e _ => .binary .counting (.integer n) e.shape
  | .group b e _ => .group b e.shape
  | .empty b _ => .empty b

namespace Expr

theorem yield_shape (e : Expr α) : e.shape.yield = e.yield := by
  induction e <;> simp_all [shape, yield, Shape.yield]

theorem strength_shape (e : Expr α) : e.shape.strength = e.strength := by
  cases e <;> rfl

theorem wellFormed_shape (e : Expr α) : e.shape.WellFormed ↔ e.WellBound := by
  induction e <;> simp_all [shape, WellBound, Shape.WellFormed, strength_shape, Operator.strength]

theorem shape_bare (e : Expr α) : e.bare.shape = e.shape := by
  induction e <;> simp_all [bare, map, shape]

end Expr

theorem Shape.WellFormed.exists_expr {s : Shape} (h : s.WellFormed) : ∃ e : Expr Unit, e.shape = s := by
  induction s with
  | atom a => exact ⟨.atom a (), rfl⟩
  | integer n => exact h.elim
  | binary o l r ihl ihr =>
      cases o with
      | joining c =>
          obtain ⟨l', rfl⟩ := ihl h.2.2.1
          obtain ⟨r', rfl⟩ := ihr h.2.2.2
          exact ⟨.binary c l' r' (), rfl⟩
      | counting =>
          cases l with
          | integer n =>
              obtain ⟨r', rfl⟩ := ihr h.2
              exact ⟨.counted n () r' (), rfl⟩
          | _ => exact h.elim
  | without o l ih =>
      obtain ⟨rfl, -, hl⟩ := h
      obtain ⟨l', rfl⟩ := ih hl
      exact ⟨.without l' (), rfl⟩
  | group b e ih =>
      obtain ⟨e', rfl⟩ := ih h
      exact ⟨.group b e' (), rfl⟩
  | empty b => exact ⟨.empty b (), rfl⟩

structure RuleShape where
  name : Text
  body : Option Shape
deriving DecidableEq, Repr

def RuleShape.yield (r : RuleShape) : List Kind :=
  .identifier r.name :: .mark .equals :: r.body.elim [] Shape.yield ++ [.mark .semicolon]

def RuleShape.WellFormed (r : RuleShape) : Prop := ∀ s ∈ r.body, s.WellFormed

def Rule.shape (r : Rule α) : RuleShape := ⟨r.name, r.body.map Expr.shape⟩

def Grammar.shape (g : Grammar α) : List RuleShape := g.rules.map Rule.shape

namespace Rule

theorem yield_shape (r : Rule α) : r.shape.yield = r.yield := by
  cases h : r.body <;> simp [shape, RuleShape.yield, yield, bodyYield, Expr.yield_shape, h]

theorem wellFormed_shape (r : Rule α) : r.shape.WellFormed ↔ r.WellBound := by
  cases h : r.body <;> simp [shape, RuleShape.WellFormed, WellBound, Expr.wellFormed_shape, h]

theorem shape_bare (r : Rule α) : r.bare.shape = r.shape := by
  cases h : r.body <;> simp [shape, bare, map, ← Expr.bare.eq_def, Expr.shape_bare, h]

end Rule

theorem RuleShape.WellFormed.exists_rule {s : RuleShape} (h : s.WellFormed) : ∃ r : Rule Unit, r.shape = s := by
  obtain ⟨name, body⟩ := s
  cases body with
  | none => exact ⟨⟨name, (), none, ()⟩, rfl⟩
  | some s =>
      obtain ⟨e, rfl⟩ := (h s rfl).exists_expr
      exact ⟨⟨name, (), some e, ()⟩, rfl⟩

theorem exists_rules {ss : List RuleShape} (h : ∀ s ∈ ss, s.WellFormed) :
    ∃ rs : List (Rule Unit), (∀ r ∈ rs, r.WellBound) ∧ rs.map Rule.shape = ss := by
  induction ss with
  | nil => exact ⟨[], by simp, rfl⟩
  | cons s ss ih =>
      obtain ⟨rs, hw, rfl⟩ := ih fun s' hs' => h s' (List.mem_cons_of_mem _ hs')
      obtain ⟨r, rfl⟩ := (h s List.mem_cons_self).exists_rule
      exact ⟨r :: rs, List.forall_mem_cons.2 ⟨r.wellFormed_shape.1 (h _ List.mem_cons_self), hw⟩, rfl⟩

end Ebnf
