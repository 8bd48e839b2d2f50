import Ebnf.Explorer.Outline
import Ebnf.Proofs.Document.Rendering

namespace Ebnf.Explorer

variable {α β : Type}

def Role.arity : Role → Nat
  | .operator => 2
  | .rule | .group => 1
  | .identifier | .terminal | .special | .integer | .empty => 0

/-- Of the rows behind a row, those one level deeper, up to the first one that
is not deeper at all. -/
def Row.children (row : Row) (behind : List Row) : List Row :=
  (behind.takeWhile (row.depth < ·.depth)).filter (·.depth = row.depth + 1)

/-- What can stand behind a row: nothing more than one level deeper, and as many
children as its role has parts. -/
structure Row.Leads (row : Row) (behind : List Row) : Prop where
  next : ∀ next ∈ behind.head?, next.depth ≤ row.depth + 1
  children : (row.children behind).length = row.role.arity

/-- Rows of one tree, whose root is at this depth. -/
inductive Subtree : Nat → List Row → Prop
  | node (row : Row) (parts : List (List Row)) (harity : row.role.arity = parts.length)
      (hparts : ∀ part ∈ parts, Subtree (row.depth + 1) part) : Subtree row.depth (row :: parts.flatten)

namespace Subtree

variable {depth : Nat} {rows part left right tail behind : List Row} {parts : List (List Row)} {row : Row}

theorem leaf (hd : row.depth = depth) (ha : row.role.arity = 0) : Subtree depth [row] := by
  obtain rfl := hd
  exact .node row [] ha (by simp)

theorem unary (hd : row.depth = depth) (ha : row.role.arity = 1) (hpart : Subtree (depth + 1) part) :
    Subtree depth (row :: part) := by
  obtain rfl := hd
  simpa using Subtree.node row [part] ha (by simpa using hpart)

theorem binary (hd : row.depth = depth) (ha : row.role.arity = 2) (hleft : Subtree (depth + 1) left)
    (hright : Subtree (depth + 1) right) : Subtree depth (row :: (left ++ right)) := by
  obtain rfl := hd
  simpa using Subtree.node row [left, right] ha (by simpa using ⟨hleft, hright⟩)

theorem le_depth (h : Subtree depth rows) : ∀ row ∈ rows, depth ≤ row.depth := by
  induction h with
  | node root parts _ _ ih =>
      refine List.forall_mem_cons.2 ⟨Nat.le_refl _, fun row hrow => ?_⟩
      obtain ⟨part, hpart, hrow⟩ := List.mem_flatten.1 hrow
      exact Nat.le_of_succ_le (ih part hpart row hrow)

theorem deeper_flatten (h : ∀ part ∈ parts, Subtree (depth + 1) part) : ∀ row ∈ parts.flatten, depth < row.depth := by
  intro row hrow
  obtain ⟨part, hpart, hrow⟩ := List.mem_flatten.1 hrow
  exact (h part hpart).le_depth row hrow

theorem depth_head (h : Subtree depth rows) : ∀ row ∈ (rows ++ tail).head?, row.depth = depth := by
  cases h with
  | node root parts =>
      rintro row ⟨⟩
      rfl

theorem filter_depth (h : Subtree depth rows) : (rows.filter (·.depth = depth)).length = 1 := by
  cases h with
  | node root parts _ hparts =>
      have hdeeper : parts.flatten.filter (·.depth = root.depth) = [] := by
        rw [List.filter_eq_nil_iff]
        intro row hrow he
        exact Nat.ne_of_gt (deeper_flatten hparts row hrow) (of_decide_eq_true he)
      rw [List.filter_cons_of_pos (by simp), hdeeper]
      rfl

theorem filter_depth_flatten (h : ∀ part ∈ parts, Subtree depth part) :
    (parts.flatten.filter (·.depth = depth)).length = parts.length := by
  induction parts with
  | nil => rfl
  | cons part parts ih =>
      obtain ⟨hpart, hparts⟩ := List.forall_mem_cons.1 h
      rw [List.flatten_cons, List.filter_append, List.length_append, hpart.filter_depth, ih hparts, List.length_cons,
        Nat.add_comm]

theorem head_flatten (h : ∀ part ∈ parts, Subtree (depth + 1) part) (ht : ∀ row ∈ tail.head?, row.depth ≤ depth) :
    ∀ row ∈ (parts.flatten ++ tail).head?, row.depth ≤ depth + 1 := by
  intro row hrow
  cases parts with
  | nil => exact Nat.le_succ_of_le (ht row hrow)
  | cons part parts =>
      rw [List.flatten_cons, List.append_assoc] at hrow
      exact Nat.le_of_eq ((h part List.mem_cons_self).depth_head row hrow)

theorem leads_root (h : ∀ part ∈ parts, Subtree (row.depth + 1) part) (ha : row.role.arity = parts.length)
    (ht : ∀ next ∈ tail.head?, next.depth ≤ row.depth) : row.Leads (parts.flatten ++ tail) := by
  have hdeeper : ∀ next ∈ parts.flatten, decide (row.depth < next.depth) = true :=
    fun next hnext => decide_eq_true (deeper_flatten h next hnext)
  have hend : tail.takeWhile (row.depth < ·.depth) = [] := by
    cases tail with
    | nil => rfl
    | cons next tail =>
        have hle := ht next rfl
        exact List.takeWhile_cons_of_neg (by simpa using hle)
  refine ⟨head_flatten h ht, ?_⟩
  rw [Row.children, List.takeWhile_append_of_pos hdeeper, hend, List.append_nil, filter_depth_flatten h, ha]

theorem leads_flatten (hparts : ∀ part ∈ parts, Subtree (depth + 1) part)
    (hleads : ∀ part ∈ parts, ∀ tail : List Row, (∀ row ∈ tail.head?, row.depth ≤ depth + 1) →
      row :: behind <:+ part ++ tail → row :: behind <:+ tail ∨ row.Leads behind)
    (ht : ∀ row ∈ tail.head?, row.depth ≤ depth) (hs : row :: behind <:+ parts.flatten ++ tail) :
    row :: behind <:+ tail ∨ row.Leads behind := by
  induction parts with
  | nil => exact .inl hs
  | cons part parts ih =>
      obtain ⟨-, hparts⟩ := List.forall_mem_cons.1 hparts
      obtain ⟨hfirst, hleads⟩ := List.forall_mem_cons.1 hleads
      rw [List.flatten_cons, List.append_assoc] at hs
      rcases hfirst _ (head_flatten hparts ht) hs with hs | hl
      · exact ih hparts hleads hs
      · exact .inr hl

/-- Whatever follows a tree, as long as it is not deeper, every row of the tree
has its parts behind it. -/
theorem leads (h : Subtree depth rows) (ht : ∀ row ∈ tail.head?, row.depth ≤ depth)
    (hs : row :: behind <:+ rows ++ tail) : row :: behind <:+ tail ∨ row.Leads behind := by
  induction h generalizing tail with
  | node root parts harity hparts ih =>
      rw [List.cons_append] at hs
      rcases List.suffix_cons_iff.1 hs with he | hs
      · obtain ⟨rfl, rfl⟩ := List.cons.inj he
        exact .inr (leads_root hparts harity ht)
      · exact leads_flatten hparts (fun part hpart _ => ih part hpart) ht hs

end Subtree

theorem atomRow_depth (depth : Nat) (a : Atom) : (atomRow depth a).depth = depth := by
  cases a <;> rfl

theorem atomRow_arity (depth : Nat) (a : Atom) : (atomRow depth a).role.arity = 0 := by
  cases a <;> rfl

def countRow (depth n : Nat) : Row := ⟨depth, "count ".toList ++ Decimal.digits n, .integer⟩

def exclusionRow (depth : Nat) : Row := ⟨depth, "(nothing excluded)".toList, .empty⟩

def emptyRow (depth : Nat) : Row := ⟨depth, "(empty)".toList, .empty⟩

def undefinedRow (depth : Nat) : Row := ⟨depth, "(empty definition)".toList, .empty⟩

end Ebnf.Explorer

namespace Ebnf

open Explorer

def Shape.row (depth : Nat) : Shape → Row
  | .atom a => atomRow depth a
  | .integer n => countRow depth n
  | .binary o _ _ | .without o _ => operatorRow depth o
  | .group b _ | .empty b => groupRow depth b

def Shape.rows (depth : Nat) : Shape → List Row
  | .atom a => [atomRow depth a]
  | .integer n => [countRow depth n]
  | .binary o l r => operatorRow depth o :: (l.rows (depth + 1) ++ r.rows (depth + 1))
  | .without o l => operatorRow depth o :: (l.rows (depth + 1) ++ [exclusionRow (depth + 1)])
  | .group b e => groupRow depth b :: e.rows (depth + 1)
  | .empty b => [groupRow depth b, emptyRow (depth + 1)]

def RuleShape.outline (r : RuleShape) : List Row :=
  ⟨0, "rule ".toList ++ r.name, .rule⟩ :: r.body.elim [undefinedRow 1] (Shape.rows 1)

namespace Explorer

theorem operatorRow_inj {depth : Nat} {o o' : Operator} (h : operatorRow depth o = operatorRow depth o') : o = o' := by
  have hlast := congrArg (·.label.getLast?) h
  simp only [operatorRow, List.getLast?_append_cons, List.getLast?_cons_cons, List.getLast?_singleton,
    Option.some.injEq] at hlast
  revert hlast
  cases o with
  | counting => cases o' with
      | counting => decide
      | joining c => cases c <;> decide
  | joining c => cases o' with
      | counting => cases c <;> decide
      | joining c' => cases c <;> cases c' <;> decide

theorem groupRow_inj {depth : Nat} {b b' : Bracket} (h : groupRow depth b = groupRow depth b') : b = b' := by
  have hlast := congrArg (·.label.getLast?) h
  simp only [groupRow, List.getLast?_append_cons, List.getLast?_cons_cons, List.getLast?_singleton,
    Option.some.injEq] at hlast
  revert hlast
  cases b <;> cases b' <;> decide

theorem countRow_inj {depth n n' : Nat} (h : countRow depth n = countRow depth n') : n = n' := by
  have hdigits : Decimal.digits n = Decimal.digits n' := List.append_cancel_left (congrArg Row.label h)
  rw [← Decimal.value_digits n, hdigits, Decimal.value_digits]

theorem atomRow_inj {depth : Nat} {a a' : Atom} (h : atomRow depth a = atomRow depth a') : a = a' := by
  have hlabel := congrArg Row.label h
  cases a with
  | identifier name => cases a' with
      | identifier name' => rw [List.append_cancel_left hlabel]
      | _ => cases congrArg Row.role h
  | terminal text q => cases a' with
      | terminal text' q' =>
          obtain ⟨hchar, hrest⟩ := List.cons.inj (List.append_cancel_left hlabel)
          have hquote : q = q' := by
            revert hchar
            cases q <;> cases q' <;> decide
          rw [hquote, List.append_inj_left' hrest rfl]
      | _ => cases congrArg Row.role h
  | special text => cases a' with
      | special text' =>
          obtain ⟨-, hrest⟩ := List.cons.inj (List.append_cancel_left hlabel)
          rw [List.append_inj_left' hrest rfl]
      | _ => cases congrArg Row.role h

end Explorer

namespace Shape

variable {depth : Nat} {s s' : Shape} {u u' : List Row}

theorem rows_cons (depth : Nat) (s : Shape) : ∃ rest, s.rows depth = s.row depth :: rest := by
  cases s <;> exact ⟨_, rfl⟩

theorem role_row (depth : Nat) (s : Shape) : (s.row depth).role ≠ .empty := by
  cases s with
  | atom a => cases a <;> exact Role.noConfusion
  | _ => exact Role.noConfusion

theorem root_eq_of_row_eq (h : s.row depth = s'.row depth) : s.root = s'.root := by
  have hrole := congrArg Row.role h
  cases s with
  | atom a => cases s' with
      | atom a' => rfl
      | _ => cases a <;> cases hrole
  | integer n => cases s' with
      | integer n' => rfl
      | atom a' => cases a' <;> cases hrole
      | _ => cases hrole
  | binary o | without o => cases s' with
      | binary o' | without o' => exact congrArg Root.operator (operatorRow_inj h)
      | atom a' => cases a' <;> cases hrole
      | _ => cases hrole
  | group b | empty b => cases s' with
      | group b' | empty b' => exact congrArg Root.bracket (groupRow_inj h)
      | atom a' => cases a' <;> cases hrole
      | _ => cases hrole

theorem root_eq_of_rows_append (h : s.rows depth ++ u = s'.rows depth ++ u') : s.root = s'.root := by
  obtain ⟨rest, hs⟩ := rows_cons depth s
  obtain ⟨rest', hs'⟩ := rows_cons depth s'
  rw [hs, hs'] at h
  exact root_eq_of_row_eq (List.cons.inj h).1

theorem rows_append_ne {row : Row} (hrow : row.role = .empty) : s.rows depth ++ u ≠ row :: u' := by
  obtain ⟨rest, hs⟩ := rows_cons depth s
  intro h
  rw [hs] at h
  obtain ⟨rfl, -⟩ := List.cons.inj h
  exact s.role_row depth hrow

/-- A tree is told by its rows, and so is where they end. -/
theorem rows_append_inj (h : s.rows depth ++ u = s'.rows depth ++ u') : s = s' ∧ u = u' := by
  induction s generalizing s' depth u u' with
  | atom a =>
      have hroot := root_eq_of_rows_append h
      cases s' with
      | atom a' =>
          obtain ⟨hrow, hu⟩ := List.cons.inj h
          exact ⟨congrArg Shape.atom (atomRow_inj hrow), hu⟩
      | _ => cases hroot
  | integer n =>
      have hroot := root_eq_of_rows_append h
      cases s' with
      | integer n' =>
          obtain ⟨hrow, hu⟩ := List.cons.inj h
          exact ⟨congrArg Shape.integer (countRow_inj hrow), hu⟩
      | _ => cases hroot
  | binary o l r ihl ihr =>
      have hroot := root_eq_of_rows_append h
      cases s' with
      | binary o' l' r' =>
          obtain rfl := Root.operator.inj hroot
          rw [rows, rows, List.cons_append, List.cons_append, List.append_assoc, List.append_assoc] at h
          obtain ⟨rfl, hr⟩ := ihl (List.cons.inj h).2
          obtain ⟨rfl, hu⟩ := ihr hr
          exact ⟨rfl, hu⟩
      | without o' l' =>
          obtain rfl := Root.operator.inj hroot
          rw [rows, rows, List.cons_append, List.cons_append, List.append_assoc, List.append_assoc] at h
          obtain ⟨-, hr⟩ := ihl (List.cons.inj h).2
          exact absurd hr (rows_append_ne rfl)
      | _ => cases hroot
  | without o l ih =>
      have hroot := root_eq_of_rows_append h
      cases s' with
      | binary o' l' r' =>
          obtain rfl := Root.operator.inj hroot
          rw [rows, rows, List.cons_append, List.cons_append, List.append_assoc, List.append_assoc] at h
          obtain ⟨-, hr⟩ := ih (List.cons.inj h).2
          exact absurd hr.symm (rows_append_ne rfl)
      | without o' l' =>
          obtain rfl := Root.operator.inj hroot
          rw [rows, rows, List.cons_append, List.cons_append, List.append_assoc, List.append_assoc] at h
          obtain ⟨rfl, hend⟩ := ih (List.cons.inj h).2
          exact ⟨rfl, (List.cons.inj hend).2⟩
      | _ => cases hroot
  | group b e ih =>
      have hroot := root_eq_of_rows_append h
      cases s' with
      | group b' e' =>
          obtain rfl := Root.bracket.inj hroot
          obtain ⟨rfl, hu⟩ := ih (List.cons.inj h).2
          exact ⟨rfl, hu⟩
      | empty b' => exact absurd (List.cons.inj h).2 (rows_append_ne rfl)
      | _ => cases hroot
  | empty b =>
      have hroot := root_eq_of_rows_append h
      cases s' with
      | group b' e' => exact absurd (List.cons.inj h).2.symm (rows_append_ne rfl)
      | empty b' =>
          obtain rfl := Root.bracket.inj hroot
          exact ⟨rfl, List.append_cancel_left h⟩
      | _ => cases hroot

theorem subtree_rows (depth : Nat) (s : Shape) : Subtree depth (s.rows depth) := by
  induction s generalizing depth with
  | atom a => exact .leaf (atomRow_depth depth a) (atomRow_arity depth a)
  | integer n => exact .leaf rfl rfl
  | binary o l r ihl ihr => exact .binary rfl rfl (ihl (depth + 1)) (ihr (depth + 1))
  | without o l ih => exact .binary rfl rfl (ih (depth + 1)) (.leaf rfl rfl)
  | group b e ih => exact .unary rfl rfl (ih (depth + 1))
  | empty b => exact .unary rfl rfl (.leaf rfl rfl)

end Shape

theorem Expr.rows_shape (depth : Nat) (e : Expr α) : e.shape.rows depth = exprRows depth e := by
  induction e generalizing depth <;> simp_all [shape, Shape.rows, exprRows, countRow, exclusionRow, emptyRow]

theorem Rule.outline_shape (r : Rule α) : r.shape.outline = outline r := by
  cases h : r.body <;> simp [shape, RuleShape.outline, outline, undefinedRow, Expr.rows_shape, h]

theorem Rule.bare_eq_iff_shape_eq {r : Rule α} {r' : Rule β} : r.bare = r'.bare ↔ r.shape = r'.shape := by
  rw [← r.shape_bare, ← r'.shape_bare]
  exact Rule.shape_injective.eq_iff.symm

namespace RuleShape

theorem outline_inj {r r' : RuleShape} (h : r.outline = r'.outline) : r = r' := by
  obtain ⟨name, body⟩ := r
  obtain ⟨name', body'⟩ := r'
  obtain ⟨hrule, hbody⟩ := List.cons.inj h
  obtain rfl : name = name' := List.append_cancel_left (congrArg Row.label hrule)
  have hnone (s : Shape) : s.rows 1 ≠ [undefinedRow 1] := by
    rw [← List.append_nil (s.rows 1)]
    exact Shape.rows_append_ne rfl
  cases body with
  | none => cases body' with
      | none => rfl
      | some s' => exact absurd hbody.symm (hnone s')
  | some s => cases body' with
      | none => exact absurd hbody (hnone s)
      | some s' =>
          obtain ⟨rfl, -⟩ := Shape.rows_append_inj (congrArg (· ++ []) hbody)
          rfl

theorem subtree_body (r : RuleShape) : Subtree 1 (r.body.elim [undefinedRow 1] (Shape.rows 1)) := by
  cases r.body with
  | none => exact .leaf rfl rfl
  | some s => exact s.subtree_rows 1

end RuleShape

namespace Explorer

/-- The rows of a rule are those of one tree. The rule alone is at depth zero,
and behind each row stand its parts, one level deeper. -/
structure Nested (rows : List Row) : Prop where
  top : ∃ label rest, rows = ⟨0, label, .rule⟩ :: rest ∧ ∀ row ∈ rest, 1 ≤ row.depth
  leads : ∀ front row behind, rows = front ++ row :: behind → row.Leads behind

theorem nested_outline (r : RuleShape) : Nested r.outline := by
  have htree : Subtree 0 r.outline := .unary rfl rfl r.subtree_body
  refine ⟨⟨_, _, rfl, r.subtree_body.le_depth⟩, fun front row behind h => ?_⟩
  have hs : row :: behind <:+ r.outline ++ [] := by
    rw [List.append_nil, h]
    exact List.suffix_append front _
  rcases htree.leads (by simp) hs with hnil | hl
  · exact absurd (List.suffix_nil.1 hnil) (List.cons_ne_nil _ _)
  · exact hl

/-- A rule is told by its rows, places apart. Among rules read from texts the
rows agree just where the renderings do. -/
theorem outline_eq_iff :
    (∀ r : Rule Span, outline r = r.shape.outline) ∧
    (∀ s s' : RuleShape, s.outline = s'.outline ↔ s = s') ∧
    (∀ r r' : Rule Span, outline r = outline r' ↔ r.bare = r'.bare) ∧
    (∀ (source source' : Text) (g g' : Grammar Span), parse source = .ok g → parse source' = .ok g' →
      ∀ r ∈ g.rules, ∀ r' ∈ g'.rules, (outline r = outline r' ↔ r.render = r'.render)) ∧
    ∀ s : RuleShape, Nested s.outline := by
  have hshape (s s' : RuleShape) : s.outline = s'.outline ↔ s = s' :=
    ⟨RuleShape.outline_inj, congrArg RuleShape.outline⟩
  refine ⟨fun r => r.outline_shape.symm, hshape, fun r r' => ?_, fun source source' g g' h h' r hr r' hr' => ?_,
    nested_outline⟩
  · rw [← r.outline_shape, ← r'.outline_shape, hshape, Rule.bare_eq_iff_shape_eq]
  · have hlegal := legal_shape_of_parse h r.shape (List.mem_map_of_mem hr)
    have hlegal' := legal_shape_of_parse h' r'.shape (List.mem_map_of_mem hr')
    rw [← r.outline_shape, ← r'.outline_shape, hshape, ← r.render_shape, ← r'.render_shape]
    constructor
    · exact congrArg RuleShape.render
    · intro hrender
      exact (RuleShape.render_append_inj hlegal hlegal' (congrArg (· ++ []) hrender)).1

theorem outline_eq_iff_of_absent_parts :
    ∃ g g', parse "a = [ ] , 2 * b - ;".toList = .ok g ∧ parse "a=[],02*b-;".toList = .ok g' ∧
      (g.rules.map fun r => (outline r).map (·.depth)) = [[0, 1, 2, 3, 2, 3, 4, 4, 3]] ∧
      ∀ r ∈ g.rules, ∀ r' ∈ g'.rules, (outline r = outline r' ↔ r.render = r'.render) := by
  obtain ⟨g, hg, hdepths⟩ : ∃ g, parse "a = [ ] , 2 * b - ;".toList = .ok g ∧
      (g.rules.map fun r => (outline r).map (·.depth)) = [[0, 1, 2, 3, 2, 3, 4, 4, 3]] :=
    exists_of_map_eq_ok (by decide +kernel)
  obtain ⟨g', hg', -⟩ : ∃ g', parse "a=[],02*b-;".toList = .ok g' ∧ g'.rules.length = 1 :=
    exists_of_map_eq_ok (by decide +kernel)
  exact ⟨g, g', hg, hg', hdepths, outline_eq_iff.2.2.2.1 _ _ g g' hg hg'⟩

end Explorer

end Ebnf
