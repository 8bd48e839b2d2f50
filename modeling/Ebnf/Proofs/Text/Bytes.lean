import Ebnf.Source.Location
import Ebnf.Source.Span

namespace Ebnf

namespace Text

@[simp] theorem byteLength_nil : byteLength [] = 0 := rfl

@[simp] theorem byteLength_cons (c : Char) (t : Text) : byteLength (c :: t) = c.utf8Size + byteLength t := rfl

@[simp] theorem byteLength_append (t u : Text) : byteLength (t ++ u) = byteLength t + byteLength u := by
  induction t with
  | nil => simp
  | cons c t ih => simp [ih, Nat.add_assoc]

theorem exists_byteLength_cons (c : Char) (t : Text) :
    ∃ n, byteLength (c :: t) = n + 1 ∧ c.utf8Size ≤ n + 1 ∧ n + 1 - c.utf8Size = byteLength t := by
  have hpos := c.utf8Size_pos
  refine ⟨byteLength (c :: t) - 1, ?_, ?_, ?_⟩ <;> rw [byteLength_cons] <;> omega

theorem dropBytes?_append (t u : Text) : (t ++ u).dropBytes? (byteLength t) = some u := by
  induction t with
  | nil => simp [dropBytes?]
  | cons c t ih =>
      obtain ⟨n, hn, hle, hsub⟩ := exists_byteLength_cons c t
      rw [hn, List.cons_append, dropBytes?, if_pos hle, hsub, ih]

theorem takeBytes?_append (t u : Text) : (t ++ u).takeBytes? (byteLength t) = some t := by
  induction t with
  | nil => simp [takeBytes?]
  | cons c t ih =>
      obtain ⟨n, hn, hle, hsub⟩ := exists_byteLength_cons c t
      rw [hn, List.cons_append, takeBytes?, if_pos hle, hsub, ih]
      rfl

section

variable {t u v w : Text}

theorem length_le_byteLength (t : Text) : t.length ≤ t.byteLength := by
  induction t with
  | nil => exact Nat.le_refl 0
  | cons c t ih =>
      have := c.utf8Size_pos
      rw [List.length_cons, byteLength_cons]
      omega

def maxBytes : Nat := UInt64.size / 2

theorem breaksBefore_le (t : Text) (n : Nat) : t.breaksBefore n ≤ t.length := by
  induction t, n using breaksBefore.induct with
  | case1 | case2 => simp [breaksBefore]
  | case3 c t n ih =>
      rw [breaksBefore, List.length_cons]
      split <;> omega

theorem byteLength_eq_zero (h : t.byteLength = 0) : t = [] := by
  have := t.length_le_byteLength
  exact List.length_eq_zero_iff.1 (by omega)

theorem exists_append_of_byteLength_le (h : t ++ u = v ++ w) (hle : t.byteLength ≤ v.byteLength) :
    ∃ m, v = t ++ m ∧ u = m ++ w := by
  rcases List.append_eq_append_iff.1 h with ⟨m, hv, hu⟩ | ⟨m, rfl, rfl⟩
  · exact ⟨m, hv, hu⟩
  · rw [byteLength_append] at hle
    obtain rfl := byteLength_eq_zero (t := m) (by omega)
    exact ⟨[], by simp, by simp⟩

theorem dropWithin_append (t u : Text) : (t ++ u).dropWithin t.byteLength = (u, 0) := by
  induction t with
  | nil =>
      cases u with
      | nil => rfl
      | cons c u =>
          have := c.utf8Size_pos
          exact if_neg (by simp only [byteLength_nil]; omega)
  | cons c t ih => rw [List.cons_append, dropWithin, byteLength_cons, if_pos (by omega), Nat.add_sub_cancel_left, ih]

/-- A character of the text begins at this byte, or the text ends there. -/
def Boundary (t : Text) (n : Nat) : Prop := ∃ u v, t = u ++ v ∧ n = u.byteLength

end

end Text

theorem Text.slice?_append (t u v : Text) :
    (t ++ (u ++ v)).slice? t.byteLength (t.byteLength + u.byteLength) = some u := by
  rw [slice?, if_pos (Nat.le_add_right _ _), dropBytes?_append, Nat.add_sub_cancel_left]
  exact takeBytes?_append u v

def Span.Holds (a : Span) (n : Nat) : Prop := a.start ≤ n ∧ n < a.stop

theorem Span.slice_append (t u v : Text) :
    Span.slice ⟨t.byteLength, t.byteLength + u.byteLength⟩ (t ++ (u ++ v)) = u := by
  rw [slice, Text.slice?_append]
  rfl

theorem Location.after_offset (l : Location) (t : Text) : (l.after t).offset = l.offset + t.byteLength := by
  induction t generalizing l with
  | nil => rfl
  | cons c t ih =>
      have ha : (l.advance c).offset = l.offset + c.utf8Size := by
        rw [advance]
        split <;> rfl
      rw [after, List.foldl_cons, ← after, ih, ha, Text.byteLength_cons, Nat.add_assoc]

theorem Location.column_after {t : Text} (h : '\n' ∉ t) (l : Location) :
    (l.after t).column = l.column + t.length := by
  induction t generalizing l with
  | nil => rfl
  | cons c t ih =>
      rw [List.mem_cons, not_or] at h
      have hc : (l.advance c).column = l.column + 1 := by rw [advance, if_neg (Ne.symm h.1)]
      rw [after, List.foldl_cons, ← after, ih h.2, hc, List.length_cons, Nat.add_right_comm, Nat.add_assoc]

end Ebnf
