import Ebnf.Explorer.Scroll

namespace Ebnf.Explorer

def add? (a b : Nat) : Option Nat := if a + b < UInt64.size then some (a + b) else none

def sub? (a b : Nat) : Option Nat := if b ≤ a then some (a - b) else none

theorem add?_eq {a b : Nat} (h : a + b < UInt64.size) : add? a b = some (a + b) := if_pos h

theorem sub?_eq {a b : Nat} (h : b ≤ a) : sub? a b = some (a - b) := if_pos h

namespace Scroll

variable {selected total rows offset height : Nat}

theorem one_le_visible (height : Nat) : 1 ≤ visible height := Nat.le_max_right _ _

theorem visible_lt (h : height < UInt16.size) : visible height < UInt16.size := by
  have : 1 < UInt16.size := by decide
  rw [visible]
  omega

theorem back_le (offset : Nat) : back offset ≤ offset := Nat.sub_le _ _

theorem forth_le (offset : Nat) : forth offset ≤ maxOffset := Nat.min_le_right _ _

theorem follow_le (hr : 1 ≤ rows) : follow selected rows offset ≤ selected := by
  rw [follow]
  split
  · exact Nat.le_refl _
  · split <;> omega

theorem lt_follow_add (hr : 1 ≤ rows) : selected < follow selected rows offset + rows := by
  rw [follow]
  split
  · omega
  · split <;> omega

theorem follow_eq_self (hle : offset ≤ selected) (hlt : selected < offset + rows) :
    follow selected rows offset = offset := by
  rw [follow, if_neg (Nat.not_lt_of_le hle), if_neg (Nat.not_le_of_lt hlt)]

theorem clamp_le : clamp total rows offset ≤ total - rows := by
  rw [clamp]
  split
  · exact Nat.min_le_right _ _
  · exact Nat.zero_le _

theorem clamp_le_offset : clamp total rows offset ≤ offset := by
  rw [clamp]
  split
  · exact Nat.min_le_left _ _
  · exact Nat.zero_le _

theorem clamp_eq_self (h : offset ≤ total - rows) : clamp total rows offset = offset := by
  rw [clamp]
  split <;> omega

/-- Following moves an offset behind `n` just if the selected row is behind it and
either the offset was, too, or the row cannot show from there. -/
theorem lt_follow_iff {n : Nat} (hr : 1 ≤ rows) :
    n < follow selected rows offset ↔ n < selected ∧ (n < offset ∨ n + rows ≤ selected) := by
  rw [follow]
  split
  · omega
  · split <;> omega

/-- A line shows that is wanted below `above` others: the last page does not hide
it, but a window that is too low for all of them does. -/
theorem clamp_shows_iff {line : Nat} (hl : line < total) (rows above : Nat) :
    clamp total rows (line - above) ≤ line ∧
      (line < clamp total rows (line - above) + rows ↔ line < rows ∨ above < rows) := by
  rw [clamp]
  split <;> omega

def follow? (selected rows offset : Nat) : Option Nat :=
  if selected < offset then some selected
  else do
    let stop ← add? offset rows
    if stop ≤ selected then
      let next ← add? selected 1
      sub? next rows
    else some offset

def clamp? (total rows offset : Nat) : Option Nat :=
  if rows < total then (sub? total rows).map (min offset) else some 0

theorem follow?_eq (ho : offset + rows < UInt64.size) (hs : selected + 1 < UInt64.size) :
    follow? selected rows offset = some (follow selected rows offset) := by
  rw [follow?, follow]
  split
  · rfl
  · rw [add?_eq ho]
    simp only [Option.bind_eq_bind, Option.bind_some]
    split
    · rw [add?_eq hs, Option.bind_some, sub?_eq (by omega)]
    · rfl

theorem clamp?_eq : clamp? total rows offset = some (clamp total rows offset) := by
  rw [clamp?, clamp]
  split
  · next h => rw [sub?_eq (Nat.le_of_lt h)]; rfl
  · rfl

end Scroll

end Ebnf.Explorer
