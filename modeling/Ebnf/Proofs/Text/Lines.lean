import Ebnf.Proofs.Text.Bytes
import Mathlib.Data.List.DropRight
import Mathlib.Order.Monotone.Basic

namespace Ebnf

variable {α β : Type}

/-- What stands between breaks. A break at the very end opens no line. -/
def linesAt (isBreak : α → Bool) (xs : List α) : List (List α) :=
  let lines := xs.splitOnP isBreak
  if xs.getLast?.any isBreak then lines.dropLast else lines

theorem splitOnP_map (f : α → β) (p : β → Bool) (xs : List α) :
    (xs.map f).splitOnP p = (xs.splitOnP (p ∘ f)).map (List.map f) := by
  induction xs with
  | nil => rfl
  | cons x xs ih =>
      rw [List.map_cons, List.splitOnP_cons_eq_if_modifyHead, List.splitOnP_cons_eq_if_modifyHead, ih]
      by_cases h : p (f x) = true
      · simp [h]
      · cases hs : xs.splitOnP (p ∘ f) with
        | nil => exact absurd hs (List.splitOnP_ne_nil _ _)
        | cons l ls => simp [h]

theorem linesAt_map (f : α → β) (p : β → Bool) (xs : List α) :
    linesAt p (xs.map f) = (linesAt (p ∘ f) xs).map (List.map f) := by
  simp only [linesAt, splitOnP_map, List.getLast?_map, Option.any_map]
  rw [apply_ite (List.map (List.map f)), List.map_dropLast]
  rfl

theorem length_splitOnP (p : α → Bool) (xs : List α) : (xs.splitOnP p).length = xs.countP p + 1 := by
  induction xs with
  | nil => rfl
  | cons x xs ih =>
      rw [List.splitOnP_cons_eq_if_modifyHead, List.countP_cons]
      split <;> simp [ih]

theorem getLast?_splitOnP {p : α → Bool} {xs : List α} (h : xs.getLast?.any p) :
    (xs.splitOnP p).getLast? = some [] := by
  obtain ⟨x, hx, hp⟩ := (Option.any_eq_true _ _).1 h
  obtain ⟨ys, rfl⟩ := List.getLast?_eq_some_iff.1 hx
  rw [List.splitOnP_append_cons ys [] hp]
  simp

theorem linesAt_isPrefix (isBreak : α → Bool) (xs : List α) : linesAt isBreak xs <+: xs.splitOnP isBreak := by
  rw [linesAt]
  split
  · exact List.dropLast_prefix _
  · exact List.prefix_refl _

namespace Text

variable {source t : Text} {c : Char} {i n m : Nat}

/-- The byte at which a line begins, where lines are counted from zero. A break
belongs to the line that it ends. -/
def lineStart (source : Text) (i : Nat) : Nat :=
  byteLength (((source.splitOnP (· = '\n')).take i).flatMap (· ++ ['\n']))

def OnLine (source : Text) (i n : Nat) : Prop := source.lineStart i ≤ n ∧ n < source.lineStart (i + 1)

theorem lineStart_zero (t : Text) : t.lineStart 0 = 0 := rfl

theorem lineStart_nil (i : Nat) : lineStart [] (i + 1) = 1 := by
  rw [lineStart, List.splitOnP_nil, List.take_succ_cons, List.take_nil]
  rfl

theorem lineStart_break (t : Text) (i : Nat) : lineStart ('\n' :: t) (i + 1) = 1 + t.lineStart i := by
  rw [lineStart, List.splitOnP_cons_eq_if_modifyHead, if_pos (by simp), List.take_succ_cons, List.flatMap_cons]
  exact byteLength_append ['\n'] _

theorem lineStart_cons (h : c ≠ '\n') (t : Text) (i : Nat) :
    lineStart (c :: t) (i + 1) = c.utf8Size + t.lineStart (i + 1) := by
  cases hs : t.splitOnP (· = '\n') with
  | nil => exact absurd hs (List.splitOnP_ne_nil _ _)
  | cons l ls => simp [lineStart, List.splitOnP_cons_eq_if_modifyHead, h, hs]

theorem utf8Size_le_lineStart (c : Char) (t : Text) (i : Nat) : c.utf8Size ≤ lineStart (c :: t) (i + 1) := by
  by_cases hc : c = '\n'
  · obtain rfl := hc
    rw [lineStart_break]
    exact Nat.le_add_right 1 _
  · rw [lineStart_cons hc]
    exact Nat.le_add_right _ _

theorem breaksBefore_zero (t : Text) : t.breaksBefore 0 = 0 := by
  cases t <;> rfl

theorem breaksBefore_first (h : n < c.utf8Size) (t : Text) : breaksBefore (c :: t) n = 0 := by
  cases n with
  | zero => rfl
  | succ n =>
      have hc : c ≠ '\n' := by
        rintro rfl
        have hsize : '\n'.utf8Size = 1 := rfl
        omega
      rw [breaksBefore, if_neg hc, Nat.sub_eq_zero_of_le (Nat.le_of_lt h), breaksBefore_zero]

theorem breaksBefore_behind (h : c.utf8Size ≤ n) (t : Text) :
    breaksBefore (c :: t) n = (if c = '\n' then 1 else 0) + t.breaksBefore (n - c.utf8Size) := by
  have hpos := c.utf8Size_pos
  obtain ⟨n, rfl⟩ := Nat.exists_eq_add_one_of_ne_zero (n := n) (by omega)
  rfl

theorem breaksBefore_append (t u : Text) : (t ++ u).breaksBefore t.byteLength = t.count '\n' := by
  induction t with
  | nil => exact u.breaksBefore_zero
  | cons c t ih =>
      have hle : c.utf8Size ≤ byteLength (c :: t) := Nat.le_add_right _ _
      rw [List.cons_append, breaksBefore_behind hle, byteLength_cons, Nat.add_sub_cancel_left, ih, List.count_cons,
        Nat.add_comm]
      simp

theorem breaksBefore_succ (t : Text) (n : Nat) :
    t.breaksBefore n ≤ t.breaksBefore (n + 1) ∧ t.breaksBefore (n + 1) ≤ t.breaksBefore n + 1 := by
  induction t generalizing n with
  | nil => exact ⟨Nat.le_refl 0, Nat.zero_le 1⟩
  | cons c t ih =>
      rcases Nat.lt_trichotomy (n + 1) c.utf8Size with h | h | h
      · rw [breaksBefore_first h, breaksBefore_first (Nat.lt_of_succ_lt h)]
        exact ⟨Nat.le_refl 0, Nat.zero_le 1⟩
      · rw [breaksBefore_first (Nat.lt_of_succ_le (Nat.le_of_eq h)), breaksBefore_behind (Nat.le_of_eq h.symm), h,
          Nat.sub_self, breaksBefore_zero]
        split <;> simp
      · have hle : c.utf8Size ≤ n := Nat.le_of_lt_succ h
        have hrest := ih (n - c.utf8Size)
        rw [breaksBefore_behind hle, breaksBefore_behind (Nat.le_of_lt h), Nat.sub_add_comm hle]
        omega

theorem breaksBefore_mono (t : Text) : Monotone t.breaksBefore :=
  monotone_nat_of_le_succ fun n => (t.breaksBefore_succ n).1

/-- From one byte to the next there is at most one break, so no line is left out. -/
theorem exists_breaksBefore_eq (h : n ≤ m) (hn : t.breaksBefore n ≤ i) (hm : i ≤ t.breaksBefore m) :
    ∃ k, n ≤ k ∧ k ≤ m ∧ t.breaksBefore k = i := by
  induction m, h using Nat.le_induction with
  | base => exact ⟨n, Nat.le_refl n, Nat.le_refl n, Nat.le_antisymm hn hm⟩
  | succ m hnm ih =>
      by_cases hi : i ≤ t.breaksBefore m
      · obtain ⟨k, hnk, hkm, hk⟩ := ih hi
        exact ⟨k, hnk, Nat.le_succ_of_le hkm, hk⟩
      · have hstep := (t.breaksBefore_succ m).2
        exact ⟨m + 1, Nat.le_succ_of_le hnm, Nat.le_refl _, by omega⟩

/-- The line of a byte is told by the breaks in front of it. -/
theorem onLine_iff (hn : n ≤ source.byteLength) : source.OnLine i n ↔ source.breaksBefore n = i := by
  induction source generalizing i n with
  | nil =>
      obtain rfl : n = 0 := Nat.le_zero.1 hn
      cases i with
      | zero => simp [OnLine, lineStart_zero, lineStart_nil, breaksBefore]
      | succ i => simp [OnLine, lineStart_nil, breaksBefore]
  | cons c t ih =>
      rw [byteLength_cons] at hn
      by_cases hfirst : n < c.utf8Size
      · rw [breaksBefore_first hfirst]
        cases i with
        | zero =>
            have hnext := utf8Size_le_lineStart c t 0
            exact iff_of_true ⟨Nat.zero_le n, Nat.lt_of_lt_of_le hfirst hnext⟩ rfl
        | succ i =>
            have hstart := utf8Size_le_lineStart c t i
            refine iff_of_false (fun h => ?_) (Nat.succ_ne_zero i).symm
            exact absurd (hstart.trans h.1) (Nat.not_le_of_lt hfirst)
      · rw [breaksBefore_behind (Nat.le_of_not_lt hfirst)]
        have hrest (i : Nat) := ih (i := i) (n := n - c.utf8Size) (by omega)
        by_cases hc : c = '\n'
        · obtain rfl := hc
          cases i with
          | zero =>
              have hnext := lineStart_break t 0
              have hsize : '\n'.utf8Size = 1 := rfl
              simp only [OnLine, hnext, lineStart_zero, if_true]
              omega
          | succ i =>
              have hi := hrest i
              have hsize : '\n'.utf8Size = 1 := rfl
              simp only [OnLine, lineStart_break, if_true] at hi ⊢
              omega
        · rw [if_neg hc, Nat.zero_add, ← hrest i]
          cases i with
          | zero =>
              simp only [OnLine, lineStart_cons hc, lineStart_zero]
              omega
          | succ i =>
              simp only [OnLine, lineStart_cons hc]
              omega

theorem breaksBefore_lt_length (h : n < source.byteLength) :
    source.breaksBefore n < (linesAt (· = '\n') source).length := by
  have hsplit := length_splitOnP (· = '\n') source
  have hcount : source.countP (· = '\n') = source.count '\n' := rfl
  rw [linesAt]
  split
  · next hbreak =>
      obtain ⟨c, hc, hnl⟩ := (Option.any_eq_true _ _).1 hbreak
      obtain rfl : c = '\n' := of_decide_eq_true hnl
      obtain ⟨t, rfl⟩ := List.getLast?_eq_some_iff.1 hc
      have hsize : byteLength ['\n'] = 1 := rfl
      rw [byteLength_append, hsize] at h
      have hmono := breaksBefore_mono (t ++ ['\n']) (Nat.le_of_lt_succ h)
      rw [breaksBefore_append] at hmono
      have hlast : (t ++ ['\n']).count '\n' = t.count '\n' + 1 := by simp
      rw [List.length_dropLast]
      omega
  · have hmono := breaksBefore_mono source (Nat.le_of_lt h)
    have hall := breaksBefore_append source []
    rw [List.append_nil] at hall
    omega

/-! The lines that a reader counts. -/

variable {u v : Text}

theorem lines_ne_nil (h : t ≠ []) : t.lines ≠ [] := by
  unfold lines
  split
  · contradiction
  · simp
  · simp
  · simp
  · split <;> simp

theorem lines_break (t : Text) : lines ('\n' :: t) = [] :: t.lines := by rw [lines]

theorem lines_return (t : Text) : lines ('\r' :: '\n' :: t) = lines ('\n' :: t) := by simp [lines]

theorem lines_cons (hc : c ≠ '\n') (ht : t ≠ []) (hr : c = '\r' → t.head? ≠ some '\n') :
    lines (c :: t) = t.lines.modifyHead (c :: ·) := by
  obtain ⟨d, t, rfl⟩ := List.exists_cons_of_ne_nil ht
  have hd : c = '\r' → d ≠ '\n' := fun hc hd => hr hc (congrArg some hd)
  rw [lines.eq_5 _ _ _ hc hd]
  cases h : lines (d :: t) with
  | nil => exact absurd h (lines_ne_nil (List.cons_ne_nil d t))
  | cons l ls => rfl

/-- Lines in front of a line end stay as they are whatever stands behind it, and
there are as many of them as there are line ends. -/
theorem exists_lines_append (u t : Text) :
    ∃ ls, lines (u ++ '\n' :: t) = ls ++ t.lines ∧ ls.length = u.count '\n' + 1 := by
  induction u with
  | nil => exact ⟨[[]], lines_break t, rfl⟩
  | cons c u ih =>
      obtain ⟨ls, hls, hlength⟩ := ih
      by_cases hc : c = '\n'
      · subst hc
        exact ⟨[] :: ls, by rw [List.cons_append, lines_break, hls]; rfl, by simp [hlength]⟩
      have hcount : (c :: u).count '\n' = u.count '\n' := by simp [hc]
      rw [hcount]
      by_cases hr : c = '\r' ∧ (u ++ '\n' :: t).head? = some '\n'
      · obtain ⟨rfl, hhead⟩ := hr
        obtain ⟨w, hw⟩ := List.head?_eq_some_iff.1 hhead
        refine ⟨ls, ?_, hlength⟩
        rw [List.cons_append, ← hls, hw, lines_return]
      · rw [List.cons_append, lines_cons hc (by simp) (fun h hh => hr ⟨h, hh⟩), hls]
        obtain ⟨l, ls, rfl⟩ := List.exists_cons_of_length_eq_add_one hlength
        exact ⟨(c :: l) :: ls, rfl, hlength⟩

theorem lines_append (hu : '\n' ∉ u) (hv : v ≠ []) (hh : v.head? ≠ some '\n') :
    lines (u ++ v) = v.lines.modifyHead (u ++ ·) := by
  induction u with
  | nil => cases hl : v.lines <;> simp [hl]
  | cons c u ih =>
      have hc : c ≠ '\n' := (List.ne_of_not_mem_cons hu).symm
      have hu : '\n' ∉ u := List.not_mem_of_not_mem_cons hu
      have hhead : (u ++ v).head? ≠ some '\n' := by
        cases u with
        | nil => exact hh
        | cons d u => simpa using (List.ne_of_not_mem_cons hu).symm
      rw [List.cons_append, lines_cons hc (by simp [hv]) fun _ => hhead, ih hu]
      cases v.lines <;> rfl

theorem lines_of_line (hu : '\n' ∉ u) (hne : u ≠ []) : lines u = [u] := by
  rcases u.eq_nil_or_concat with rfl | ⟨w, d, rfl⟩
  · contradiction
  · rw [List.concat_eq_append] at hu ⊢
    have hd : d ≠ '\n' := by
      rintro rfl
      simp at hu
    rw [lines_append (fun h => hu (List.mem_append_left _ h)) (by simp) (by simpa using hd)]
    simp [lines]

theorem exists_lines_eq_cons (hu : '\n' ∉ u) (hv : ∀ c ∈ v.head?, c ≠ '\n' ∧ c ≠ '\r') (hend : v = [] → u ≠ []) :
    ∃ w ls, lines (u ++ v) = (u ++ w) :: ls ∧ w.head? = v.head? := by
  cases v with
  | nil => exact ⟨[], [], by simpa using lines_of_line hu (hend rfl), rfl⟩
  | cons c v =>
      obtain ⟨hc, hr⟩ := hv c rfl
      rw [lines_append hu (List.cons_ne_nil c v) (by simpa using hc)]
      cases v with
      | nil => exact ⟨[c], [], by simp [lines], rfl⟩
      | cons d v =>
          rw [lines_cons hc (List.cons_ne_nil d v) fun h => absurd h hr]
          obtain ⟨l, ls, hl⟩ := List.exists_cons_of_ne_nil (lines_ne_nil (List.cons_ne_nil d v))
          exact ⟨c :: l, ls, by rw [hl]; rfl, rfl⟩

/-- The line that a place is on has as many others in front of it as there are line
ends in front of the place. The place itself has to be at a character that is no
part of a line end, or at an end of the text that is not behind one. -/
theorem exists_line (hv : ∀ c ∈ v.head?, c ≠ '\n' ∧ c ≠ '\r') (hend : v = [] → u ≠ [] ∧ u.getLast? ≠ some '\n') :
    ∃ w, (lines (u ++ v))[u.count '\n']? = some (u.rtakeWhile (· ≠ '\n') ++ w) ∧ w.head? = v.head? := by
  have hfree : '\n' ∉ u.rtakeWhile (· ≠ '\n') := fun h => by simpa using List.mem_rtakeWhile_imp h
  have hsplit : u.rdropWhile (· ≠ '\n') ++ u.rtakeWhile (· ≠ '\n') = u := List.rdropWhile_append_rtakeWhile
  generalize u.rtakeWhile (· ≠ '\n') = behind at hfree hsplit ⊢
  have hcount : behind.count '\n' = 0 := List.count_eq_zero.2 hfree
  by_cases hfront : u.rdropWhile (· ≠ '\n') = []
  · rw [hfront, List.nil_append] at hsplit
    subst hsplit
    obtain ⟨w, ls, hl, hw⟩ := exists_lines_eq_cons hfree hv fun h => (hend h).1
    exact ⟨w, by rw [hl, hcount]; rfl, hw⟩
  · have hlast := List.rdropWhile_last_not (· ≠ '\n') u hfront
    have hbreak : (u.rdropWhile (· ≠ '\n')).getLast? = some '\n' := by
      rw [List.getLast?_eq_some_getLast hfront]
      simpa using hlast
    obtain ⟨front, hf⟩ := List.getLast?_eq_some_iff.1 hbreak
    rw [hf, List.append_assoc, List.singleton_append] at hsplit
    subst hsplit
    have hbehind : v = [] → behind ≠ [] := by
      rintro h rfl
      exact (hend h).2 (by simp)
    obtain ⟨w, ls, hl, hw⟩ := exists_lines_eq_cons hfree hv hbehind
    obtain ⟨ls', hls, hlength⟩ := exists_lines_append front (behind ++ v)
    refine ⟨w, ?_, hw⟩
    rw [List.append_assoc, List.cons_append, hls, hl, List.getElem?_append_right]
    · simp [hlength, hcount]
    · simp [hlength, hcount]

end Text

end Ebnf
