import Ebnf.Text.Basic

namespace Ebnf.Text

variable {a b c d : Char} {n t u v : Text}

theorem occursIn_iff : occursIn n t = true ↔ n <:+: t := by
  induction t with
  | nil => simp [occursIn]
  | cons c t ih => simp [occursIn, ih, List.infix_cons_iff, List.isPrefixOf_iff_prefix]

theorem infix_cons_of_ne (h : c ≠ d) : c :: n <:+: d :: t ↔ c :: n <:+: t := by
  simp [List.infix_cons_iff, h]

theorem pair_infix_cons : [a, b] <:+: a :: t ↔ [b] <+: t ∨ [a, b] <:+: t := by
  simp [List.infix_cons_iff]

theorem pair_infix_append : [a, b] <:+: t ++ u ↔
    [a, b] <:+: t ∨ [a, b] <:+: u ∨ (t.getLast? = some a ∧ u.head? = some b) := by
  induction t with
  | nil => simp
  | cons c t ih =>
      rw [List.cons_append, List.infix_cons_iff, List.infix_cons_iff, ih]
      cases t with
      | nil => cases u <;> simp [or_comm, eq_comm (a := a), eq_comm (a := b)]
      | cons d t => simp [List.getLast?_cons, or_assoc]

theorem unixBreaks_break (t : Text) : unixBreaks ('\r' :: '\n' :: t) = '\n' :: unixBreaks t := rfl

theorem unixBreaks_cons (h : ∀ u, c = '\r' → t = '\n' :: u → False) :
    unixBreaks (c :: t) = c :: unixBreaks t := by
  rw [unixBreaks]
  exact h

/-- What is appended keeps its breaks, and so does the front part, unless a
break lies across the seam. -/
theorem unixBreaks_append (h : t.getLast? ≠ some '\r' ∨ u.head? ≠ some '\n') :
    unixBreaks (t ++ u) = unixBreaks t ++ unixBreaks u := by
  induction t using unixBreaks.induct with
  | case1 => rfl
  | case2 t ih =>
      rw [List.cons_append, List.cons_append, unixBreaks_break, unixBreaks_break, List.cons_append, ih]
      cases t with
      | nil => simp
      | cons d t => simpa [List.getLast?_cons] using h
  | case3 c t hc ih =>
      cases t with
      | nil =>
          rw [List.singleton_append, unixBreaks_cons]
          · rw [unixBreaks_cons hc]
            rfl
          · rintro v rfl rfl
            simp at h
      | cons d t =>
          rw [List.cons_append, unixBreaks_cons hc, unixBreaks_cons, ih (by simpa [List.getLast?_cons] using h)]
          · rfl
          · rintro v rfl hv
            obtain ⟨rfl, -⟩ := List.cons.inj hv
            exact hc t rfl rfl

theorem mem_unixBreaks : '\n' ∈ unixBreaks t ↔ '\n' ∈ t := by
  induction t using unixBreaks.induct with
  | case1 => rfl
  | case2 t ih => simp [unixBreaks_break]
  | case3 c t hc ih => rw [unixBreaks_cons hc, List.mem_cons, List.mem_cons, ih]

theorem break_prefix_unixBreaks : ['\n'] <+: unixBreaks t ↔ ['\n'] <+: t ∨ ['\r', '\n'] <+: t := by
  cases t using unixBreaks.fun_cases with
  | case1 => simp [unixBreaks]
  | case2 t => simp [unixBreaks_break]
  | case3 c t hc =>
      have hne : ¬ ['\r', '\n'] <+: c :: t := by
        rintro ⟨u, hu⟩
        obtain ⟨rfl, rfl⟩ := List.cons.inj hu
        exact hc u rfl rfl
      simp only [unixBreaks_cons hc, hne, or_false, List.cons_prefix_cons, List.nil_prefix]

theorem prefix_unixBreaks (hn : '\n' ∉ n) (hr : '\r' ∉ n) : n <+: unixBreaks t ↔ n <+: t := by
  induction n generalizing t with
  | nil => simp
  | cons d n ih =>
      rw [List.mem_cons, not_or] at hn hr
      cases t using unixBreaks.fun_cases with
      | case1 => rfl
      | case2 t => simp [unixBreaks_break, Ne.symm hn.1, Ne.symm hr.1]
      | case3 c t hc => rw [unixBreaks_cons hc, List.cons_prefix_cons, List.cons_prefix_cons, ih hn.2 hr.2]

theorem infix_unixBreaks (hn : '\n' ∉ n) (hr : '\r' ∉ n) : n <:+: unixBreaks t ↔ n <:+: t := by
  induction t using unixBreaks.induct with
  | case1 => rfl
  | case2 t ih =>
      cases n with
      | nil => simp
      | cons d n =>
          have hdn : d ≠ '\n' := fun h => hn (h ▸ List.mem_cons_self)
          have hdr : d ≠ '\r' := fun h => hr (h ▸ List.mem_cons_self)
          rw [unixBreaks_break, infix_cons_of_ne hdn, ih, infix_cons_of_ne hdr, infix_cons_of_ne hdn]
  | case3 c t hc ih =>
      rw [unixBreaks_cons hc, List.infix_cons_iff, List.infix_cons_iff, ih, ← unixBreaks_cons hc,
        prefix_unixBreaks hn hr]

theorem replaceBreaks_cons_break (newline t : Text) :
    replaceBreaks newline ('\n' :: t) = newline ++ replaceBreaks newline t := rfl

theorem replaceBreaks_cons (newline : Text) (h : c ≠ '\n') (t : Text) :
    replaceBreaks newline (c :: t) = c :: replaceBreaks newline t := by
  simp [replaceBreaks, h]

theorem replaceBreaks_unix (t : Text) : replaceBreaks ['\n'] t = t := by
  induction t with
  | nil => rfl
  | cons c t ih =>
      by_cases h : c = '\n'
      · rw [h, replaceBreaks_cons_break, ih, List.singleton_append]
      · rw [replaceBreaks_cons _ h, ih]

theorem unixBreaks_replaceBreaks (t : Text) : unixBreaks (replaceBreaks ['\r', '\n'] t) = t := by
  induction t with
  | nil => rfl
  | cons c t ih =>
      by_cases h : c = '\n'
      · rw [h, replaceBreaks_cons_break]
        exact congrArg _ ih
      · rw [replaceBreaks_cons _ h, unixBreaks_cons, ih]
        rintro u - hu
        cases t with
        | nil => cases hu
        | cons d t =>
            by_cases hd : d = '\n'
            · rw [hd, replaceBreaks_cons_break] at hu
              cases hu
            · rw [replaceBreaks_cons _ hd] at hu
              exact hd (List.cons.inj hu).1

theorem infix_replaceBreaks (hn : '\n' ∉ n) (hr : '\r' ∉ n) :
    n <:+: replaceBreaks ['\r', '\n'] t ↔ n <:+: t := by
  rw [← infix_unixBreaks hn hr, unixBreaks_replaceBreaks]

theorem unixBreaks_eq_self : unixBreaks t = t ↔ ¬ ['\r', '\n'] <:+: t := by
  induction t using unixBreaks.induct with
  | case1 => simp [unixBreaks]
  | case2 t => simp [unixBreaks_break, List.infix_cons_iff]
  | case3 c t hc ih =>
      have hne : ¬ ['\r', '\n'] <+: c :: t := by
        rintro ⟨u, hu⟩
        obtain ⟨rfl, rfl⟩ := List.cons.inj hu
        exact hc u rfl rfl
      rw [unixBreaks_cons hc, List.infix_cons_iff, or_iff_right hne, ← ih]
      simp

theorem long_break_infix_unixBreaks : ['\r', '\n'] <:+: unixBreaks t ↔ ['\r', '\r', '\n'] <:+: t := by
  induction t using unixBreaks.induct with
  | case1 => simp [unixBreaks]
  | case2 t ih =>
      rw [unixBreaks_break, infix_cons_of_ne (by decide), ih, List.infix_cons_iff, infix_cons_of_ne (by decide)]
      simp
  | case3 c t hc ih =>
      rw [unixBreaks_cons hc, List.infix_cons_iff, List.infix_cons_iff, ih, List.cons_prefix_cons,
        List.cons_prefix_cons, break_prefix_unixBreaks]
      refine or_congr_left (and_congr_right ?_)
      rintro rfl
      apply or_iff_right
      rintro ⟨u, rfl⟩
      exact hc u rfl rfl

/-- A second pass over the breaks finds nothing, unless a carriage return stands
in front of a long break. -/
theorem unixBreaks_unixBreaks : unixBreaks (unixBreaks t) = unixBreaks t ↔ ¬ ['\r', '\r', '\n'] <:+: t := by
  rw [unixBreaks_eq_self, long_break_infix_unixBreaks]

def HasBlankLine (t : Text) : Prop := ['\n', '\n'] <:+: t ∨ ['\n', '\r', '\n'] <:+: t

instance (t : Text) : Decidable (HasBlankLine t) :=
  decidable_of_iff (occursIn ['\n', '\n'] t || occursIn ['\n', '\r', '\n'] t) (by
    rw [Bool.or_eq_true, occursIn_iff, occursIn_iff, HasBlankLine])

theorem hasBlankLine_cons_of_ne (h : c ≠ '\n') : HasBlankLine (c :: t) ↔ HasBlankLine t := by
  rw [HasBlankLine, infix_cons_of_ne (Ne.symm h), infix_cons_of_ne (Ne.symm h), HasBlankLine]

theorem hasBlankLine_cons_break :
    HasBlankLine ('\n' :: t) ↔ ['\n'] <+: unixBreaks t ∨ HasBlankLine t := by
  simp only [HasBlankLine, List.infix_cons_iff, List.cons_prefix_cons, true_and, break_prefix_unixBreaks]
  exact or_or_or_comm ..

theorem HasBlankLine.mono (h : HasBlankLine t) (hu : t <:+: u) : HasBlankLine u :=
  h.imp (·.trans hu) (·.trans hu)

theorem HasBlankLine.mem (h : HasBlankLine t) : '\n' ∈ t := by
  rcases h with h | h
  · exact h.mem (by simp)
  · exact h.mem (by simp)

theorem blank_line_infix_unixBreaks : ['\n', '\n'] <:+: unixBreaks t ↔ HasBlankLine t := by
  induction t using unixBreaks.induct with
  | case1 => simp [unixBreaks, HasBlankLine]
  | case2 t ih =>
      rw [unixBreaks_break, pair_infix_cons, hasBlankLine_cons_of_ne (by decide), hasBlankLine_cons_break, ← ih]
  | case3 c t hc ih =>
      rw [unixBreaks_cons hc]
      by_cases h : c = '\n'
      · rw [h, pair_infix_cons, hasBlankLine_cons_break, ← ih]
      · rw [infix_cons_of_ne (Ne.symm h), hasBlankLine_cons_of_ne h, ← ih]

theorem getLast?_unixBreaks (t : Text) : (unixBreaks t).getLast? = t.getLast? := by
  induction t using unixBreaks.induct with
  | case1 => rfl
  | case2 t ih => simp [unixBreaks_break, List.getLast?_cons, ih]
  | case3 c t hc ih => simp [unixBreaks_cons hc, List.getLast?_cons, ih]

/-- No blank line lies across a seam that has a character of a line beside it. -/
theorem hasBlankLine_append (h : (∀ c ∈ t.getLast?, c ≠ '\r' ∧ c ≠ '\n') ∨ ∀ c ∈ u.head?, c ≠ '\r' ∧ c ≠ '\n') :
    HasBlankLine (t ++ u) ↔ HasBlankLine t ∨ HasBlankLine u := by
  have hseam : t.getLast? ≠ some '\r' ∨ u.head? ≠ some '\n' :=
    h.imp (fun ht hl => (ht _ hl).1 rfl) (fun hu hl => (hu _ hl).2 rfl)
  have hbreak : ¬ (t.getLast? = some '\n' ∧ (unixBreaks u).head? = some '\n') := by
    rintro ⟨hl, hh⟩
    rcases h with ht | hu
    · exact (ht _ hl).2 rfl
    · obtain ⟨v, hv⟩ := List.head?_eq_some_iff.1 hh
      rcases break_prefix_unixBreaks.1 ⟨v, hv.symm⟩ with ⟨w, rfl⟩ | ⟨w, rfl⟩
      · exact (hu _ rfl).2 rfl
      · exact (hu _ rfl).1 rfl
  rw [← blank_line_infix_unixBreaks, ← blank_line_infix_unixBreaks, ← blank_line_infix_unixBreaks,
    unixBreaks_append hseam, pair_infix_append, getLast?_unixBreaks]
  exact or_congr_right (or_iff_left hbreak)

end Ebnf.Text
