import Ebnf.Text.Blank
import Ebnf.Proofs.Text.Breaks

namespace Ebnf.Blank

variable {n t : Text}

theorem trimLeft_eq_self (h : ∀ c ∈ t.head?, isBlank c = false) : trimLeft t = t := by
  cases t with
  | nil => rfl
  | cons c t => simp [trimLeft, h c rfl]

theorem head?_trimLeft (t : Text) : ∀ c ∈ (trimLeft t).head?, isBlank c = false := by
  intro c hc
  have := List.head?_dropWhile_not isBlank t
  rw [← trimLeft, Option.mem_def.1 hc] at this
  exact this

theorem trimLeft_space (t : Text) : trimLeft (' ' :: t) = trimLeft t := rfl

theorem getLast?_trim (t : Text) : ∀ c ∈ (trim t).getLast?, isBlank c = false := by
  rw [trim, List.getLast?_reverse]
  exact head?_trimLeft _

theorem trim_prefix_trimLeft (t : Text) : trim t <+: trimLeft t := by
  have h : trimLeft (trimLeft t).reverse <:+ (trimLeft t).reverse := List.dropWhile_suffix _
  rw [← List.reverse_reverse (trimLeft t)]
  exact List.reverse_prefix.2 h

theorem head?_trim (t : Text) : ∀ c ∈ (trim t).head?, isBlank c = false := by
  intro c hc
  obtain ⟨u, hu⟩ := trim_prefix_trimLeft t
  refine head?_trimLeft t c ?_
  rw [← hu, List.head?_append, Option.mem_def.1 hc]
  rfl

theorem trim_infix_self (t : Text) : trim t <:+: t :=
  (trim_prefix_trimLeft t).isInfix.trans (List.dropWhile_suffix _).isInfix

theorem trim_spaced (t : Text) : trim (' ' :: trim t ++ [' ']) = trim t := by
  cases h : trim t with
  | nil => rfl
  | cons c u =>
      have hl : trimLeft (' ' :: (c :: u) ++ [' ']) = c :: u ++ [' '] := by
        refine trimLeft_eq_self (t := c :: u ++ [' ']) fun d hd => head?_trim t d ?_
        rw [h]
        exact hd
      have hr : trimLeft (c :: u).reverse = (c :: u).reverse := by
        refine trimLeft_eq_self fun d hd => getLast?_trim t d ?_
        rw [h, ← List.head?_reverse]
        exact hd
      rw [trim, hl, List.reverse_append, List.reverse_singleton, List.singleton_append, trimLeft_space, hr,
        List.reverse_reverse]

section

variable (hn : ∀ c ∈ n, isBlank c = false)
include hn

theorem infix_trimLeft : n <:+: trimLeft t ↔ n <:+: t := by
  induction t with
  | nil => rfl
  | cons c t ih =>
      cases n with
      | nil => simp
      | cons d n =>
          by_cases hc : isBlank c = true
          · have hdc : d ≠ c := by
              rintro rfl
              rw [hn d List.mem_cons_self] at hc
              cases hc
            rw [trimLeft, List.dropWhile_cons_of_pos hc, ← trimLeft, ih, Text.infix_cons_of_ne hdc]
          · rw [trimLeft, List.dropWhile_cons_of_neg hc]

theorem infix_trim : n <:+: trim t ↔ n <:+: t := by
  have hr : ∀ c ∈ n.reverse, isBlank c = false := fun c hc => hn c (List.mem_reverse.1 hc)
  rw [trim, ← List.reverse_infix, List.reverse_reverse, infix_trimLeft hr, List.reverse_infix, infix_trimLeft hn]

theorem infix_spaced : n <:+: ' ' :: t ++ [' '] ↔ n <:+: t := by
  have hsp (u : Text) {m : Text} (hm : ∀ c ∈ m, isBlank c = false) : m <:+: ' ' :: u ↔ m <:+: u := by
    rw [← infix_trimLeft hm, trimLeft_space, infix_trimLeft hm]
  have hr : ∀ c ∈ n.reverse, isBlank c = false := fun c hc => hn c (List.mem_reverse.1 hc)
  rw [List.cons_append, hsp _ hn, ← List.reverse_infix, List.reverse_append, List.reverse_singleton,
    List.singleton_append, hsp _ hr, List.reverse_infix]

end

end Ebnf.Blank
