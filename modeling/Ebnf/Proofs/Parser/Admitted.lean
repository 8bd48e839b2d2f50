import Ebnf.Proofs.Parser.Language
import Ebnf.Proofs.Parser.Progress

namespace Ebnf

open Ebnf.Frame

variable {goal : Goal} {t : Token}

namespace Frame

/-- The outermost connective is one that the goal admits. -/
def Admitted (goal : Goal) (fs : List Frame) : Prop :=
  ∀ l c, fs.getLast? = some (.joined l c) → goal.admits c = true

variable {f : Frame} {fs gs : List Frame}

theorem admitted_nil : Admitted goal [] := by
  intro l c h
  cases h

theorem Admitted.cons (h : Admitted goal fs)
    (hf : fs = [] → ∀ l c, f = .joined l c → goal.admits c = true) : Admitted goal (f :: fs) := by
  intro l c hl
  cases fs with
  | nil => exact hf rfl l c (Option.some.inj hl)
  | cons g gs => exact h l c (by rwa [List.getLast?_cons_cons] at hl)

theorem Admitted.suffix (h : Admitted goal fs) (hs : gs <:+ fs) : Admitted goal gs := by
  intro l c hl
  obtain ⟨before, rfl⟩ := hs
  have hne : gs ≠ [] := by
    rintro rfl
    cases hl
  exact h l c (by rwa [List.getLast?_append_of_ne_nil _ hne])

end Frame

namespace Reading

theorem reduce_suffix (k : Nat) (e : Expr Span) (fs : List Frame) : (reduce k e fs).2 <:+ fs := by
  induction fs generalizing e with
  | nil => exact List.suffix_refl []
  | cons f fs ih =>
      cases f with
      | joined l c =>
          rw [reduce]
          split
          · exact (ih _).trans (List.suffix_cons _ _)
          · exact List.suffix_refl _
      | counted n span => exact (ih _).trans (List.suffix_cons _ _)
      | inside => exact List.suffix_refl _

/-- An operand that all frames have taken is held by the outermost of them. -/
theorem strength_reduce {k : Nat} {e : Expr Span} {fs : List Frame} (h : (reduce k e fs).2 = []) :
    (reduce k e fs).1.strength = (fs.getLast?.elim e.strength Frame.strength) := by
  induction fs generalizing e with
  | nil => rfl
  | cons f fs ih =>
      have hlast (e' : Expr Span) (he' : e'.strength = f.strength) :
          fs.getLast?.elim e'.strength Frame.strength = (f :: fs).getLast?.elim e.strength Frame.strength := by
        cases fs with
        | nil => exact he'
        | cons g gs => simp [List.getLast?_cons]
      cases f with
      | joined l c =>
          rw [reduce] at h ⊢
          split at h
          · next hc => rw [if_pos hc, ih h, hlast _ rfl]
          · cases h
      | counted n span => exact (ih h).trans (hlast _ rfl)
      | inside => cases h

/-- Only a connective that the goal admits can become the root. -/
structure Admitted (goal : Goal) (s : Reading) : Prop where
  frames : Frame.Admitted goal s.frames
  excepted : ∀ l minus, s = ⟨.excepted l minus, []⟩ → goal.admits .exception = true

theorem start_admitted : start.Admitted goal := ⟨admitted_nil, by simp [start]⟩

theorem Admitted.room {s : Reading} {fs : List Frame} (ha : s.Admitted goal) (hs : s.room? = some fs) :
    Frame.Admitted goal fs := by
  obtain ⟨focus, gs⟩ := s
  cases focus with
  | count | complete => cases hs
  | operand =>
      cases hs
      exact ha.frames
  | opened b span opened =>
      cases hs
      exact ha.frames.cons (by simp)
  | excepted l minus =>
      cases hs
      refine ha.frames.cons ?_
      rintro rfl l' c hc
      cases hc
      exact ha.excepted l minus rfl

theorem Admitted.reduced {s : Reading} {p : Expr Span × List Frame} (ha : s.Admitted goal) (hs : s.pending? = some p)
    {k : Nat} {e : Expr Span} {fs : List Frame} (hr : reduce k p.1 p.2 = (e, fs)) : Frame.Admitted goal fs := by
  have hsuffix := reduce_suffix k p.1 p.2
  rw [hr] at hsuffix
  obtain ⟨focus, gs⟩ := s
  cases focus with
  | operand | count | opened => cases hs
  | excepted | complete =>
      cases hs
      exact ha.frames.suffix hsuffix

theorem read?_admitted {s s' : Reading} (ha : s.Admitted goal) (h : s.read? goal t = some s') :
    s'.Admitted goal := by
  cases step_of_read? h with
  | atom hs | integer hs | opening hs => exact ⟨ha.room hs, by simp⟩
  | star => exact ⟨ha.frames.cons (by simp), by simp⟩
  | empty => exact ⟨ha.frames, by simp⟩
  | minus hs _ hr hg => exact ⟨ha.reduced hs hr, fun l minus hl => hg (congrArg Reading.frames hl)⟩
  | join hs _ _ hr hg =>
      refine ⟨(ha.reduced hs hr).cons ?_, by simp⟩
      rintro hn l d hd
      cases hd
      exact hg hn
  | close hs _ hr => exact ⟨(ha.reduced hs hr).suffix (List.suffix_cons _ _), by simp⟩

theorem reads?_follows {s s' : Reading} {us : List Token} (hc : s.Consistent) (ha : s.Admitted goal)
    (h : s.reads? goal us = some s') :
    s'.Consistent ∧ s'.Admitted goal ∧ s'.kinds = s.kinds ++ us.map (·.kind) := by
  induction us generalizing s with
  | nil =>
      cases h
      exact ⟨hc, ha, (List.append_nil _).symm⟩
  | cons u us ih =>
      rw [reads?_cons] at h
      obtain ⟨s₁, h₁, h⟩ := Option.bind_eq_some_iff.1 h
      obtain ⟨hc₁, hk₁⟩ := read?_consistent hc h₁
      obtain ⟨hc', ha', hk'⟩ := ih hc₁ (read?_admitted ha h₁) h
      exact ⟨hc', ha', by rw [hk', hk₁, List.append_assoc]; rfl⟩

end Reading

end Ebnf
