import Ebnf.Parser.Cursor
import Ebnf.Proofs.Parser.Frames
import Ebnf.Proofs.Parser.Step
import Mathlib.Data.List.Forall2

namespace Ebnf

open Ebnf.Frame

def Focus.kinds : Focus → List Kind
  | .operand => []
  | .count n _ => [.integer n]
  | .opened b _ _ => [.mark (.opening b)]
  | .excepted l _ => l.yield ++ [.mark (.operator (.joining .exception))]
  | .complete e => e.yield

/-- A complete operand is as strong as can be, and what stands in front of an
exception has been reduced for it. -/
def Focus.FitsIn (fs : List Frame) : Focus → Prop
  | .excepted l _ => l.WellBound ∧ 3 ≤ l.strength ∧ Below 3 fs
  | .complete e => e.WellBound ∧ e.strength = 4
  | _ => True

namespace Reading

def kinds (s : Reading) : List Kind := allKinds s.frames ++ s.focus.kinds

structure Consistent (s : Reading) : Prop where
  stacked : Stacked s.frames
  fits : s.focus.FitsIn s.frames

theorem start_consistent : start.Consistent := ⟨trivial, trivial⟩

theorem room_consistent {s : Reading} {fs : List Frame} (hc : s.Consistent) (hs : s.room? = some fs) :
    Stacked fs ∧ allKinds fs = s.kinds := by
  obtain ⟨focus, gs⟩ := s
  cases focus with
  | count | complete => cases hs
  | operand =>
      cases hs
      exact ⟨hc.stacked, (List.append_nil _).symm⟩
  | opened b span opened =>
      cases hs
      exact ⟨⟨trivial, below_four gs, hc.stacked⟩, rfl⟩
  | excepted l minus =>
      cases hs
      exact ⟨⟨⟨hc.fits.2.1, hc.fits.1⟩, hc.fits.2.2, hc.stacked⟩, rfl⟩

structure Behind (e : Expr Span) (fs : List Frame) : Prop where
  wellBound : e.WellBound
  strong : 3 ≤ e.strength
  below : Below e.strength fs
  stacked : Stacked fs

theorem Behind.reduced {e : Expr Span} {fs : List Frame} (h : Behind e fs) {k : Nat} (hk : 1 ≤ k)
    (hk' : k ≤ 3) : Reduced k e fs (reduce k e fs) :=
  reduce_reduced hk h.wellBound (Nat.le_trans hk' h.strong) h.below h.stacked

theorem behind_of_pending {s : Reading} {p : Expr Span × List Frame} (hc : s.Consistent) (hs : s.pending? = some p) :
    Behind p.1 p.2 := by
  obtain ⟨focus, fs⟩ := s
  cases focus with
  | operand | count | opened => cases hs
  | excepted l minus =>
      cases hs
      exact ⟨⟨hc.fits.2.1, hc.fits.1⟩, Nat.le_refl 3, hc.fits.2.2, hc.stacked⟩
  | complete e =>
      cases hs
      have h4 : e.strength = 4 := hc.fits.2
      have hstrong : 3 ≤ e.strength := by omega
      exact ⟨hc.fits.1, hstrong, h4 ▸ below_four fs, hc.stacked⟩

theorem kinds_of_pending {s : Reading} {p : Expr Span × List Frame} (hs : s.pending? = some p) :
    s.kinds = allKinds p.2 ++ p.1.yield := by
  obtain ⟨focus, fs⟩ := s
  cases focus with
  | operand | count | opened => cases hs
  | excepted | complete => cases hs; rfl

/-- One token more keeps a reading consistent, and nothing of it is lost. -/
theorem read?_consistent {goal : Goal} {s s' : Reading} {t : Token} (hc : s.Consistent)
    (h : s.read? goal t = some s') : s'.Consistent ∧ s'.kinds = s.kinds ++ [t.kind] := by
  cases step_of_read? h with
  | atom hs ht =>
      obtain ⟨hf, hk⟩ := room_consistent hc hs
      rw [← hk, ht]
      exact ⟨⟨hf, trivial, rfl⟩, rfl⟩
  | integer hs ht | opening hs ht =>
      obtain ⟨hf, hk⟩ := room_consistent hc hs
      rw [← hk, ht]
      exact ⟨⟨hf, trivial⟩, rfl⟩
  | star ht =>
      rw [ht]
      exact ⟨⟨⟨trivial, below_four _, hc.stacked⟩, trivial⟩, by simp [kinds, Focus.kinds, allKinds, Frame.kinds]⟩
  | empty ht =>
      rw [ht]
      exact ⟨⟨hc.stacked, trivial, rfl⟩, by simp [kinds, Focus.kinds, Expr.yield]⟩
  | @minus _ p e fs hs ht hr _ =>
      have hred := (behind_of_pending hc hs).reduced Connective.exception.one_le_strength
        Connective.exception.strength_le_three
      rw [hr] at hred
      have hy : allKinds fs ++ e.yield = s.kinds := hred.kinds.trans (kinds_of_pending hs).symm
      rw [← hy, ht]
      exact ⟨⟨hred.stacked, hred.wellBound, hred.strong, hred.below⟩, by simp [kinds, Focus.kinds]⟩
  | @join _ p c e fs hs ht _ hr _ =>
      have hred := (behind_of_pending hc hs).reduced c.one_le_strength c.strength_le_three
      rw [hr] at hred
      have hy : allKinds fs ++ e.yield = s.kinds := hred.kinds.trans (kinds_of_pending hs).symm
      rw [← hy, ht]
      exact ⟨⟨⟨⟨hred.strong, hred.wellBound⟩, hred.below, hred.stacked⟩, trivial⟩,
        by simp [kinds, Focus.kinds, allKinds, Frame.kinds]⟩
  | @close _ p b e span opened fs hs ht hr =>
      have hred := (behind_of_pending hc hs).reduced (Nat.le_refl 1) (by decide)
      rw [← reduce_zero, hr] at hred
      have hy : allKinds (.inside b span opened :: fs) ++ e.yield = s.kinds :=
        hred.kinds.trans (kinds_of_pending hs).symm
      rw [← hy, ht]
      exact ⟨⟨hred.stacked.2.2, hred.wellBound, rfl⟩,
        by simp [kinds, Focus.kinds, Expr.yield, allKinds, Frame.kinds]⟩

/-- In front of the end of an expression all frames give up their operand. Only
a single operand is not reduced. -/
theorem settleOperand_eq_ok {goal : Goal} {e e' : Expr Span} {fs : List Frame} {t : Token} (hb : Behind e fs)
    (h : settleOperand goal e fs t = .ok e') :
    goal = .operand ∧ fs = [] ∧ e' = e ∨
      t.kind ≠ .mark (.operator .counting) ∧ reduce 1 e fs = (e', []) := by
  rw [settleOperand] at h
  split at h
  · next hg =>
      cases h
      exact .inl ⟨hg.1, hg.2, rfl⟩
  split at h
  · cases h
  next hk =>
    right
    rw [reduce_zero] at h
    have hr := hb.reduced (Nat.le_refl 1) (by omega)
    generalize reduce 1 e fs = p at h hr
    obtain ⟨e₁, fs₁⟩ := p
    cases fs₁ with
    | nil =>
        cases h
        exact ⟨hk, rfl⟩
    | cons f fs₁ =>
        have hf := below_cons.1 hr.below
        cases f with
        | joined l c => exact absurd hf (Nat.not_lt_of_le c.one_le_strength)
        | counted n span => exact absurd hf (Nat.not_lt_of_le (show 1 ≤ 3 by omega))
        | inside b span opened => cases h

theorem settleOperand_ok {goal : Goal} {e e' : Expr Span} {fs : List Frame} {t : Token} (hb : Behind e fs)
    (h : settleOperand goal e fs t = .ok e') : e'.WellBound ∧ e'.yield = allKinds fs ++ e.yield := by
  rcases settleOperand_eq_ok hb h with ⟨-, rfl, rfl⟩ | ⟨-, hr⟩
  · exact ⟨hb.wellBound, rfl⟩
  · have hred := hb.reduced (Nat.le_refl 1) (by omega)
    rw [hr] at hred
    exact ⟨hred.wellBound, hred.kinds⟩

theorem pending_of_settle {goal : Goal} {s : Reading} {t : Token} {e : Expr Span} (h : s.settle goal t = .ok e) :
    ∃ p, s.pending? = some p := by
  obtain ⟨focus, fs⟩ := s
  cases focus with
  | operand | count | opened => cases h
  | excepted | complete => exact ⟨_, rfl⟩

theorem settle_ok {goal : Goal} {s : Reading} {t : Token} {e : Expr Span} (hc : s.Consistent)
    (h : s.settle goal t = .ok e) : e.WellBound ∧ e.yield = s.kinds := by
  obtain ⟨p, hs⟩ := pending_of_settle h
  rw [settle_of_pending t hs] at h
  rw [kinds_of_pending hs]
  exact settleOperand_ok (behind_of_pending hc hs) h

end Reading

structure Rule.MadeOf (r : Rule Span) (ts : List Token) : Prop where
  wellBound : r.WellBound
  kinds : ts.map (·.kind) = r.yield

namespace Phase

def headKinds (h : Head) : List Kind := [.identifier h.name, .mark .equals]

def kinds : Phase → List Kind
  | .name => []
  | .equals h => [.identifier h.name]
  | .body h => headKinds h
  | .within h s => headKinds h ++ s.kinds

def Consistent : Phase → Prop
  | .within _ s => s.Consistent
  | _ => True

structure Follows (p : Phase) (ts : List Token) : Prop where
  consistent : p.Consistent
  kinds : ts.map (·.kind) = p.kinds

theorem name_follows : Follows .name [] := ⟨trivial, rfl⟩

theorem Follows.eq_nil {ts : List Token} (h : Follows .name ts) : ts = [] := by
  simpa [Phase.kinds] using h.kinds

theorem Follows.push {p q : Phase} {ts : List Token} {t : Token} (hp : p.Follows ts) (hq : q.Consistent)
    (hk : q.kinds = p.kinds ++ [t.kind]) : q.Follows (ts ++ [t]) :=
  ⟨hq, by rw [List.map_append, hp.kinds, hk]; rfl⟩

theorem Follows.finish {p : Phase} {ts : List Token} {t : Token} {h : Head} (hp : p.Follows ts)
    {body : Option (Expr Span)} (hw : ∀ e ∈ body, e.WellBound)
    (hk : p.kinds = headKinds h ++ bodyYield body) (ht : t.kind = .mark .semicolon) :
    (h.rule body t.span).MadeOf (ts ++ [t]) := by
  refine ⟨hw, ?_⟩
  rw [List.map_append, hp.kinds, hk]
  simp [Head.rule, Rule.yield, headKinds, ht]

theorem read?_follows {p q : Phase} {ts : List Token} {t : Token} (hp : p.Follows ts)
    (h : p.read? t = some (.inl q)) : q.Follows (ts ++ [t]) := by
  cases step_of_read? h with
  | name ht =>
      obtain rfl := hp.eq_nil
      exact ⟨trivial, by simp [Phase.kinds, ht]⟩
  | equals ht => exact hp.push trivial (by rw [ht]; rfl)
  | @first hd _ hs =>
      obtain ⟨hc, hk⟩ := Reading.read?_consistent Reading.start_consistent hs
      exact hp.push hc (congrArg (headKinds hd ++ ·) hk)
  | next hs =>
      obtain ⟨hc, hk⟩ := Reading.read?_consistent hp.consistent hs
      exact hp.push hc (by rw [Phase.kinds, hk, ← List.append_assoc]; rfl)

theorem read?_madeOf {p : Phase} {ts : List Token} {t : Token} {r : Rule Span} (hp : p.Follows ts)
    (h : p.read? t = some (.inr r)) : r.MadeOf (ts ++ [t]) := by
  cases step_of_read? h with
  | absent ht => exact hp.finish (by simp) rfl ht
  | ended hs ht =>
      obtain ⟨hw, hy⟩ := Reading.settle_ok hp.consistent hs
      exact hp.finish (by simpa using hw) (by rw [Phase.kinds, ← hy]; rfl) ht

end Phase

theorem readRules_ok {stop : Token} {p : Phase} {ts us rest : List Token} {rs : List (Rule Span)}
    (hp : p.Follows us) (h : readRules stop p ts = .ok rs rest) :
    rest = [] ∧ ∃ segs, us ++ ts = segs.flatten ∧ List.Forall₂ Rule.MadeOf rs segs := by
  -- `us` are the tokens of the rule that has been begun
  induction ts generalizing p us rs with
  | nil =>
      cases p with
      | name =>
          cases h
          exact ⟨rfl, [], by rw [hp.eq_nil]; rfl, .nil⟩
      | _ => simp [readRules] at h
  | cons t ts ih =>
      rw [readRules] at h
      split at h
      · next q hq =>
          obtain ⟨hr, segs, hs, hf⟩ := ih (Phase.read?_follows hp hq) h
          exact ⟨hr, segs, by rw [← hs, List.append_assoc]; rfl, hf⟩
      · next r hr =>
          cases ho : readRules stop .name ts with
          | error e rest' => rw [ho] at h; cases h
          | ok rs' rest' =>
              rw [ho] at h
              cases h
              obtain ⟨hr', segs, hs, hf⟩ := ih Phase.name_follows ho
              refine ⟨hr', (us ++ [t]) :: segs, ?_, .cons (Phase.read?_madeOf hp hr) hf⟩
              rw [List.flatten_cons, ← hs]
              simp
      · cases h

end Ebnf
