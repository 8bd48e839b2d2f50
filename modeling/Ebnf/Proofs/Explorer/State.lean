import Ebnf.Explorer.State
import Ebnf.Proofs.Explorer.Scroll

namespace Ebnf.Explorer

/-- What an explorer reacts to. Panes get any heights when it is drawn. -/
inductive Event
  | key (k : Key)
  | draw (h : Heights)
deriving DecidableEq, Repr

namespace State

def step (x : State) : Event → State
  | .key k => x.press k
  | .draw h => x.settle h

def run (x : State) (events : List Event) : State := events.foldl step x

/-- The rule list stays within the rules, whatever is selected and drawn. -/
structure Sound (s : Subject) (x : State) : Prop where
  subject : x.subject = s
  selected : x.selected < s.rules.length
  rulesScroll : x.rulesScroll < s.rules.length

/-- What every frame shows: the selected rule, and no row behind the last page. -/
structure Shown (x : State) (h : Heights) : Prop where
  rulesScroll : x.rulesScroll ≤ x.selected
  selected : x.selected < x.rulesScroll + Scroll.visible h.rules
  treeScroll : ∃ r, x.rule? = some r ∧ x.treeScroll ≤ (outline r).length - Scroll.visible h.tree
  sourceScroll : x.sourceScroll ≤ x.subject.lines.length - Scroll.visible h.source

variable {s : Subject} {x : State}

theorem Sound.exists_rule (hx : x.Sound s) : ∃ r ∈ s.rules, x.rule? = some r := by
  have hlt := hx.selected
  refine ⟨s.rules[x.selected], List.getElem_mem hlt, ?_⟩
  rw [rule?, hx.subject]
  exact List.getElem?_eq_getElem hlt

theorem Sound.select (hx : x.Sound s) (i : Nat) : (x.select i).Sound s := by
  obtain ⟨rfl, hlt, hr⟩ := hx
  rw [State.select]
  split
  · exact ⟨rfl, hlt, hr⟩
  · exact ⟨rfl, by dsimp only; omega, hr⟩

theorem Sound.move (hx : x.Sound s) (rule offset : Nat → Nat) : (x.move rule offset).Sound s := by
  rw [State.move]
  split
  · exact hx.select _
  · exact ⟨hx.subject, hx.selected, hx.rulesScroll⟩
  · exact ⟨hx.subject, hx.selected, hx.rulesScroll⟩

theorem Sound.press (hx : x.Sound s) (k : Key) : (x.press k).Sound s := by
  unfold State.press
  split
  all_goals first | exact hx.move _ _ | exact ⟨hx.subject, hx.selected, hx.rulesScroll⟩

theorem Sound.settle (hx : x.Sound s) (h : Heights) : (x.settle h).Sound s where
  subject := hx.subject
  selected := hx.selected
  rulesScroll := Nat.lt_of_le_of_lt (Scroll.follow_le (Scroll.one_le_visible _)) hx.selected

theorem Sound.step (hx : x.Sound s) (e : Event) : (x.step e).Sound s := by
  cases e with
  | key k => exact hx.press k
  | draw h => exact hx.settle h

theorem Sound.run (hx : x.Sound s) (events : List Event) : (x.run events).Sound s := by
  induction events generalizing x with
  | nil => exact hx
  | cons e events ih => exact ih (hx.step e)

theorem start_sound (hs : s.rules ≠ []) : (start s).Sound s := by
  have hpos := List.length_pos_iff.2 hs
  have hfirst : Sound s { subject := s } := ⟨rfl, hpos, hpos⟩
  exact hfirst.select 0

theorem Sound.shown (hx : x.Sound s) (h : Heights) : (x.settle h).Shown h := by
  obtain ⟨r, -, hr⟩ := hx.exists_rule
  have hv := Scroll.one_le_visible h.rules
  refine ⟨Scroll.follow_le hv, Scroll.lt_follow_add hv, ⟨r, hr, ?_⟩, Scroll.clamp_le⟩
  simp only [State.settle, hr, treeOffset, Option.elim_some]
  exact Scroll.clamp_le

theorem Shown.settle_eq {h : Heights} (hx : x.Shown h) : x.settle h = x := by
  obtain ⟨r, hr, ht⟩ := hx.treeScroll
  have hrules := Scroll.follow_eq_self hx.rulesScroll hx.selected
  have htree : treeOffset x.rule? h.tree x.treeScroll = x.treeScroll := by
    rw [hr]
    exact Scroll.clamp_eq_self ht
  have hsource := Scroll.clamp_eq_self hx.sourceScroll
  rw [State.settle, hrules, htree, hsource]

end State

end Ebnf.Explorer
