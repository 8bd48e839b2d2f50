import Ebnf.Proofs.Explorer.Reachable
import Ebnf.Proofs.Explorer.RuleLines

namespace Ebnf.Explorer

def Key.selects : Key → Bool
  | .up | .down | .first | .last => true
  | _ => false

/-- What a frame gives to the rule list: which rule is selected, and how many rows
there are for the rules. -/
structure Glimpse where
  selected : Nat
  rows : Nat
deriving DecidableEq, Repr

def Scroll.followGlimpse (offset : Nat) (g : Glimpse) : Nat := follow g.selected g.rows offset

/-- After some frames an offset is behind `n` just if it was from the start and no
frame selected a rule in front of that, or if a frame could not show its rule
from `n` and all later frames selected rules behind `n`. -/
theorem Scroll.lt_foldl_followGlimpse_iff {gs : List Glimpse} (hgs : ∀ g ∈ gs, 1 ≤ g.rows) (n offset : Nat) :
    n < gs.foldl followGlimpse offset ↔ n < offset ∧ (∀ g ∈ gs, n < g.selected) ∨
      ∃ g later, g :: later <:+ gs ∧ n + g.rows ≤ g.selected ∧ ∀ g' ∈ later, n < g'.selected := by
  induction gs generalizing offset with
  | nil => simp
  | cons g gs ih =>
      obtain ⟨hg, hgs⟩ := List.forall_mem_cons.1 hgs
      rw [List.foldl_cons, ih hgs, followGlimpse, lt_follow_iff hg, List.forall_mem_cons]
      constructor
      · rintro (⟨⟨hsel, hn | hfar⟩, hall⟩ | ⟨g', later, hsuffix, h⟩)
        · exact .inl ⟨hn, hsel, hall⟩
        · exact .inr ⟨g, gs, List.suffix_refl _, hfar, hall⟩
        · exact .inr ⟨g', later, hsuffix.trans (List.suffix_cons g gs), h⟩
      · rintro (⟨hn, hsel, hall⟩ | ⟨g', later, hsuffix, hfar, hall⟩)
        · exact .inl ⟨⟨hsel, .inl hn⟩, hall⟩
        · rcases List.suffix_cons_iff.1 hsuffix with he | hsuffix
          · obtain ⟨rfl, rfl⟩ := List.cons.inj he
            exact .inl ⟨⟨by omega, .inr hfar⟩, hall⟩
          · exact .inr ⟨g', later, hsuffix, hfar, hall⟩

namespace State

variable {s : Subject} {x : State}

/-- An explorer that has been opened, or that has just got a key that selects a
rule, whatever happened before. -/
inductive Fresh (s : Subject) : State → Prop
  | opened : Fresh s (start s)
  | pressed {events : List Event} {k : Key} (hf : ((start s).run events).focus = .rules) (hk : k.selects = true) :
      Fresh s (((start s).run events).press k)

theorem press_of_selects {k : Key} (hf : x.focus = .rules) (hk : k.selects = true) : ∃ i, x.press k = x.select i := by
  cases k with
  | up | down | first | last => exact ⟨_, by rw [press, move, hf]⟩
  | _ => cases hk

theorem Fresh.exists_select (hs : s.rules ≠ []) (hx : x.Fresh s) :
    ∃ (y : State) (i : Nat), y.Sound s ∧ x = State.select y i := by
  cases hx with
  | opened =>
      have hpos := List.length_pos_iff.2 hs
      exact ⟨_, 0, ⟨rfl, hpos, hpos⟩, rfl⟩
  | @pressed events k hf hk =>
      obtain ⟨i, hi⟩ := press_of_selects hf hk
      exact ⟨_, i, (start_sound hs).run events, hi⟩

theorem lines?_ofDocument {source fileName : Text} {d : Document} (hx : x.subject = .ofDocument d source fileName) :
    x.lines? = x.rule?.map (·.place.lineRange source) := by
  rw [lines?, rule?, hx]
  exact List.getElem?_map ..

theorem Sound.sourceScroll_select (hx : x.Sound s) (i : Nat) {range : Nat × Nat}
    (hr : (x.select i).lines? = some range) : (x.select i).sourceScroll = range.1 - (1 + contextLines) := by
  have hne : ¬ x.subject.rules.isEmpty := by
    rw [List.isEmpty_iff, hx.subject]
    exact List.length_pos_iff.1 (Nat.lt_of_le_of_lt (Nat.zero_le _) hx.selected)
  rw [State.select, if_neg hne] at hr ⊢
  simp only [lines?] at hr
  simp only [hr]

def glimpses (x : State) : List Event → List Glimpse
  | [] => []
  | .key k :: events => (x.press k).glimpses events
  | .draw h :: events => ⟨x.selected, Scroll.visible h.rules⟩ :: (x.settle h).glimpses events

theorem rulesScroll_select (x : State) (i : Nat) : (x.select i).rulesScroll = x.rulesScroll := by
  rw [select]
  split <;> rfl

theorem rulesScroll_move (x : State) (rule offset : Nat → Nat) : (x.move rule offset).rulesScroll = x.rulesScroll := by
  rw [move]
  split
  · exact x.rulesScroll_select _
  · rfl
  · rfl

theorem rulesScroll_press (x : State) (k : Key) : (x.press k).rulesScroll = x.rulesScroll := by
  unfold press
  split
  all_goals first | exact x.rulesScroll_move _ _ | rfl

theorem rulesScroll_run (x : State) (events : List Event) :
    (x.run events).rulesScroll = (x.glimpses events).foldl Scroll.followGlimpse x.rulesScroll := by
  induction events generalizing x with
  | nil => rfl
  | cons e events ih =>
      cases e with
      | key k =>
          have hrest := ih (x.press k)
          rw [rulesScroll_press] at hrest
          exact hrest
      | draw h => exact ih (x.settle h)

theorem mem_glimpses {events : List Event} {g : Glimpse} (hg : g ∈ x.glimpses events) :
    ∃ h, .draw h ∈ events ∧ g.rows = Scroll.visible h.rules := by
  induction events generalizing x with
  | nil => cases hg
  | cons e events ih =>
      cases e with
      | key k =>
          obtain ⟨h, hh, hr⟩ := ih hg
          exact ⟨h, List.mem_cons_of_mem _ hh, hr⟩
      | draw h =>
          rcases List.mem_cons.1 hg with rfl | hg
          · exact ⟨h, List.mem_cons_self, rfl⟩
          · obtain ⟨h', hh, hr⟩ := ih hg
            exact ⟨h', List.mem_cons_of_mem _ hh, hr⟩

theorem Sound.selected_of_mem_glimpses (hx : x.Sound s) {events : List Event} {g : Glimpse}
    (hg : g ∈ x.glimpses events) : g.selected < s.rules.length := by
  induction events generalizing x with
  | nil => cases hg
  | cons e events ih =>
      cases e with
      | key k => exact ih (hx.press k) hg
      | draw h =>
          rcases List.mem_cons.1 hg with rfl | hg
          · exact hx.selected
          · exact ih (hx.settle h) hg

end State

open State

/-- The first line of a rule that has just been selected shows if there are rows
for it below the lines that are kept above, or if it is among the first lines of
the text. In a pane with fewer rows it does not show. -/
theorem first_line_shows_iff {source fileName : Text} {d : Document} (h : Document.ofSource source = .ok d) {x : State}
    (hx : x.Fresh (.ofDocument d source fileName)) {heights : Heights} (hrows : 1 ≤ heights.source - 2) :
    ∃ r ∈ d.grammar.rules, x.rule? = some r ∧
      let first := (r.place.lineRange source).1
      let y := x.settle heights
      y.sourceScroll ≤ first - 1 ∧
        (first - 1 < y.sourceScroll + (heights.source - 2) ↔
          first ≤ heights.source - 2 ∨ contextLines < heights.source - 2) := by
  obtain ⟨ps, trail, hp⟩ := Document.printed_of_ofSource h
  have hne : (Subject.ofDocument d source fileName).rules ≠ [] := hp.rules_ne_nil
  obtain ⟨y, i, hy, rfl⟩ := hx.exists_select hne
  have hsound := hy.select i
  obtain ⟨r, hr, hrule⟩ := hsound.exists_rule
  have hlines := lines?_ofDocument hsound.subject
  rw [hrule] at hlines
  have haim := hy.sourceScroll_select i hlines
  obtain ⟨hone, hle, hlast⟩ := (marked h hr).displayed
  have htotal : (y.select i).subject.lines.length = (highlight source d.tokens).length := by
    rw [hsound.subject]
    rfl
  have hvisible : Scroll.visible heights.source = heights.source - 2 := Nat.max_eq_left hrows
  have hline : (r.place.lineRange source).1 - 1 < (highlight source d.tokens).length := by omega
  have hshows := Scroll.clamp_shows_iff hline (heights.source - 2) contextLines
  refine ⟨r, hr, hrule, ?_⟩
  simp only [settle, htotal, hvisible, haim, Nat.sub_add_eq]
  rw [hshows.2]
  exact ⟨hshows.1, by omega⟩

theorem first_line_shows_of_three_rows :
    let source : Text := "(*\n\n*) a = x ;\nb\n= y ;\nc = ;\nd = z ;\n".toList
    let events : List Event := [.key .tab, .key .tab, .key .last, .draw ⟨3, 3, 4⟩, .key .tab]
    let heights : Heights := ⟨3, 3, 5⟩
    ∃ d, Document.ofSource source = .ok d ∧
      let s := Subject.ofDocument d source []
      let x := ((State.start s).run events).press .down
      x.Fresh s ∧ 1 ≤ heights.source - 2 ∧ ∃ r ∈ d.grammar.rules, x.rule? = some r ∧
        (r.place.lineRange source).1 = 4 ∧ (x.settle heights).sourceScroll ≤ 4 - 1 ∧
        4 - 1 < (x.settle heights).sourceScroll + (heights.source - 2) := by
  intro source events heights
  obtain ⟨d, hd, hx⟩ : ∃ d, Document.ofSource source = .ok d ∧
      (let x := (State.start (.ofDocument d source [])).run events
       (x.focus, (x.press .down).rule?.map (·.place.lineRange source))) = (.rules, some (4, 5)) :=
    exists_of_map_eq_ok (by decide +kernel)
  obtain ⟨hfocus, hrule⟩ := Prod.mk.inj hx
  have hfresh := Fresh.pressed (k := .down) hfocus rfl
  have hrows : 1 ≤ heights.source - 2 := by decide
  obtain ⟨r, hr, hr', hle, hshows⟩ := first_line_shows_iff hd hfresh hrows
  have hfirst : (r.place.lineRange source).1 = 4 := by
    rw [hr'] at hrule
    exact congrArg Prod.fst (Option.some.inj hrule)
  rw [hfirst] at hle hshows
  exact ⟨d, hd, hfresh, hrows, r, hr, hr', hfirst, hle, hshows.2 (.inr (by decide))⟩

/-- Three rules on three lines, and two rows for the source: the last rule is
selected and the first two lines show. -/
theorem first_line_not_shown :
    let source : Text := "a = x ;\nb = y ;\nc = z ;\n".toList
    let heights : Heights := ⟨8, 4, 4⟩
    ∃ d, Document.ofSource source = .ok d ∧
      let s := Subject.ofDocument d source []
      let x := (State.start s).press .last
      x.Fresh s ∧ 1 ≤ heights.source - 2 ∧ (∃ r, x.rule? = some r ∧ (r.place.lineRange source).1 = 3) ∧
        ¬ 3 - 1 < (x.settle heights).sourceScroll + (heights.source - 2) := by
  intro source heights
  obtain ⟨d, hd, hx⟩ : ∃ d, Document.ofSource source = .ok d ∧
      (let x := State.start (.ofDocument d source [])
       (x.focus, (x.press .last).rule?.map (·.place.lineRange source), ((x.press .last).settle heights).sourceScroll)) =
        (.rules, some (3, 3), 0) :=
    exists_of_map_eq_ok (by decide +kernel)
  obtain ⟨hfocus, hx⟩ := Prod.mk.inj hx
  obtain ⟨hrule, hscroll⟩ := Prod.mk.inj hx
  obtain ⟨r, hr, hrange⟩ := Option.map_eq_some_iff.1 hrule
  have hfresh : ((State.start (.ofDocument d source [])).press .last).Fresh (.ofDocument d source []) :=
    @Fresh.pressed _ [] .last hfocus rfl
  refine ⟨d, hd, hfresh, by decide, ⟨r, hr, by rw [hrange]⟩, ?_⟩
  rw [hscroll]
  decide

/-- The rule list is scrolled behind its last page just if a rule was drawn that
does not show from there, and since then only rules behind the beginning of that
page. As long as the pane gets no higher, this does not happen. -/
theorem rulesScroll_le_iff {source : Text} {d : Document} (h : Document.ofSource source = .ok d) (fileName : Text)
    (events : List Event) (heights : Heights) :
    let x := start (.ofDocument d source fileName)
    let rows := Scroll.visible heights.rules
    let last := d.grammar.rules.length - rows
    let y := (x.run events).settle heights
    (y.rulesScroll ≤ last ↔ ∀ g later, g :: later <:+ x.glimpses (events ++ [.draw heights]) →
      (∀ g' ∈ later, last < g'.selected) → g.selected < last + g.rows) ∧
    ((∀ heights', .draw heights' ∈ events → rows ≤ Scroll.visible heights'.rules) → y.rulesScroll ≤ last) := by
  intro x rows last y
  obtain ⟨ps, trail, hp⟩ := Document.printed_of_ofSource h
  have hx : x.Sound (.ofDocument d source fileName) := start_sound hp.rules_ne_nil
  have hrun : x.run (events ++ [.draw heights]) = y := List.foldl_append
  have hzero : x.rulesScroll = 0 := rulesScroll_select _ 0
  have hrows : ∀ g ∈ x.glimpses (events ++ [.draw heights]), 1 ≤ g.rows := by
    intro g hg
    obtain ⟨h', -, hr⟩ := mem_glimpses hg
    exact hr ▸ Scroll.one_le_visible _
  have hiff : y.rulesScroll ≤ last ↔ ∀ g later, g :: later <:+ x.glimpses (events ++ [.draw heights]) →
      (∀ g' ∈ later, last < g'.selected) → g.selected < last + g.rows := by
    have hbehind := Scroll.lt_foldl_followGlimpse_iff hrows last x.rulesScroll
    rw [← rulesScroll_run, hrun, hzero] at hbehind
    rw [← Nat.not_lt, hbehind]
    grind
  refine ⟨hiff, fun hgrow => hiff.2 fun g later hsuffix _ => ?_⟩
  have hg : g ∈ x.glimpses (events ++ [.draw heights]) := hsuffix.subset List.mem_cons_self
  have hsel : g.selected < d.grammar.rules.length := hx.selected_of_mem_glimpses hg
  obtain ⟨h', hh, hr⟩ := mem_glimpses hg
  have hle : rows ≤ g.rows := by
    rw [hr]
    rcases List.mem_append.1 hh with hh | hh
    · exact hgrow h' hh
    · obtain ⟨⟩ := List.mem_singleton.1 hh
      exact Nat.le_refl _
  omega

theorem rulesScroll_le_of_shrinking_pane :
    let source : Text := "a=;b=;c=;d=;e=;".toList
    let events : List Event := [.key .last, .draw ⟨6, 2, 2⟩, .key .first, .draw ⟨5, 2, 2⟩, .key .last]
    let heights : Heights := ⟨4, 1, 1⟩
    ∃ d, Document.ofSource source = .ok d ∧
      let rows := Scroll.visible heights.rules
      (∀ heights', .draw heights' ∈ events → rows ≤ Scroll.visible heights'.rules) ∧
      (((State.start (.ofDocument d source [])).run events).settle heights).rulesScroll ≤
        d.grammar.rules.length - rows := by
  intro source events heights
  obtain ⟨d, hd, -⟩ : ∃ d, Document.ofSource source = .ok d ∧ d.grammar.rules.length = 5 :=
    exists_of_map_eq_ok (by decide +kernel)
  have hgrow : ∀ heights', .draw heights' ∈ events → Scroll.visible heights.rules ≤ Scroll.visible heights'.rules := by
    simp [events, heights, Scroll.visible]
  exact ⟨d, hd, hgrow, (rulesScroll_le_iff hd [] events heights).2 hgrow⟩

/-- Two rules in a pane with one row, which then gets a second one: the second
rule stays on top, although there is room for both. -/
theorem rulesScroll_behind_last_page :
    let source : Text := "a = x ;\nb = y ;\n".toList
    let events : List Event := [.key .last, .draw ⟨3, 2, 1⟩]
    let heights : Heights := ⟨4, 2, 2⟩
    ∃ d, Document.ofSource source = .ok d ∧
      d.grammar.rules.length ≤ Scroll.visible heights.rules ∧
      ¬ (((State.start (.ofDocument d source [])).run events).settle heights).rulesScroll ≤
        d.grammar.rules.length - Scroll.visible heights.rules := by
  intro source events heights
  obtain ⟨d, hd, hx⟩ : ∃ d, Document.ofSource source = .ok d ∧
      (d.grammar.rules.length, (((State.start (.ofDocument d source [])).run events).settle heights).rulesScroll) =
        (2, 1) :=
    exists_of_map_eq_ok (by decide +kernel)
  obtain ⟨hlength, hscroll⟩ := Prod.mk.inj hx
  refine ⟨d, hd, ?_, ?_⟩
  · rw [hlength]
    decide
  · rw [hlength, hscroll]
    decide

end Ebnf.Explorer
