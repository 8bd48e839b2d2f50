import Ebnf.Proofs.Explorer.Outline
import Ebnf.Proofs.Explorer.State

namespace Ebnf.Explorer

def Heights.Fit (h : Heights) : Prop := h.rules < UInt16.size ∧ h.tree < UInt16.size ∧ h.source < UInt16.size

def Event.Fit : Event → Prop
  | .key _ => True
  | .draw h => h.Fit

structure Subject.Fit (s : Subject) : Prop where
  rules : s.rules.length + UInt16.size < UInt64.size
  lines : s.lines.length < UInt64.size
  ranges : ∀ r ∈ s.ranges, r.1 < UInt64.size
  tokens : ∀ r ∈ s.rules, 1 + (bodyYield r.body).length < UInt64.size

def numbers? (is : List Nat) : Option (List Nat) := is.mapM (add? · 1)

theorem numbers?_eq {is : List Nat} (h : ∀ i ∈ is, i + 1 < UInt64.size) : numbers? is = some (is.map (· + 1)) := by
  induction is with
  | nil => rfl
  | cons i is ih =>
      obtain ⟨hi, his⟩ := List.forall_mem_cons.1 h
      have hrest : is.mapM (add? · 1) = some (is.map (· + 1)) := ih his
      simp [numbers?, add?_eq hi, hrest]

namespace State

/-! The explorer again. Wherever it does not saturate, its sums and differences
have to be words. -/

def select? (x : State) (i : Nat) : Option State :=
  if x.subject.rules.isEmpty then some x
  else do
    let last ← sub? x.subject.rules.length 1
    let above ← add? 1 contextLines
    let selected := min i last
    return { x with
      selected
      treeScroll := 0
      sourceScroll := match x.subject.ranges[selected]? with
        | some (line, _) => line - above
        | none => x.sourceScroll }

def start? (s : Subject) : Option State := select? { subject := s } 0

def move? (x : State) (rule offset : Nat → Nat) : Option State :=
  match x.focus with
  | .rules => x.select? (rule x.selected)
  | .tree => some { x with treeScroll := offset x.treeScroll }
  | .source => some { x with sourceScroll := offset x.sourceScroll }

def press? (x : State) : Key → Option State
  | .up => x.move? Scroll.back Scroll.back
  | .down => x.move? Scroll.forth Scroll.forth
  | .first => x.move? (fun _ => 0) (fun _ => 0)
  | .last => x.move? (fun _ => Scroll.maxOffset) (fun _ => Scroll.maxOffset)
  | k => some (x.press k)

def settle? (x : State) (h : Heights) : Option State := do
  let rulesScroll ← Scroll.follow? x.selected (Scroll.visible h.rules) x.rulesScroll
  let treeScroll ← treeOffset? x.rule? h.tree x.treeScroll
  let sourceScroll ← Scroll.clamp? x.subject.lines.length (Scroll.visible h.source) x.sourceScroll
  let _ ← numbers? (((List.range x.subject.lines.length).drop sourceScroll).take (Scroll.visible h.source))
  let _ ← add? x.selected 1
  return { x with rulesScroll, treeScroll, sourceScroll }

def step? (x : State) : Event → Option State
  | .key k => x.press? k
  | .draw h => x.settle? h

def run? (x : State) (events : List Event) : Option State := events.foldlM step? x

/-- The offsets that keys can move behind the end are words all the same. -/
structure Words (x : State) : Prop where
  treeScroll : x.treeScroll ≤ Scroll.maxOffset
  sourceScroll : x.sourceScroll ≤ Scroll.maxOffset

variable {s : Subject} {x : State}

theorem select?_eq (x : State) (i : Nat) : x.select? i = some (x.select i) := by
  rw [select?, select]
  split
  · rfl
  · next h =>
      have hpos : 1 ≤ x.subject.rules.length := by
        rw [List.isEmpty_iff] at h
        exact List.length_pos_iff.2 h
      have habove : add? 1 contextLines = some (1 + contextLines) := rfl
      rw [sub?_eq hpos, habove]
      rfl

theorem move?_eq (x : State) (rule offset : Nat → Nat) : x.move? rule offset = some (x.move rule offset) := by
  rw [move?, move]
  cases x.focus with
  | rules => exact x.select?_eq _
  | tree | source => rfl

theorem press?_eq (x : State) (k : Key) : x.press? k = some (x.press k) := by
  cases k with
  | up | down => exact x.move?_eq _ _
  | first => exact x.move?_eq (fun _ => 0) fun _ => 0
  | last => exact x.move?_eq (fun _ => Scroll.maxOffset) fun _ => Scroll.maxOffset
  | _ => rfl

theorem settle?_eq (hs : s.Fit) (hx : x.Sound s) {h : Heights} (hh : h.Fit) : x.settle? h = some (x.settle h) := by
  obtain ⟨r, hr, hrule⟩ := hx.exists_rule
  have hv := Scroll.visible_lt hh.1
  have hrules := hs.rules
  have hsel := hx.selected
  have hscroll := hx.rulesScroll
  have hfollow : Scroll.follow? x.selected (Scroll.visible h.rules) x.rulesScroll = some (x.settle h).rulesScroll :=
    Scroll.follow?_eq (by omega) (by omega)
  have htree : treeOffset? x.rule? h.tree x.treeScroll = some (x.settle h).treeScroll := by
    apply treeOffset?_eq
    intro r' hr'
    rw [hrule] at hr'
    cases hr'
    exact hs.tokens r hr
  obtain ⟨numbers, hnumbers⟩ : ∃ ns, numbers? (((List.range x.subject.lines.length).drop
      (x.settle h).sourceScroll).take (Scroll.visible h.source)) = some ns := by
    refine ⟨_, numbers?_eq fun i hi => ?_⟩
    have hlt := List.mem_range.1 (List.mem_of_mem_drop (List.mem_of_mem_take hi))
    have hlines := hs.lines
    rw [hx.subject] at hlt
    omega
  have hsource : Scroll.clamp? x.subject.lines.length (Scroll.visible h.source) x.sourceScroll =
      some (x.settle h).sourceScroll := Scroll.clamp?_eq
  rw [settle?, hfollow, htree, hsource]
  simp only [Option.bind_eq_bind, Option.bind_some]
  rw [hnumbers, add?_eq (by omega)]
  rfl

theorem step?_eq (hs : s.Fit) (hx : x.Sound s) {e : Event} (he : e.Fit) : x.step? e = some (x.step e) := by
  cases e with
  | key k => exact x.press?_eq k
  | draw h => exact settle?_eq hs hx he

theorem run?_eq (hs : s.Fit) (hx : x.Sound s) {events : List Event} (he : ∀ e ∈ events, e.Fit) :
    x.run? events = some (x.run events) := by
  induction events generalizing x with
  | nil => rfl
  | cons e events ih =>
      obtain ⟨he, hes⟩ := List.forall_mem_cons.1 he
      have hrest : (x.step e).run? events = some ((x.step e).run events) := ih (hx.step e) hes
      rw [run?, List.foldlM_cons, step?_eq hs hx he]
      exact hrest

theorem Words.select (hs : s.Fit) (hx : x.Sound s) (hw : x.Words) (i : Nat) : (x.select i).Words := by
  rw [State.select]
  split
  · exact hw
  · refine ⟨Nat.zero_le _, ?_⟩
    dsimp only
    split
    · next line stop hline =>
        have hmem : (line, stop) ∈ s.ranges := hx.subject ▸ List.mem_of_getElem? hline
        have hlt : line < UInt64.size := hs.ranges _ hmem
        rw [Scroll.maxOffset]
        omega
    · exact hw.sourceScroll

theorem Words.move (hs : s.Fit) (hx : x.Sound s) (hw : x.Words) (rule : Nat → Nat) {offset : Nat → Nat}
    (ho : ∀ n ≤ Scroll.maxOffset, offset n ≤ Scroll.maxOffset) : (x.move rule offset).Words := by
  rw [State.move]
  split
  · exact hw.select hs hx _
  · exact ⟨ho _ hw.treeScroll, hw.sourceScroll⟩
  · exact ⟨hw.treeScroll, ho _ hw.sourceScroll⟩

theorem Words.press (hs : s.Fit) (hx : x.Sound s) (hw : x.Words) (k : Key) : (x.press k).Words := by
  unfold State.press
  split
  all_goals first | exact ⟨hw.treeScroll, hw.sourceScroll⟩ | apply hw.move hs hx
  · exact fun n hn => Nat.le_trans (Scroll.back_le n) hn
  · exact fun n _ => Scroll.forth_le n
  · exact fun _ _ => Nat.zero_le _
  · exact fun _ _ => Nat.le_refl _

theorem Words.settle (hw : x.Words) (h : Heights) : (x.settle h).Words := by
  refine ⟨Nat.le_trans ?_ hw.treeScroll, Nat.le_trans Scroll.clamp_le_offset hw.sourceScroll⟩
  simp only [State.settle, treeOffset]
  cases x.rule? with
  | none => exact Nat.le_refl _
  | some r => exact Scroll.clamp_le_offset

theorem Words.run (hs : s.Fit) (hx : x.Sound s) (hw : x.Words) (events : List Event) : (x.run events).Words := by
  induction events generalizing x with
  | nil => exact hw
  | cons e events ih =>
      refine ih (hx.step e) ?_
      cases e with
      | key k => exact hw.press hs hx k
      | draw h => exact hw.settle h

theorem start_words (hs : s.Fit) (hr : s.rules ≠ []) : (start s).Words := by
  have hpos := List.length_pos_iff.2 hr
  have hfirst : Sound s { subject := s } := ⟨rfl, hpos, hpos⟩
  exact Words.select hs hfirst ⟨Nat.zero_le _, Nat.zero_le _⟩ 0

end State

end Ebnf.Explorer
