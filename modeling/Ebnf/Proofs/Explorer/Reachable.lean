import Ebnf.Proofs.Document.Size
import Ebnf.Proofs.Explorer.Display
import Ebnf.Proofs.Explorer.Words

namespace Ebnf.Explorer

theorem Subject.ofDocument_fit {source fileName : Text} {d : Document} (h : Document.ofSource source = .ok d)
    (hb : source.byteLength < Text.maxBytes) : (ofDocument d source fileName).Fit := by
  have hyield := Document.length_yield_le h
  have hlength := source.length_le_byteLength
  have h63 : Text.maxBytes + Text.maxBytes = UInt64.size := by decide
  have h16 : UInt16.size < Text.maxBytes := by decide
  refine ⟨?_, ?_, ?_, ?_⟩
  · have hrules := d.grammar.length_rules_le_yield
    show d.grammar.rules.length + UInt16.size < UInt64.size
    omega
  · have hlines := length_highlight_le (cuttable_of_tokenize (Document.tokenize_tokens h))
    have hcount : source.count '\n' ≤ source.length := List.count_le_length
    show (highlight source d.tokens).length < UInt64.size
    omega
  · intro a ha
    obtain ⟨r, -, rfl⟩ := List.mem_map.1 ha
    have hbreaks := source.breaksBefore_le (min r.place.start r.place.stop)
    show source.breaksBefore (min r.place.start r.place.stop) + 1 < UInt64.size
    omega
  · intro r hr
    have hr : r.yield.length ≤ d.grammar.yield.length := Grammar.length_yield_le_of_mem hr
    rw [r.yield_length] at hr
    omega

/-- Whatever keys are pressed and however high the panes are drawn: a rule is
selected, every frame shows it and no row behind the last page, and drawing
again changes nothing. No sum and no difference of words fails. -/
theorem explorer_invariant {source : Text} {d : Document} (h : Document.ofSource source = .ok d) (fileName : Text)
    (events : List Event) :
    let s := Subject.ofDocument d source fileName
    let x := (State.start s).run events
    x.subject = s ∧ x.selected < d.grammar.rules.length ∧
    (∀ heights, (x.settle heights).Shown heights ∧ (x.settle heights).settle heights = x.settle heights ∧
      (x.settle heights).selected = x.selected ∧ (x.settle heights).focus = x.focus ∧
      (x.settle heights).quit = x.quit) ∧
    (source.byteLength < Text.maxBytes → (∀ e ∈ events, e.Fit) →
      (State.start? s).bind (·.run? events) = some x ∧ x.Words) := by
  intro s x
  obtain ⟨ps, trail, hp⟩ := Document.printed_of_ofSource h
  have hne : s.rules ≠ [] := hp.rules_ne_nil
  have hstart := State.start_sound hne
  have hx := hstart.run events
  refine ⟨hx.subject, hx.selected, fun heights => ?_, fun hb he => ?_⟩
  · have hshown := hx.shown heights
    exact ⟨hshown, hshown.settle_eq, rfl, rfl, rfl⟩
  · have hs : s.Fit := Subject.ofDocument_fit h hb
    have hstart? : State.start? s = some (State.start s) := State.select?_eq _ 0
    rw [hstart?]
    exact ⟨State.run?_eq hs hstart he, (State.start_words hs hne).run hs hstart events⟩

theorem explorer_invariant_of_last :
    let source : Text := "a = b - , c ;\nd = 2 * [ ] ;\n".toList
    let events : List Event := [.key .last, .key .tab, .key .last, .key .tab, .key .last, .draw ⟨1, 0, 2⟩, .key .up]
    let heights : Heights := ⟨3, 4, 3⟩
    ∃ d, Document.ofSource source = .ok d ∧
      let s := Subject.ofDocument d source []
      let x := (State.start s).run events
      x.selected < d.grammar.rules.length ∧ (x.settle heights).Shown heights ∧
        (x.settle heights).settle heights = x.settle heights ∧
        (State.start? s).bind (·.run? events) = some x ∧ x.Words := by
  intro source events heights
  have hok : (Document.ofSource source).isOk = true := by decide +kernel
  obtain ⟨d, hd⟩ : ∃ d, Document.ofSource source = .ok d := by
    cases h : Document.ofSource source with
    | error e => rw [h] at hok; cases hok
    | ok d => exact ⟨d, rfl⟩
  have hfit : ∀ e ∈ events, e.Fit := by
    simp [events, Event.Fit, Heights.Fit, UInt16.size]
  obtain ⟨-, hlt, hshown, hwords⟩ := explorer_invariant hd [] events
  exact ⟨d, hd, hlt, (hshown heights).1, (hshown heights).2.1, hwords (by decide +kernel) hfit⟩

end Ebnf.Explorer
