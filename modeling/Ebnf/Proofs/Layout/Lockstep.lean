import Ebnf.Proofs.Layout.Counter

namespace Ebnf

open Layout

variable {source : Text} {d : Document} {i : Nat}

section

variable {α : Type} {l us : List α} {a : α}

theorem getElem?_of_prefix_drop (h : a :: us <+: l.drop i) : l[i]? = some a := by
  obtain ⟨rest, h⟩ := h
  rw [← List.head?_drop, ← h]
  rfl

theorem prefix_drop_of_append (vs : List α) (h : vs ++ us <+: l.drop i) : us <+: l.drop (i + vs.length) := by
  obtain ⟨rest, h⟩ := h
  exact ⟨rest, by rw [← List.drop_drop, ← h, List.append_assoc, List.drop_left]⟩

end

theorem Document.exists_spelling (h : Document.ofSource source = .ok d) {t : Token} (ht : d.tokens[i]? = some t) :
    ∃ text, source.slice? t.span.start t.span.stop = some text ∧ t.kind.Spelled text := by
  obtain ⟨front, text, back, rfl, hspan, hs⟩ := Token.exists_spelled (tokenize_tokens h) (List.mem_of_getElem? ht)
  exact ⟨text, by rw [hspan, Text.slice?_append], hs⟩

/-- From the start of one rule to that of the next, and so on, no index is left
out. -/
theorem flatMap_range'_ruleStarts (n : Nat) (rs : List (Rule Span)) :
    (ruleStarts n rs).flatMap (fun x => List.range' x.1 x.2.yield.length) = List.range' n (tokenCount rs) := by
  induction rs generalizing n with
  | nil => rfl
  | cons r rs ih => rw [ruleStarts, List.flatMap_cons, ih, tokenCount, List.range'_append_1]

namespace Layout

namespace Event

def indices : Event → List Nat
  | .name _ i | .word _ i => [i]
  | .copy _ i n => List.range' i n
  | .enter _ _ | .leave _ _ | .trail _ => []

/-- The counter is right for what happens. In the source, a token that is
written may have other quotes, or zeros in front of it. -/
def InStep (style : QuoteStyle) (source : Text) (d : Document) : Event → Prop
  | .enter r i => ∃ t, d.tokens[i]? = some t ∧ t.kind = .identifier r.name ∧ t.span = r.namePlace
  | .name w i => ∃ t, d.tokens[i]? = some t ∧ source.slice? t.span.start t.span.stop = some w ∧
      t.kind = .identifier w
  | .word w i => ∃ t text, d.tokens[i]? = some t ∧ source.slice? t.span.start t.span.stop = some text ∧
      t.kind.Spelled text ∧ w = t.kind.written style
  | .copy r i n => ((d.tokens.drop i).take n).map (·.kind) = r.yield ∧ r.place.RunsOver ((d.tokens.drop i).take n)
  | .leave r i => ∃ j t, i = j + 1 ∧ d.tokens[j]? = some t ∧ t.kind = .mark .semicolon ∧
      t.span.stop = r.place.stop
  | .trail i => ∃ t, d.tokens[i]? = some t ∧ t.kind = .eof ∧ i + 1 = d.tokens.length

/-- What happens from entering a rule to leaving it. Meanwhile tokens are
written, one behind the other, and nothing else. -/
def Visit (r : Rule Span) (vs : List Event) : Prop :=
  ∃ i n body, vs = .enter r i :: (body ++ [.leave r (i + n)]) ∧ (∀ v ∈ body, v.indices ≠ []) ∧
    vs.flatMap indices = List.range' i n

end Event

variable {style : QuoteStyle} {p : Page} {e : Entry}

theorem flatMap_indices_wordEvents (style : QuoteStyle) (i : Nat) (ks : List Kind) :
    (wordEvents style i ks).flatMap Event.indices = List.range' i ks.length := by
  induction ks generalizing i with
  | nil => rfl
  | cons k ks ih =>
      rw [wordEvents, List.flatMap_cons, ih]
      rfl

theorem indices_ne_nil_of_mem_wordEvents {ks : List Kind} {v : Event} (hv : v ∈ wordEvents style i ks) :
    v.indices ≠ [] := by
  induction ks generalizing i with
  | nil => cases hv
  | cons k ks ih =>
      rcases List.mem_cons.1 hv with rfl | hv
      · exact List.cons_ne_nil i []
      · exact ih hv

theorem inStep_of_mem_wordEvents (h : Document.ofSource source = .ok d) {us : List Token}
    (hus : us <+: d.tokens.drop i) {v : Event} (hv : v ∈ wordEvents style i (us.map (·.kind))) :
    v.InStep style source d := by
  induction us generalizing i with
  | nil => cases hv
  | cons t us ih =>
      have ht := getElem?_of_prefix_drop hus
      rcases List.mem_cons.1 hv with rfl | hv
      · obtain ⟨text, hslice, hs⟩ := Document.exists_spelling h ht
        exact ⟨t, text, ht, hslice, hs, rfl⟩
      · exact ih (prefix_drop_of_append [t] hus) hv

namespace Page

theorem indices_ne_nil_of_mem_ruleEvents {r : Rule Span} {v : Event} (hv : v ∈ ruleEvents style i r) :
    v.indices ≠ [] := by
  rcases List.mem_cons.1 hv with rfl | hv
  · exact List.cons_ne_nil i []
  · exact indices_ne_nil_of_mem_wordEvents hv

theorem flatMap_indices_ruleEvents (style : QuoteStyle) (i : Nat) (r : Rule Span) :
    (ruleEvents style i r).flatMap Event.indices = List.range' i r.yield.length := by
  rw [ruleEvents, List.flatMap_cons, flatMap_indices_wordEvents]
  rfl

theorem flatMap_indices_entryEvents (p : Page) (e : Entry) :
    (p.entryEvents e).flatMap Event.indices = List.range' e.index e.rule.yield.length := by
  have hleave (r : Rule Span) (i : Nat) (vs : List Event) :
      (Event.enter r i :: (vs ++ [.leave r (i + r.yield.length)])).flatMap Event.indices =
        vs.flatMap Event.indices := by
    simp [Event.indices]
  rw [entryEvents, hleave]
  split
  · exact List.flatMap_singleton _ _
  · exact flatMap_indices_ruleEvents _ _ _

theorem visit_entryEvents (p : Page) (e : Entry) : Event.Visit e.rule (p.entryEvents e) := by
  refine ⟨e.index, e.rule.yield.length, _, rfl, fun v hv => ?_, p.flatMap_indices_entryEvents e⟩
  split at hv
  · obtain rfl := List.mem_singleton.1 hv
    exact List.cons_ne_nil _ _
  · exact indices_ne_nil_of_mem_ruleEvents hv

theorem inStep_entryEvents (h : Document.ofSource source = .ok d) {ts : List Token} (hr : e.rule.Stands ts)
    (ho : Token.Ordered ts) (hts : ts <+: d.tokens.drop e.index) :
    ∀ v ∈ p.entryEvents e, v.InStep p.config.quotes source d := by
  have hkinds := hr.kinds
  have hplace := hr.runsOver ho
  have hlen : e.rule.yield.length = ts.length := by rw [← hkinds, List.length_map]
  have htake : (d.tokens.drop e.index).take ts.length = ts := (List.prefix_iff_eq_take.1 hts).symm
  obtain ⟨t, us, v, rfl, hname, hspan, -, hv, hstop⟩ := hr.exists_ends ho
  have ht := getElem?_of_prefix_drop hts
  have hbehind := prefix_drop_of_append [t] hts
  have hlast := getElem?_of_prefix_drop (prefix_drop_of_append (t :: us) hts)
  rw [entryEvents, hlen]
  refine List.forall_mem_cons.2 ⟨⟨t, ht, hname, hspan⟩, List.forall_mem_append.2 ⟨?_, List.forall_mem_singleton.2 ?_⟩⟩
  · split
    · refine List.forall_mem_singleton.2 ⟨?_, ?_⟩
      · rw [htake, hkinds]
      · rwa [htake]
    · obtain ⟨text, hslice, hs⟩ := Document.exists_spelling h ht
      rw [hname] at hs
      obtain ⟨rfl, -⟩ := hs
      rw [ruleEvents, ← hkinds]
      exact List.forall_mem_cons.2 ⟨⟨t, ht, hslice, hname⟩, fun x hx => inStep_of_mem_wordEvents h hbehind hx⟩
  · exact ⟨_, v, by simp [Nat.add_assoc], hlast, hv, hstop⟩

theorem inStep_of_mem_entries (h : Document.ofSource source = .ok d)
    (he : e ∈ entries p.config.align source d.grammar.rules) :
    ∀ v ∈ p.entryEvents e, v.InStep p.config.quotes source d := by
  obtain ⟨hr, ho⟩ := Document.stands_passedOver h (mem_ruleStarts_of_mem_entries he)
  exact inStep_entryEvents h hr ho (List.takeWhile_prefix _)

theorem fits_of_mem_entries {align : Bool} (h : Document.ofSource source = .ok d)
    (he : e ∈ entries align source d.grammar.rules) : Fits d e := by
  have hx := mem_ruleStarts_of_mem_entries he
  obtain ⟨hpasses, t, ht, -⟩ := Document.exists_name_token h hx
  obtain ⟨ps, trail, hd⟩ := Document.printed_of_ofSource h
  refine ⟨hd.laid.legal _ (rule_mem_of_mem_entries he), ?_, ?_⟩
  · obtain ⟨hlt, -⟩ := List.getElem?_eq_some_iff.1 ht
    exact Nat.le_of_lt hlt
  · rw [← hpasses, List.length_map]

theorem visits_entries (p : Page) (align : Bool) (source : Text) (rules : List (Rule Span)) :
    List.Forall₂ Event.Visit rules ((entries align source rules).map p.entryEvents) := by
  have hrules : List.Forall₂ Event.Visit ((entries align source rules).map (·.rule))
      ((entries align source rules).map p.entryEvents) := by
    rw [List.forall₂_map_left_iff, List.forall₂_map_right_iff, List.forall₂_same]
    exact fun e _ => p.visit_entryEvents e
  rwa [map_rule_entries] at hrules

theorem flatMap_indices_entries (p : Page) (align : Bool) (source : Text) (rules : List (Rule Span)) :
    ((entries align source rules).flatMap p.entryEvents).flatMap Event.indices = List.range (tokenCount rules) := by
  have hstarts := flatMap_range'_ruleStarts 0 rules
  rw [← map_entries align source, List.flatMap_map] at hstarts
  rw [List.flatMap_assoc, List.range_eq_range', ← hstarts]
  simp only [flatMap_indices_entryEvents]

end Page

/-- Writing with a counter of tokens never breaks off, and gives the layout. The
counter is at the token that is written, at the name of a rule in front of it and
behind its semicolon afterwards, and in the end at the end of the tokens. All
tokens but the last are written, each one once and in order. -/
theorem format_lockstep (config : Config) (h : Document.ofSource source = .ok d) :
    ∃ visits i, ((Page.ofDocument config source d).emitDocument d).run ⟨0, []⟩ =
        some (format config source d, ⟨i, visits.flatten ++ [.trail i]⟩) ∧
      List.Forall₂ Event.Visit d.grammar.rules visits ∧
      (∀ v ∈ visits.flatten ++ [.trail i], v.InStep config.quotes source d) ∧
      visits.flatten.flatMap Event.indices = List.range i ∧ d.tokens.length = i + 1 := by
  let p := Page.ofDocument config source d
  let es := entries config.align source d.grammar.rules
  have hrun := Page.writes_emitDocument (p := p) (fun e he => Page.fits_of_mem_entries h he) []
  rw [Nat.zero_add, List.nil_append, List.flatMap_def] at hrun
  have hlen := Document.length_tokens h
  have hindices := p.flatMap_indices_entries config.align source d.grammar.rules
  rw [List.flatMap_def] at hindices
  refine ⟨es.map p.entryEvents, _, hrun, p.visits_entries _ _ _, ?_, hindices, hlen⟩
  refine List.forall_mem_append.2 ⟨?_, List.forall_mem_singleton.2 ?_⟩
  · rw [← List.flatMap_def]
    intro v hv
    obtain ⟨e, he, hv⟩ := List.mem_flatMap.1 hv
    exact Page.inStep_of_mem_entries (p := p) h he v hv
  · obtain ⟨segs, stop, hd, hstop, -, hg⟩ := Document.exists_segments h
    refine ⟨stop, ?_, hstop, hlen.symm⟩
    rw [hd, ← length_flatten_of_stands hg.stands, List.getElem?_concat_length]

theorem format_lockstep_of_copied_rule :
    let source : Text := "(*ebnf-fmt-ignore*)a =02*b;\n\nc=(*x*)[d|\"e\"],003*f-|\x7b\x7d;(*z*)".toList
    let config : Config := { lineWidth := 12, quotes := .prefer .single }
    ∃ (d : Document) (visits : List (List Event)), Document.ofSource source = .ok d ∧
      ((Page.ofDocument config source d).emitDocument d).run ⟨0, []⟩ = some
        ("(* ebnf-fmt-ignore *)\na =02*b;\n\nc = (* x *) [ d | 'e' ], 3 * f -\n  | \x7b\x7d ;\n(* z *)\n".toList,
          ⟨22, visits.flatten ++ [.trail 22]⟩) ∧
      visits.flatten.map Event.indices =
        [] :: List.range 6 :: [] :: [] :: (List.range' 6 16).map (fun i => [i]) ++ [[]] ∧
      ∀ v ∈ visits.flatten ++ [.trail 22], v.InStep config.quotes source d := by
  intro source config
  obtain ⟨d, h, hd⟩ : ∃ d, Document.ofSource source = .ok d ∧ (format config source d, d.tokens.length,
      (((Page.ofDocument config source d).emitDocument d).run ⟨0, []⟩).map (·.2.past.map Event.indices)) =
      ("(* ebnf-fmt-ignore *)\na =02*b;\n\nc = (* x *) [ d | 'e' ], 3 * f -\n  | \x7b\x7d ;\n(* z *)\n".toList, 23,
        some ([] :: List.range 6 :: [] :: [] :: (List.range' 6 16).map (fun i => [i]) ++ [[], []])) :=
    exists_of_map_eq_ok (by decide +kernel)
  obtain ⟨visits, i, hrun, -, hstep, -, hlen⟩ := format_lockstep config h
  obtain ⟨hout, hcount, hpast⟩ : _ ∧ _ ∧ _ := by simpa only [Prod.mk.injEq] using hd
  obtain rfl : i = 22 := Nat.succ.inj (hlen.symm.trans hcount)
  rw [hout] at hrun
  rw [hrun, Option.map_some, List.map_append] at hpast
  exact ⟨d, visits, h, hrun, List.append_cancel_right (Option.some.inj hpast), hstep⟩

end Layout

end Ebnf
