import Ebnf.Proofs.Grammar.Shape
import Ebnf.Proofs.Parser.Completeness

namespace Ebnf

theorem exists_segments {α : Type} {f : α → List Kind} {rs : List α} {ts : List Token}
    (h : ts.map (·.kind) = rs.flatMap f) :
    ∃ segs : List (List Token), ts = segs.flatten ∧
      List.Forall₂ (fun r us => us.map (·.kind) = f r) rs segs := by
  induction rs generalizing ts with
  | nil => exact ⟨[], List.map_eq_nil_iff.1 h, .nil⟩
  | cons r rs ih =>
      obtain ⟨us, vs, rfl, hus, hvs⟩ := List.map_eq_append_iff.1 h
      obtain ⟨segs, rfl, hs⟩ := ih hvs
      exact ⟨us :: segs, rfl, .cons hus hs⟩

theorem readRules_of_yield (stop : Token) {rs : List (Rule Unit)} {ts : List Token}
    (hr : ∀ r ∈ rs, r.WellBound) (h : ts.map (·.kind) = rs.flatMap Rule.yield) :
    ∃ rs', rs'.map Rule.bare = rs ∧ readRules stop .name ts = .ok rs' [] := by
  obtain ⟨segs, rfl, hs⟩ := exists_segments h
  obtain ⟨rs', hrs, -, h⟩ := readRules_rules hr hs
  exact ⟨rs', hrs, h⟩

theorem flatMap_of_segments {α : Type} {f : α → List Kind} {rs : List α} {segs : List (List Token)}
    (h : List.Forall₂ (fun r us => us.map (·.kind) = f r) rs segs) :
    segs.flatten.map (·.kind) = rs.flatMap f := by
  induction h with
  | nil => rfl
  | cons hk _ ih => rw [List.flatten_cons, List.map_append, hk, ih, List.flatMap_cons]

theorem wellBound_of_madeOf {rs : List (Rule Span)} {segs : List (List Token)}
    (h : List.Forall₂ Rule.MadeOf rs segs) : ∀ r ∈ rs, r.WellBound := by
  induction h with
  | nil => simp
  | cons hm _ ih => exact List.forall_mem_cons.2 ⟨hm.wellBound, ih⟩

theorem stands_of_readRules {stop : Token} {ts rest : List Token} {rs : List (Rule Span)}
    (h : readRules stop .name ts = .ok rs rest) :
    ∃ segs, ts = segs.flatten ∧ List.Forall₂ Rule.Stands rs segs ∧ ∀ r ∈ rs, r.WellBound := by
  obtain ⟨-, segs, hsegs, hm⟩ := readRules_ok Phase.name_follows h
  obtain rfl : ts = segs.flatten := hsegs
  have hk : List.Forall₂ (fun r us => us.map (·.kind) = Rule.yield r) (rs.map Rule.bare) segs := by
    rw [List.forall₂_map_left_iff]
    exact hm.imp fun r us hr => hr.kinds.trans r.yield_bare.symm
  have hw := wellBound_of_madeOf hm
  have hbare : ∀ r ∈ rs.map Rule.bare, r.WellBound := by
    intro r hr
    obtain ⟨s, hs, rfl⟩ := List.mem_map.1 hr
    exact s.wellBound_bare.2 (hw s hs)
  obtain ⟨rs', -, hst, hread⟩ := readRules_rules hbare hk
  rw [h] at hread
  obtain ⟨rfl, -⟩ := Outcome.ok.inj hread
  exact ⟨segs, rfl, hst, hw⟩

namespace Cursor

theorem ofTokens_append {ts : List Token} {stop : Token} (hts : ∀ t ∈ ts, t.kind ≠ .eof)
    (hstop : stop.kind = .eof) : ofTokens (ts ++ [stop]) = ⟨ts ++ [stop], ts, stop⟩ := by
  have hf : ts.find? (·.kind = .eof) = none := by simpa using hts
  have hw : (ts ++ [stop]).takeWhile (·.kind ≠ .eof) = ts ++ [stop].takeWhile (·.kind ≠ .eof) :=
    List.takeWhile_append_of_pos (by simpa using hts)
  simp only [ofTokens, closed, List.getLast?_append, List.getLast?_singleton, Option.some_or,
    Option.any_some, hstop, decide_true, if_true, hw, List.find?_append, hf]
  simp [hstop]

theorem grammar_ok {ts : List Token} {stop : Token} (hts : ∀ t ∈ ts, t.kind ≠ .eof) (hstop : stop.kind = .eof)
    {g : Grammar Span} : (ofTokens (ts ++ [stop])).grammar.1 = .ok g ↔
      readRules stop .name ts = .ok g.rules [] ∧ Grammar.ofRules? g.rules = some g := by
  rw [ofTokens_append hts hstop, grammar, run, readGrammar]
  cases h : readRules stop .name ts with
  | error e rest => simp [Outcome.toExcept]
  | ok rs rest =>
      obtain ⟨rfl, -⟩ := readRules_ok Phase.name_follows h
      cases rs with
      | nil =>
          refine iff_of_false (by simp [Grammar.ofRules?, Outcome.toExcept]) ?_
          rintro ⟨he, hg⟩
          rw [← (Outcome.ok.inj he).1] at hg
          cases hg
      | cons r rs =>
          simp only [Grammar.ofRules?, Outcome.toExcept, Except.ok.injEq, Outcome.ok.injEq, and_true]
          constructor
          · rintro rfl
            exact ⟨rfl, rfl⟩
          · rintro ⟨he, hg⟩
            rw [← he] at hg
            exact Option.some.inj hg

end Cursor

theorem Grammar.ofRules?_of_ne_nil {rs : List (Rule Span)} (h : rs ≠ []) :
    ∃ g, Grammar.ofRules? rs = some g ∧ g.rules = rs := by
  cases rs with
  | nil => exact absurd rfl h
  | cons r rs => exact ⟨_, rfl, rfl⟩

theorem Grammar.rules_ne_nil {g : Grammar Span} (h : Grammar.ofRules? g.rules = some g) : g.rules ≠ [] := by
  intro hn
  rw [hn] at h
  cases h

/-- Equal yields make equal rules: both are what is read from tokens of these
kinds. -/
theorem rules_eq_of_yield_eq {rs rs' : List (Rule Unit)} (hr : ∀ r ∈ rs, r.WellBound)
    (hr' : ∀ r ∈ rs', r.WellBound) (h : rs.flatMap Rule.yield = rs'.flatMap Rule.yield) : rs = rs' := by
  let ts := (rs.flatMap Rule.yield).map fun k => (⟨k, default, default, []⟩ : Token)
  have hts : ts.map (·.kind) = rs.flatMap Rule.yield := by simp [ts, Function.comp_def]
  obtain ⟨qs, rfl, hq⟩ := readRules_of_yield default hr hts
  obtain ⟨qs', rfl, hq'⟩ := readRules_of_yield default hr' (hts.trans h)
  rw [(Outcome.ok.inj (hq.symm.trans hq')).1]

theorem expr_eq_of_yield_eq {e e' : Expr Unit} (he : e.WellBound) (he' : e'.WellBound)
    (h : e.yield = e'.yield) : e = e' := by
  have hrs : [(⟨[], (), some e, ()⟩ : Rule Unit)] = [⟨[], (), some e', ()⟩] := rules_eq_of_yield_eq
    (by simpa [Rule.WellBound] using he) (by simpa [Rule.WellBound] using he')
    (by simp [Rule.yield, bodyYield, h])
  simpa using hrs

theorem flatMap_yield_shape {α : Type} (rs : List (Rule α)) :
    (rs.map Rule.shape).flatMap RuleShape.yield = rs.flatMap Rule.yield := by
  simp [List.flatMap_map, Rule.yield_shape]

namespace Cursor

theorem yield_of_grammar_ok {ts : List Token} {stop : Token} (hts : ∀ t ∈ ts, t.kind ≠ .eof)
    (hstop : stop.kind = .eof) {g : Grammar Span} (h : (ofTokens (ts ++ [stop])).grammar.1 = .ok g) :
    g.shape ≠ [] ∧ ts.map (·.kind) = g.shape.flatMap RuleShape.yield ∧ ∀ s ∈ g.shape, s.WellFormed := by
  obtain ⟨hr, ho⟩ := (grammar_ok hts hstop).1 h
  obtain ⟨-, segs, hs, hm⟩ := readRules_ok Phase.name_follows hr
  refine ⟨by simpa [Grammar.shape] using Grammar.rules_ne_nil ho, ?_, ?_⟩
  · rw [Grammar.shape, flatMap_yield_shape, ← flatMap_of_segments (hm.imp fun _ _ h => h.kinds), ← hs]
    rfl
  · intro s hs
    obtain ⟨r, hr, rfl⟩ := List.mem_map.1 hs
    exact r.wellFormed_shape.2 (wellBound_of_madeOf hm r hr)

theorem exists_grammar_ok {ts : List Token} {stop : Token} (hts : ∀ t ∈ ts, t.kind ≠ .eof)
    (hstop : stop.kind = .eof) {ss : List RuleShape} (hne : ss ≠ [])
    (hy : ts.map (·.kind) = ss.flatMap RuleShape.yield) (hw : ∀ s ∈ ss, s.WellFormed) :
    ∃ g, (ofTokens (ts ++ [stop])).grammar.1 = .ok g ∧ g.shape = ss := by
  obtain ⟨rs, hrs, rfl⟩ := exists_rules hw
  rw [flatMap_yield_shape] at hy
  obtain ⟨qs, rfl, hq⟩ := readRules_of_yield stop hrs hy
  have hqs : qs ≠ [] := by simpa using hne
  obtain ⟨g, hg, rfl⟩ := Grammar.ofRules?_of_ne_nil hqs
  exact ⟨g, (grammar_ok hts hstop).2 ⟨hq, hg⟩, by simp [Grammar.shape, Function.comp_def, Rule.shape_bare]⟩

end Cursor

theorem shapes_eq_of_yield_eq {ss ss' : List RuleShape} (hs : ∀ s ∈ ss, s.WellFormed)
    (hs' : ∀ s ∈ ss', s.WellFormed) (h : ss.flatMap RuleShape.yield = ss'.flatMap RuleShape.yield) :
    ss = ss' := by
  obtain ⟨rs, hrs, rfl⟩ := exists_rules hs
  obtain ⟨rs', hrs', rfl⟩ := exists_rules hs'
  rw [flatMap_yield_shape, flatMap_yield_shape] at h
  rw [rules_eq_of_yield_eq hrs hrs' h]

theorem Shape.eq_of_yield_eq {s s' : Shape} (hs : s.WellFormed) (hs' : s'.WellFormed)
    (h : s.yield = s'.yield) : s = s' := by
  obtain ⟨e, rfl⟩ := hs.exists_expr
  obtain ⟨e', rfl⟩ := hs'.exists_expr
  rw [e.yield_shape, e'.yield_shape] at h
  rw [expr_eq_of_yield_eq (e.wellFormed_shape.1 hs) (e'.wellFormed_shape.1 hs') h]

/-- A grammar is read from exactly the token lists that are its yield, and only
if it is well formed. So no two well formed grammars, and no two well formed
trees, have the same yield. -/
theorem grammar_ok_iff_yield {ts : List Token} {stop : Token} (hts : ∀ t ∈ ts, t.kind ≠ .eof)
    (hstop : stop.kind = .eof) :
    (∀ ss : List RuleShape,
      (∃ g, (Cursor.ofTokens (ts ++ [stop])).grammar.1 = .ok g ∧ g.shape = ss) ↔
        ss ≠ [] ∧ ts.map (·.kind) = ss.flatMap RuleShape.yield ∧ ∀ s ∈ ss, s.WellFormed) ∧
    (∀ ss ss' : List RuleShape, (∀ s ∈ ss, s.WellFormed) → (∀ s ∈ ss', s.WellFormed) →
      ss.flatMap RuleShape.yield = ss'.flatMap RuleShape.yield → ss = ss') ∧
    ∀ s s' : Shape, s.WellFormed → s'.WellFormed → s.yield = s'.yield → s = s' := by
  refine ⟨fun ss => ⟨?_, ?_⟩, ?_, ?_⟩
  · rintro ⟨g, hg, rfl⟩
    exact Cursor.yield_of_grammar_ok hts hstop hg
  · rintro ⟨hne, hy, hw⟩
    exact Cursor.exists_grammar_ok hts hstop hne hy hw
  · intro ss ss' hs hs' h
    exact shapes_eq_of_yield_eq hs hs' h
  · intro s s' hs hs' h
    exact Shape.eq_of_yield_eq hs hs' h

theorem grammar_ok_of_absent_operand :
    let ts : List Token := [.identifier ['r'], .mark .equals, .integer 2, .mark (.operator .counting),
      .identifier ['a'], .mark (.operator (.joining .exception)), .mark (.operator (.joining .concatenation)),
      .identifier ['b'], .mark .semicolon].map fun k => ⟨k, default, default, []⟩
    ∃ g, (Cursor.ofTokens (ts ++ [⟨.eof, default, default, []⟩])).grammar.1 = .ok g ∧ g.shape =
      [⟨['r'], some (.binary (.joining .concatenation)
        (.without (.joining .exception) (.binary .counting (.integer 2) (.atom (.identifier ['a']))))
        (.atom (.identifier ['b'])))⟩] := by
  intro ts
  have hts : ∀ t ∈ ts, t.kind ≠ .eof := by decide
  refine ((grammar_ok_iff_yield hts rfl).1 _).2 ⟨by simp, rfl, ?_⟩
  simp [RuleShape.WellFormed, Shape.WellFormed, Shape.strength, Operator.strength, Connective.strength]

end Ebnf
