import Ebnf.Proofs.Layout.Reprint

namespace Ebnf

open Layout

variable {config : Config} {source : Text} {d : Document} {ps : List Passage} {trail : List Lexeme}

namespace Layout

theorem Page.bare_settled_unquoted (p : Page) (e : Entry) :
    (p.settled e).bare.mapAtom Atom.unquoted = e.rule.bare.mapAtom Atom.unquoted := by
  rw [settled]
  split
  · rfl
  · rw [Rule.bare_mapAtom, Rule.mapAtom_mapAtom]
    exact Rule.mapAtom_congr fun a _ => a.unquoted_requote _

theorem Page.settled_preserve {p : Page} (hq : p.config.quotes = .preserve) {e : Entry}
    (h : ∀ k ∈ e.rule.yield, k.Legal) : p.settled e = e.rule := by
  rw [settled, hq]
  split
  · rfl
  · rw [Rule.mapAtom_congr fun a ha => (Atom.quotable_of_legal (h _ ha)).requote_preserve, Rule.mapAtom_id]

variable {d' : Document} {qs : List Passage}

theorem Reprint.unquoted_eq (h : Reprint config source d d' qs trail) :
    d'.grammar.unquoted = d.grammar.unquoted := by
  have hr := congrArg (List.map (Rule.mapAtom Atom.unquoted)) h.rules_eq
  rw [List.map_map, List.map_map] at hr
  rw [Grammar.unquoted, Grammar.unquoted, ← map_rule_entries config.align source d.grammar.rules, List.map_map]
  refine hr.trans (List.map_congr_left fun e _ => ?_)
  exact Page.bare_settled_unquoted _ e

theorem Reprint.bare_eq (h : Reprint config source d d' qs trail) (hq : config.quotes = .preserve)
    (hl : ∀ r ∈ d.grammar.rules, ∀ k ∈ r.yield, k.Legal) : d'.grammar.bare.rules = d.grammar.bare.rules := by
  have hrules := map_rule_entries config.align source d.grammar.rules
  rw [Grammar.bare_rules, Grammar.bare_rules, h.rules_eq]
  conv_rhs => rw [← hrules, List.map_map]
  apply List.map_congr_left
  intro e he
  rw [Page.settled_preserve hq (hl _ (hrules ▸ List.mem_map_of_mem he))]
  rfl

/-- The layout never changes the grammar. What it writes is read as the same
rules in the same order, up to the quotes of terminals, and with these too if
they are to be kept. -/
theorem format_keeps_grammar (config : Config) (h : Document.ofSource source = .ok d) :
    ∃ d', Document.ofSource (format config source d) = .ok d' ∧ d'.grammar.unquoted = d.grammar.unquoted ∧
      (config.quotes = .preserve →
        d'.grammar.bare.rules = d.grammar.bare.rules ∧ d'.grammar.render = d.grammar.render) := by
  obtain ⟨ps, trail, hd⟩ := Document.printed_of_ofSource h
  obtain ⟨d', qs, trail', hr⟩ := exists_reprint config hd
  refine ⟨d', hr.read, hr.unquoted_eq, fun hq => ?_⟩
  have hb := hr.bare_eq hq hd.laid.legal
  refine ⟨hb, ?_⟩
  rw [← Grammar.render_bare, ← d.grammar.render_bare, Grammar.render, hb, Grammar.render]

theorem format_keeps_grammar_of_quotes : ∃ d d', Document.ofSource "r=\"a\"|'b';".toList = .ok d ∧
    Document.ofSource "r = 'a' | 'b' ;\n".toList = .ok d' ∧ d'.grammar.unquoted = d.grammar.unquoted := by
  obtain ⟨d, h, hout⟩ : ∃ d, Document.ofSource "r=\"a\"|'b';".toList = .ok d ∧
      format { quotes := .prefer .single } "r=\"a\"|'b';".toList d = "r = 'a' | 'b' ;\n".toList :=
    exists_of_map_eq_ok (by decide +kernel)
  obtain ⟨d', h', hu, -⟩ := format_keeps_grammar { quotes := .prefer .single } h
  rw [hout] at h'
  exact ⟨d, d', h, h', hu⟩

end Layout

end Ebnf
