import Ebnf.Proofs.Layout.Page

namespace Ebnf

open Lexeme Layout

theorem Passage.Laid.map_kind_flatten {n : Nat} {rs : List (Rule Span)} {ps : List Passage}
    (h : Passage.Laid n rs ps) : (Passage.gistsFrom n ps).flatten.map Gist.kind = rs.flatMap Rule.yield := by
  induction h with
  | nil => rfl
  | @cons n r rs q ps hk _ _ ih =>
      have hkinds : (q.gists n).map Gist.kind = r.yield := (q.map_kind_gists n).trans hk
      rw [Passage.gistsFrom, List.flatten_cons, List.map_append, ih, hkinds, List.flatMap_cons]

theorem length_flatMap_yield (rs : List (Rule Span)) : (rs.flatMap Rule.yield).length = tokenCount rs := by
  induction rs with
  | nil => rfl
  | cons r rs ih => rw [List.flatMap_cons, List.length_append, ih, tokenCount]

theorem Passage.Laid.length_flatten {n : Nat} {rs : List (Rule Span)} {ps : List Passage}
    (h : Passage.Laid n rs ps) : (Passage.gistsFrom n ps).flatten.length = tokenCount rs := by
  rw [← length_flatMap_yield, ← h.map_kind_flatten, List.length_map]

namespace Layout

variable {config : Config} {source : Text} {d : Document} {ps : List Passage} {trail : List Lexeme}

theorem Page.notesAt_ofDocument (config : Config) (source : Text) (d : Document) :
    (Page.ofDocument config source d).notesAt = Gist.commentsAt (d.tokens.map Token.gist) := by
  funext i
  cases h : d.tokens[i]? <;> simp [notesAt, ofDocument, Gist.commentsAt, Token.gist, h]

theorem Page.mem_notes_of_mem_notesAt (h : Document.Printed source d ps trail) {i : Nat} {c : Text}
    (hc : c ∈ (Page.ofDocument config source d).notesAt i) :
    c ∈ (Passage.allLexemes ps trail).flatMap Lexeme.notes := by
  rw [notesAt_ofDocument, h.gists, Gist.commentsAt] at hc
  cases hg : ((Passage.gistsFrom 0 ps).flatten ++ [.stop source.byteLength (trail.flatMap Lexeme.notes)])[i]? with
  | none => simp [hg] at hc
  | some g =>
      rw [hg] at hc
      rcases List.mem_append.1 (List.mem_of_getElem? hg) with hg | hg
      · rw [← Passage.gists_allLexemes 0 ps h.trail_trivia] at hg
        exact mem_notes_of_mem_comments hg hc
      · rw [List.mem_singleton.1 hg] at hc
        rw [Passage.allLexemes, List.flatMap_append]
        exact List.mem_append_right _ hc

theorem Page.readable_ofDocument (h : Document.Printed source d ps trail) :
    (Page.ofDocument config source d).Readable := by
  intro i c hc
  obtain ⟨l, hl, hcl⟩ := List.mem_flatMap.1 (mem_notes_of_mem_notesAt h hc)
  exact proper_of_mem_notes ((Passage.legible_allLexemes ps h.trail_trivia []).proper l hl) hcl

theorem Page.notedAt_ofDocument (config : Config) (h : Document.Printed source d ps trail) :
    List.Forall₂ (fun e => NotedAt (Page.ofDocument config source d).notesAt source (e.index, e.rule))
      (entries config.align source d.grammar.rules) ps := by
  have hl := notedAt_of_laid h.laid Text.byteLength_nil []
    [.stop source.byteLength (trail.flatMap Lexeme.notes)] trail
  rw [List.nil_append, ← h.gists, ← notesAt_ofDocument config source d, List.nil_append, ← h.source_eq,
    List.length_nil, ← map_entries config.align source, List.forall₂_map_left_iff] at hl
  exact hl

/-- What is read back from the text that the layout makes of a document. -/
structure Reprint (config : Config) (source : Text) (d d' : Document) (qs : List Passage) (trail : List Lexeme) :
    Prop where
  read : Document.ofSource (format config source d) = .ok d'
  printed : Document.Printed (format config source d) d' qs trail
  rules_eq : d'.grammar.rules.map Rule.bare = (entries config.align source d.grammar.rules).map fun e =>
    ((Page.ofDocument config source d).settled e).bare
  sets : List.Forall₂ (fun e q => ∃ pre, (Page.ofDocument config source d).Sets pre e q)
    (entries config.align source d.grammar.rules) qs
  sets_tail : List.Forall₂ ((Page.ofDocument config source d).Sets [(Page.ofDocument config source d).breakGap])
    (entries config.align source d.grammar.rules).tail qs.tail
  trail_notes : trail.flatMap Lexeme.notes =
    (Page.ofDocument config source d).tidyNotes (tokenCount d.grammar.rules)
  trail_padded : ∀ l ∈ trail, Padded config.newline l

theorem Page.wellBound_settled (p : Page) {e : Entry} (h : e.rule.WellBound) : (p.settled e).WellBound := by
  rw [settled]
  split
  · exact h
  · exact (Rule.wellBound_mapAtom _ _).2 h

theorem format_eq_flatMap (config : Config) (source : Text) (d : Document) : format config source d =
    (entries config.align source d.grammar.rules).flatMap (Page.ofDocument config source d).entryText ++
      (Page.ofDocument config source d).noteLines (tokenCount d.grammar.rules) :=
  (Page.ofDocument config source d).text_eq _

theorem exists_reprint (config : Config) (h : Document.Printed source d ps trail) :
    ∃ d' qs trail', Reprint config source d d' qs trail' := by
  have hp : (Page.ofDocument config source d).Readable := Page.readable_ofDocument h
  have hes := Page.notedAt_ofDocument config h
  have hrules := map_rule_entries config.align source d.grammar.rules
  cases hes' : entries config.align source d.grammar.rules with
  | nil =>
      rw [hes'] at hrules
      exact absurd hrules.symm h.rules_ne_nil
  | cons e es =>
      rw [hes'] at hes hrules
      obtain ⟨q, ps, he, hrest, rfl⟩ := List.forall₂_cons_left_iff.1 hes
      obtain ⟨q', hq⟩ := Page.exists_sets hp he [] (by simp) rfl
      obtain ⟨qs, trail', hqs, ht, hn, hs⟩ := Page.exists_allLexemes hp hrest (tokenCount d.grammar.rules)
      have htext : format config source d = spell (Passage.allLexemes (q' :: qs) trail') := by
        rw [format_eq_flatMap, hes', Passage.allLexemes_cons, spell_append, hs, Passage.lexemes, spell_append,
          hq.lead_eq, hq.body_eq]
        simp [Page.entryText, Page.spell_noteLexemes]
      have hsets : List.Forall₂ (fun e q => ∃ pre, (Page.ofDocument config source d).Sets pre e q)
          (e :: es) (q' :: qs) :=
        .cons ⟨[], hq⟩ (hqs.imp fun _ _ h => ⟨_, h⟩)
      have hkinds : List.Forall₂ (fun r q => q.kinds = Rule.yield r)
          ((e :: es).map fun e => ((Page.ofDocument config source d).settled e).bare) (q' :: qs) := by
        rw [List.forall₂_map_left_iff]
        apply hsets.imp
        intro e q hq
        obtain ⟨pre, hq⟩ := hq
        rw [hq.kinds_eq, Rule.yield_bare]
      have hbound : ∀ r ∈ (e :: es).map fun e => ((Page.ofDocument config source d).settled e).bare,
          r.WellBound := by
        intro r hr
        obtain ⟨f, hf, rfl⟩ := List.mem_map.1 hr
        have hw : f.rule.WellBound := h.wellBound _ (hrules ▸ List.mem_map_of_mem hf)
        exact (Rule.wellBound_bare _).2 (Page.wellBound_settled _ hw)
      obtain ⟨d', hread, hrules', hprinted⟩ :=
        Document.exists_printed (by simp) hbound hkinds fun l hl => (ht l hl).1
      rw [← htext] at hread hprinted
      exact ⟨d', q' :: qs, trail', hread, hprinted, by rw [hrules', hes'], hes' ▸ hsets, hes' ▸ hqs, hn,
        fun l hl => (ht l hl).2⟩

end Layout

end Ebnf
