import Ebnf.Proofs.Layout.BlankLines
import Ebnf.Proofs.Layout.Congruence
import Ebnf.Proofs.Layout.SameComments

namespace Ebnf

open Lexeme Layout

variable {config : Config} {source source' : Text} {d d' : Document}

namespace Layout

def Page.SameBody (p p' : Page) (i : Nat) (r r' : Rule Span) : Prop :=
  ∀ w opens, p.bodyText ⟨i, w, opens, r⟩ = p'.bodyText ⟨i, w, opens, r'⟩

theorem Page.Alike.sameBody (ha : Page.Alike (Page.ofDocument config source d) (Page.ofDocument config source' d'))
    {i : Nat} (hi : d.ignoresAt config.ignore i = false) (hi' : d'.ignoresAt config.ignore i = false)
    {r r' : Rule Span} {f : Atom → Atom} (hr : r.bare = (r'.mapAtom f).bare)
    (hf : Undone config.quotes f r'.yield) :
    Page.SameBody (Page.ofDocument config source d) (Page.ofDocument config source' d') i r r' := by
  intro w opens
  rw [Page.bodyText, Page.bodyText, Page.ignores_eq, Page.ignores_eq, hi, hi']
  exact ha.ruleText ⟨rfl, rfl, rfl⟩ hr hf

theorem Page.sameBody_of_slice {i : Nat} (hi : d.ignoresAt config.ignore i = true)
    (hi' : d'.ignoresAt config.ignore i = true) {r r' : Rule Span}
    (hs : r.place.slice source = r'.place.slice source') :
    Page.SameBody (Page.ofDocument config source d) (Page.ofDocument config source' d') i r r' := by
  intro w opens
  rw [Page.bodyText, Page.bodyText, Page.ignores_eq, Page.ignores_eq, hi, hi']
  exact hs

theorem Page.Alike.entryText {p p' : Page} (ha : Page.Alike p p') {e e' : Entry} (hp : SamePlace e e')
    (hb : p.SameBody p' e.index e.rule e'.rule) : p.entryText e = p'.entryText e' := by
  obtain ⟨i, w, opens, r⟩ := e
  obtain ⟨i', w', opens', r'⟩ := e'
  obtain ⟨rfl, rfl, rfl⟩ : i = i' ∧ w = w' ∧ opens = opens' := hp
  have hbody : p.bodyText ⟨i, w, opens, r⟩ = p'.bodyText ⟨i, w, opens, r'⟩ := hb w opens
  rw [Page.entryText, Page.entryText, hbody, ha.noteLines, Page.spell_openingLexemes, Page.spell_openingLexemes,
    ha.newline]

/-- What the layout sees of a document: how its comments are shown, how much
room its rules take, where blank lines part them, and how each is written. -/
theorem format_congr (ha : Page.Alike (Page.ofDocument config source d) (Page.ofDocument config source' d'))
    (hr : List.Forall₂ SameRoom d.grammar.rules d'.grammar.rules)
    (hp : partings source d.grammar.rules = partings source' d'.grammar.rules)
    (hb : List.Forall₂ (fun x r => Page.SameBody (Page.ofDocument config source d)
      (Page.ofDocument config source' d') x.1 x.2 r) (ruleStarts 0 d.grammar.rules) d'.grammar.rules) :
    format config source d = format config source' d' := by
  have hplaces := entries_forall₂ config.align hr hp
  rw [← map_entries config.align source, ← map_rule_entries config.align source' d'.grammar.rules,
    List.forall₂_map_left_iff, List.forall₂_map_right_iff] at hb
  have hlines := map_eq_of_forall₂ (fun e e' h => ha.entryText h.1 h.2)
    (hplaces.mp (fun _ _ h h' => And.intro h h') hb)
  rw [format_eq_flatMap, format_eq_flatMap, List.flatMap_def, List.flatMap_def, hlines, ha.noteLines,
    tokenCount_congr hr]

def between (source : Text) : List (Rule Span) → List Text
  | r :: s :: rs => Span.slice ⟨r.place.stop, s.place.start⟩ source :: between source (s :: rs)
  | _ => []

theorem partings_eq_map (source : Text) (rs : List (Rule Span)) :
    partings source rs = (between source rs).map fun t => decide (Text.HasBlankLine t) := by
  cases rs with
  | nil => rfl
  | cons r rs =>
      induction rs generalizing r with
      | nil => rfl
      | cons s rs ih => rw [partings, between, List.map_cons, ih, parted_of_slice rfl]

end Layout

namespace Document

def IgnoresNone (d : Document) (ignore : Text) : Prop :=
  ∀ x ∈ ruleStarts 0 d.grammar.rules, d.ignoresAt ignore x.1 = false

/-- The same tokens with the same comments in front of them, and blank lines
between the same rules. -/
structure SameContent (source source' : Text) (d d' : Document) : Prop where
  kinds : d.tokens.map (·.kind) = d'.tokens.map (·.kind)
  comments : (d.tokens.map fun t => t.comments.map fun c => plainText c.text) =
    d'.tokens.map fun t => t.comments.map fun c => plainText c.text
  blankLines : List.Forall₂ (fun t t' => Text.HasBlankLine t ↔ Text.HasBlankLine t')
    (between source d.grammar.rules) (between source' d'.grammar.rules)

instance (d : Document) (ignore : Text) : Decidable (d.IgnoresNone ignore) :=
  inferInstanceAs (Decidable (∀ x ∈ ruleStarts 0 d.grammar.rules, d.ignoresAt ignore x.1 = false))

instance (source source' : Text) (d d' : Document) : Decidable (SameContent source source' d d') :=
  decidable_of_iff (_ ∧ _ ∧ _) ⟨fun h => ⟨h.1, h.2.1, h.2.2⟩, fun h => ⟨h.kinds, h.comments, h.blankLines⟩⟩

variable {ps ps' : List Passage} {trail trail' : List Lexeme}

theorem Printed.map_kind_tokens (h : Printed source d ps trail) :
    d.tokens.map (·.kind) = d.grammar.rules.flatMap Rule.yield ++ [.eof] := by
  have hg := congrArg (List.map Gist.kind) h.gists
  rw [List.map_map, List.map_append, h.laid.map_kind_flatten] at hg
  exact hg

theorem Printed.map_bare_eq (h : Printed source d ps trail) (h' : Printed source' d' ps' trail')
    (hk : d.tokens.map (·.kind) = d'.tokens.map (·.kind)) :
    d.grammar.rules.map Rule.bare = d'.grammar.rules.map Rule.bare := by
  have hy (rs : List (Rule Span)) : (rs.map Rule.bare).flatMap Rule.yield = rs.flatMap Rule.yield := by
    simp [List.flatMap_map, Rule.yield_bare]
  have hw {rs : List (Rule Span)} (hrs : ∀ r ∈ rs, r.WellBound) : ∀ r ∈ rs.map Rule.bare, r.WellBound := by
    intro r hr
    obtain ⟨s, hs, rfl⟩ := List.mem_map.1 hr
    exact s.wellBound_bare.2 (hrs s hs)
  rw [h.map_kind_tokens, h'.map_kind_tokens] at hk
  refine rules_eq_of_yield_eq (hw h.wellBound) (hw h'.wellBound) ?_
  rw [hy, hy]
  exact List.append_cancel_right hk

theorem SameContent.alike (hc : SameContent source source' d d') (config : Config) :
    Page.Alike (Page.ofDocument config source d) (Page.ofDocument config source' d') := by
  have htexts : d.commentTexts.map (List.map plainText) = d'.commentTexts.map (List.map plainText) := by
    simpa [commentTexts, Function.comp_def] using hc.comments
  have hat (e : Document) (i : Nat) : (e.commentTexts[i]?.getD []).map plainText =
      (e.commentTexts.map (List.map plainText))[i]?.getD [] := by
    rw [List.getElem?_map]
    cases e.commentTexts[i]? <;> rfl
  refine ⟨rfl, funext fun i => ?_⟩
  rw [Page.tidyNotes, Page.tidyNotes, Page.notesAt_eq, Page.notesAt_eq]
  refine map_eq_of_forall₂ (fun c c' h => normalText_congr h) (forall₂_of_map_eq ?_)
  rw [hat, hat, htexts]

theorem sameRoom_of_map_bare {rs rs' : List (Rule Span)} (h : rs.map Rule.bare = rs'.map Rule.bare) :
    List.Forall₂ SameRoom rs rs' := by
  refine (forall₂_of_map_eq h).imp fun r r' hr => ?_
  have hname : r.bare.name = r'.bare.name := congrArg Rule.name hr
  refine ⟨hname, ?_⟩
  rw [← r.yield_bare, hr, r'.yield_bare]

theorem IgnoresNone.at_congr (hn : d'.IgnoresNone config.ignore)
    (hr : List.Forall₂ SameRoom d.grammar.rules d'.grammar.rules) :
    ∀ x ∈ ruleStarts 0 d.grammar.rules, d'.ignoresAt config.ignore x.1 = false := by
  intro x hx
  have hmem : (x.1, x.2.yield.length) ∈ (ruleStarts 0 d'.grammar.rules).map fun y => (y.1, y.2.yield.length) := by
    rw [← ruleStarts_congr 0 hr]
    exact List.mem_map_of_mem (f := fun y : Nat × Rule Span => (y.1, y.2.yield.length)) hx
  obtain ⟨y, hy, he⟩ := List.mem_map.1 hmem
  rw [← (Prod.mk.inj he).1]
  exact hn y hy

end Document

namespace Layout

/-- The layout depends on the content alone. Nothing else of a source leaks
into it: no blanks or breaks, no spelling of a number, no place. -/
theorem format_eq_of_sameContent (config : Config) (h : Document.ofSource source = .ok d)
    (h' : Document.ofSource source' = .ok d') (hn : d.IgnoresNone config.ignore)
    (hn' : d'.IgnoresNone config.ignore) (hc : Document.SameContent source source' d d') :
    format config source d = format config source' d' := by
  obtain ⟨ps, trail, hd⟩ := Document.printed_of_ofSource h
  obtain ⟨ps', trail', hd'⟩ := Document.printed_of_ofSource h'
  have ha := hc.alike config
  have hbare := hd.map_bare_eq hd' hc.kinds
  have hroom := Document.sameRoom_of_map_bare hbare
  refine format_congr ha hroom ?_ ?_
  · rw [partings_eq_map, partings_eq_map]
    exact map_eq_of_forall₂ (fun t t' ht => decide_eq_decide.2 ht) hc.blankLines
  · have hrules := forall₂_of_map_eq hbare
    rw [← map_snd_ruleStarts 0 d.grammar.rules, List.forall₂_map_left_iff] at hrules
    refine ((List.forall₂_and_left _ _).2 ⟨fun x hx => And.intro (hn x hx) (hn'.at_congr hroom x hx), hrules⟩).imp
      fun x r hx => ?_
    obtain ⟨⟨hi, hi'⟩, hr⟩ := hx
    exact ha.sameBody hi hi' (f := fun a => a) (by rw [Rule.mapAtom_id, hr]) (undone_id _ _)

theorem format_eq_of_loose_text :
    let source : Text := "(*\u00a0a*)r=2*x,(*b\r\nc*)'y';\n\n s=;".toList
    let source' : Text := "(* a *)\nr =\t02 * x , (*b\nc*) 'y' ;\r\n\r\n\ns = ;".toList
    ∃ d d', Document.ofSource source = .ok d ∧ Document.ofSource source' = .ok d' ∧
      Document.SameContent source source' d d' ∧ format {} source d = format {} source' d' := by
  intro source source'
  have hread : ((Document.ofSource source).map fun d => (Document.ofSource source').map fun d' =>
      decide (d.IgnoresNone ({} : Config).ignore ∧ d'.IgnoresNone ({} : Config).ignore ∧
        Document.SameContent source source' d d')) = .ok (.ok true) := by decide +kernel
  obtain ⟨d, h, hd⟩ := exists_of_map_eq_ok hread
  obtain ⟨d', h', hd'⟩ := exists_of_map_eq_ok hd
  obtain ⟨hn, hn', hc⟩ := of_decide_eq_true hd'
  exact ⟨d, d', h, h', hc, format_eq_of_sameContent {} h h' hn hn' hc⟩

end Layout

end Ebnf
