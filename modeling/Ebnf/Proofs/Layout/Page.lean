import Ebnf.Proofs.Layout.Notes

namespace Ebnf.Layout

open Lexeme

namespace Page

variable {p : Page}

def settled (p : Page) (e : Entry) : Rule Span :=
  if p.ignores e then e.rule else e.rule.mapAtom (Atom.requote p.config.quotes)

def bodyNotes (p : Page) (e : Entry) : Nat → List Text := if p.ignores e then p.notesAt else p.tidyNotes

def bodyText (p : Page) (e : Entry) : Text := if p.ignores e then e.rule.place.slice p.source else p.ruleText e

def breakGap (p : Page) : Lexeme := .gap p.newline

def noteLexemes (p : Page) (i : Nat) : List Lexeme :=
  (p.notesAt i).flatMap fun c => [.comment (normalText p.config.newline c), p.breakGap]

def openingLexemes (p : Page) (e : Entry) : List Lexeme := if e.opensBlock then [p.breakGap] else []

theorem fills_breakGap (p : Page) : Fills p.config.newline p.breakGap := (Padding.newline p.config.newline).fills

theorem spell_noteLexemes (p : Page) (i : Nat) : spell (p.noteLexemes i) = p.noteLines i := by
  rw [noteLexemes, noteLines, spell, List.flatMap_assoc]
  apply List.flatMap_congr
  intro c _
  rw [newline, commentText_eq, ← newline]
  simp [breakGap, spelling]

theorem fills_noteLexemes (hp : p.Readable) (i : Nat) : ∀ l ∈ p.noteLexemes i, Fills p.config.newline l := by
  intro l hl
  obtain ⟨c, hc, hl⟩ := List.mem_flatMap.1 hl
  rcases List.mem_cons.1 hl with rfl | hl
  · exact fills_comment (hp i c hc)
  · rw [List.mem_singleton.1 hl]
    exact p.fills_breakGap

theorem notes_noteLexemes (p : Page) (i : Nat) : (p.noteLexemes i).flatMap Lexeme.notes = p.tidyNotes i := by
  rw [noteLexemes, List.flatMap_assoc, tidyNotes, List.map_eq_flatMap]
  rfl

theorem spell_openingLexemes (p : Page) (e : Entry) :
    spell (p.openingLexemes e) = if e.opensBlock then p.newline else [] := by
  rw [openingLexemes]
  split <;> simp [breakGap, spelling]

theorem fills_openingLexemes (p : Page) (e : Entry) : ∀ l ∈ p.openingLexemes e, Fills p.config.newline l := by
  intro l hl
  rw [openingLexemes] at hl
  split at hl
  · rw [List.mem_singleton.1 hl]
    exact p.fills_breakGap
  · cases hl

theorem notes_openingLexemes (p : Page) (e : Entry) : (p.openingLexemes e).flatMap Lexeme.notes = [] := by
  rw [openingLexemes]
  split <;> rfl

def entryText (p : Page) (e : Entry) : Text :=
  spell (p.openingLexemes e) ++ (p.noteLines e.index ++ p.bodyText e ++ p.newline)

theorem text_eq (p : Page) (rules : List (Rule Span)) : p.text rules =
    (entries p.config.align p.source rules).flatMap p.entryText ++ p.noteLines (tokenCount rules) := by
  have he : p.entryText = fun e => (if e.opensBlock then p.newline else []) ++ p.segment e := by
    funext e
    rw [entryText, spell_openingLexemes]
    rfl
  rw [text, he]

/-- The passage that the layout writes for an entry. `pre` ends what stands in
front of it. -/
structure Sets (p : Page) (pre : List Lexeme) (e : Entry) (q : Passage) : Prop where
  pre_notes : pre.flatMap Lexeme.notes = []
  lead_eq : q.lead = pre ++ p.openingLexemes e ++ p.noteLexemes e.index
  body_eq : spell q.body = p.bodyText e
  tokens_eq : tokens [] q.body =
    ([], .identifier e.rule.name) :: attach (p.bodyNotes e) (e.index + 1) (p.settled e).yield.tail
  lead_padded : ∀ l ∈ q.lead, Padded p.config.newline l
  body_padded : p.ignores e = false → ∀ l ∈ q.body, Padded p.config.newline l

namespace Sets

variable {pre : List Lexeme} {e : Entry} {q : Passage}

theorem notes_eq (h : p.Sets pre e q) : q.notes = p.tidyNotes e.index := by
  rw [Passage.notes, h.lead_eq, List.flatMap_append, List.flatMap_append, h.pre_notes, notes_openingLexemes,
    notes_noteLexemes]
  rfl

theorem kinds_eq (h : p.Sets pre e q) : q.kinds = (p.settled e).yield := by
  have hname : (p.settled e).name = e.rule.name := by
    rw [settled]
    split <;> rfl
  have hy : (p.settled e).yield = .identifier (p.settled e).name :: (p.settled e).yield.tail := rfl
  rw [Passage.kinds, h.tokens_eq, List.map_cons, map_snd_attach, hy, hname]
  rfl

end Sets

theorem exists_ruleText (p : Page) (e : Entry) :
    ∃ glue, Padding p.config.newline glue ∧ p.ruleText e = (p.parts e).text glue := by
  rw [ruleText]
  split
  · exact ⟨_, ⟨_, .inr rfl⟩, rfl⟩
  · exact ⟨[' '], .space _, rfl⟩

theorem exists_sets (hp : p.Readable) {e : Entry} {q : Passage}
    (h : NotedAt p.notesAt p.source (e.index, e.rule) q)
    (pre : List Lexeme) (hpre : ∀ l ∈ pre, Fills p.config.newline l) (hn : pre.flatMap Lexeme.notes = []) :
    ∃ q', p.Sets pre e q' := by
  obtain ⟨ht, hs, hk⟩ := h
  have hfills : ∀ l ∈ pre ++ p.openingLexemes e ++ p.noteLexemes e.index, Fills p.config.newline l :=
    List.forall_mem_append.2
      ⟨List.forall_mem_append.2 ⟨hpre, p.fills_openingLexemes e⟩, fills_noteLexemes hp e.index⟩
  have hlead : ∀ l ∈ pre ++ p.openingLexemes e ++ p.noteLexemes e.index, l.IsTrivia := fun l hl => (hfills l hl).1
  by_cases hi : p.ignores e = true
  · refine ⟨⟨_, q.body, hlead, q.body_legible, q.body_form⟩, hn, rfl, ?_, ?_, fun l hl => (hfills l hl).2,
      fun hf => absurd hi (by simp [hf])⟩
    · rw [bodyText, if_pos hi]
      exact hs.symm
    · obtain ⟨k, ts, h₀, h⟩ := q.exists_tokens
      have hy : e.rule.yield = .identifier e.rule.name :: e.rule.yield.tail := rfl
      rw [h, hy, attach] at ht
      obtain ⟨hk', hts⟩ := List.cons.inj ht
      rw [settled, if_pos hi, bodyNotes, if_pos hi]
      show tokens [] q.body = _
      rw [h₀, hts, (Prod.mk.inj hk').2]
  · obtain ⟨glue, hg, hr⟩ := p.exists_ruleText e
    obtain ⟨q', hq', hs', ht', hpad⟩ := exists_passage_parts hg hp e (hk ▸ q.legal) hlead
    refine ⟨q', hn, hq', ?_, ?_, hq' ▸ fun l hl => (hfills l hl).2, fun _ => hpad⟩
    · rw [hs', bodyText, if_neg hi, hr]
    · rw [ht', bodyNotes, if_neg hi, settled, if_neg hi]

theorem exists_allLexemes (hp : p.Readable) {es : List Entry} {ps : List Passage}
    (h : List.Forall₂ (fun e => NotedAt p.notesAt p.source (e.index, e.rule)) es ps) (last : Nat) :
    ∃ qs trail, List.Forall₂ (p.Sets [p.breakGap]) es qs ∧ (∀ l ∈ trail, Fills p.config.newline l) ∧
      trail.flatMap Lexeme.notes = p.tidyNotes last ∧
      spell (Passage.allLexemes qs trail) = p.newline ++ (es.flatMap p.entryText ++ p.noteLines last) := by
  have hgap : ∀ l ∈ [p.breakGap], Fills p.config.newline l := List.forall_mem_singleton.2 p.fills_breakGap
  induction h with
  | nil =>
      refine ⟨[], p.breakGap :: p.noteLexemes last, .nil,
        List.forall_mem_cons.2 ⟨p.fills_breakGap, fills_noteLexemes hp last⟩, p.notes_noteLexemes last, ?_⟩
      simp [Passage.allLexemes, spell_noteLexemes, breakGap, spelling]
  | @cons e q es ps he _ ih =>
      obtain ⟨qs, trail, hqs, ht, hn, hs⟩ := ih
      obtain ⟨q', hq'⟩ := exists_sets hp he _ hgap rfl
      refine ⟨q' :: qs, trail, .cons hq' hqs, ht, hn, ?_⟩
      rw [Passage.allLexemes_cons, spell_append, hs, Passage.lexemes, spell_append, hq'.lead_eq, hq'.body_eq]
      simp [entryText, spell_noteLexemes, breakGap, spelling]

end Page

end Ebnf.Layout
