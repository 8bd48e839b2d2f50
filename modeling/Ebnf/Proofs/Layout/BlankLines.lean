import Ebnf.Proofs.Layout.Page

namespace Ebnf.Layout

open Lexeme Text

theorem parted_of_slice {source between : Text} {r s : Rule Span}
    (h : Span.slice ⟨r.place.stop, s.place.start⟩ source = between) :
    parted source r s = decide (HasBlankLine between) := by
  rw [Bool.eq_iff_iff, decide_eq_true_iff, HasBlankLine, ← occursIn_iff, ← occursIn_iff, ← Bool.or_eq_true, ← h]
  rfl

theorem parted_of_passages {r s : Rule Span} {q q' : Passage} {n : Nat} (hr : r.place = q.place n)
    (hs : s.place = q'.place (n + q.size)) {before : Text} (hn : before.byteLength = n) (behind : Text) :
    parted (before ++ (spell q.lexemes ++ (spell q'.lexemes ++ behind))) r s =
      decide (HasBlankLine (spell q'.lead)) := by
  have hnext : (before ++ spell q.lexemes).byteLength = n + q.size := by
    rw [byteLength_append, hn, Passage.size]
  have hstop : r.place.stop = (before ++ spell q.lexemes).byteLength := by
    rw [hr, hnext]
    rfl
  have hstart : s.place.start = (before ++ spell q.lexemes).byteLength + (spell q'.lead).byteLength := by
    rw [hs, hnext]
    rfl
  have hsource : before ++ (spell q.lexemes ++ (spell q'.lexemes ++ behind)) =
      before ++ spell q.lexemes ++ (spell q'.lead ++ (spell q'.body ++ behind)) := by
    simp [Passage.lexemes]
  have hslice := Span.slice_append (before ++ spell q.lexemes) (spell q'.lead) (spell q'.body ++ behind)
  rw [parted_of_slice rfl, hstop, hstart, hsource, hslice]

theorem partings_of_laid {n : Nat} {rs : List (Rule Span)} {ps : List Passage} (h : Passage.Laid n rs ps)
    {before : Text} (hn : before.byteLength = n) (trail : List Lexeme) :
    partings (before ++ spell (Passage.allLexemes ps trail)) rs =
      ps.tail.map fun q => decide (HasBlankLine (spell q.lead)) := by
  induction h generalizing before with
  | nil => rfl
  | @cons n r rs q ps hk hp hl ih =>
      cases hl with
      | nil => rfl
      | @cons _ s rs q' ps hk' hp' hl =>
          have hnext : (before ++ spell q.lexemes).byteLength = n + q.size := by
            rw [byteLength_append, hn, Passage.size]
          have hrest := ih hnext
          have hparted := parted_of_passages hp hp' hn (spell (Passage.allLexemes ps trail))
          rw [Passage.allLexemes_cons, spell_append, List.append_assoc] at hrest
          rw [partings, Passage.allLexemes_cons, Passage.allLexemes_cons, spell_append, spell_append, hparted,
            hrest]
          rfl

theorem partings_of_printed {source : Text} {d : Document} {ps : List Passage} {trail : List Lexeme}
    (h : Document.Printed source d ps trail) :
    partings source d.grammar.rules = ps.tail.map fun q => decide (HasBlankLine (spell q.lead)) := by
  have hp := partings_of_laid h.laid byteLength_nil trail
  rwa [List.nil_append, ← h.source_eq] at hp

theorem spelling_infix_of_mem_notes {ls : List Lexeme} {c : Text} (hc : c ∈ ls.flatMap Lexeme.notes) :
    (Lexeme.comment c).spelling <:+: spell ls := by
  obtain ⟨l, hl, hcl⟩ := List.mem_flatMap.1 hc
  obtain ⟨l₁, l₂, rfl⟩ := List.append_of_mem hl
  cases l with
  | comment body =>
      rw [List.mem_singleton.1 hcl]
      exact ⟨spell l₁, spell l₂, by simp⟩
  | _ => cases hcl

theorem infix_of_mem_notes {ls : List Lexeme} {c : Text} (hc : c ∈ ls.flatMap Lexeme.notes) : c <:+: spell ls :=
  List.IsInfix.trans ⟨['(', '*'], ['*', ')'], rfl⟩ (spelling_infix_of_mem_notes hc)

theorem unixBreaks_newline (nl : Newline) (t : Text) : unixBreaks (nl.text ++ t) = '\n' :: unixBreaks t := by
  cases nl with
  | unix => exact unixBreaks_cons (by simp)
  | windows => rfl

theorem unixBreaks_noteLine (nl : Newline) (t u : Text) :
    unixBreaks ((Lexeme.comment t).spelling ++ nl.text ++ u) =
      '(' :: '*' :: (unixBreaks t ++ '*' :: ')' :: '\n' :: unixBreaks u) := by
  have hbehind : unixBreaks ('*' :: ')' :: (nl.text ++ u)) = '*' :: ')' :: '\n' :: unixBreaks u := by
    rw [unixBreaks_cons (by simp), unixBreaks_cons (by simp), unixBreaks_newline]
  have hinside : unixBreaks (t ++ '*' :: ')' :: (nl.text ++ u)) =
      unixBreaks t ++ '*' :: ')' :: '\n' :: unixBreaks u := by
    rw [unixBreaks_append (.inr (by simp)), hbehind]
  rw [← hinside, ← unixBreaks_cons (c := '*') (by simp), ← unixBreaks_cons (c := '(') (by simp)]
  simp [spelling]

theorem not_hasBlankLine_noteLines (nl : Newline) {ts : List Text} (h : ∀ t ∈ ts, ¬ HasBlankLine t) :
    ¬ HasBlankLine (nl.text ++ ts.flatMap fun t => (Lexeme.comment t).spelling ++ nl.text) := by
  rw [← blank_line_infix_unixBreaks, unixBreaks_newline]
  induction ts with
  | nil => exact (by decide : ¬ ['\n', '\n'] <:+: ['\n'])
  | cons t ts ih =>
      obtain ⟨ht, hts⟩ := List.forall_mem_cons.1 h
      rw [← blank_line_infix_unixBreaks] at ht
      rw [List.flatMap_cons, unixBreaks_noteLine, pair_infix_cons, infix_cons_of_ne (by decide),
        infix_cons_of_ne (by decide), pair_infix_append, infix_cons_of_ne (by decide),
        infix_cons_of_ne (by decide)]
      simp [ht, ih hts]

namespace Page

variable {p : Page} {e : Entry} {q : Passage}

theorem Sets.hasBlankLine_lead (h : p.Sets [p.breakGap] e q)
    (hn : e.opensBlock = false → ∀ c ∈ p.notesAt e.index, ¬ HasBlankLine (normalText p.config.newline c)) :
    decide (HasBlankLine (spell q.lead)) = e.opensBlock := by
  have hlead : spell q.lead = p.newline ++ (spell (p.openingLexemes e) ++ p.noteLines e.index) := by
    rw [h.lead_eq, spell_append, spell_append, spell_noteLexemes]
    simp [breakGap, spelling]
  rw [hlead, spell_openingLexemes]
  cases ho : e.opensBlock with
  | true =>
      apply decide_eq_true
      have htwo (nl : Newline) (t : Text) : HasBlankLine (nl.text ++ (nl.text ++ t)) := by
        cases nl with
        | unix => exact .inl ⟨[], t, rfl⟩
        | windows => exact .inr ⟨['\r'], t, rfl⟩
      exact htwo _ _
  | false =>
      have hlines : p.noteLines e.index =
          ((p.notesAt e.index).map (normalText p.config.newline)).flatMap fun t =>
            (Lexeme.comment t).spelling ++ p.config.newline.text := by
        rw [List.flatMap_map]
        rfl
      apply decide_eq_false
      rw [hlines]
      apply not_hasBlankLine_noteLines p.config.newline
      intro t ht
      obtain ⟨c, hc, rfl⟩ := List.mem_map.1 ht
      exact hn ho c hc

end Page

end Ebnf.Layout
