import Ebnf.Proofs.Layout.Reprint

namespace Ebnf

open Lexeme Layout

variable {config : Config} {source : Text} {d d' : Document} {ps qs : List Passage} {trail trail' : List Lexeme}

def Passage.comments (q : Passage) : List (List Text) := (tokens q.notes q.body).map Prod.fst

theorem Passage.map_comments_gists (q : Passage) (n : Nat) : (q.gists n).map Gist.comments = q.comments := by
  rw [comments, gists, ← map_gists, List.map_map]
  rfl

theorem Passage.map_comments_gistsFrom (n : Nat) (ps : List Passage) :
    (Passage.gistsFrom n ps).flatten.map Gist.comments = ps.flatMap Passage.comments := by
  induction ps generalizing n with
  | nil => rfl
  | cons q ps ih =>
      rw [gistsFrom, List.flatten_cons, List.map_append, map_comments_gists, ih, List.flatMap_cons]

namespace Document

def commentTexts (d : Document) : List (List Text) := d.tokens.map fun t => t.comments.map (·.text)

def ignoresAt (d : Document) (ignore : Text) (i : Nat) : Bool :=
  (d.commentTexts[i]?.getD []).any (Text.occursIn ignore)

/-- Whether a token stands behind the name of a rule that is to be ignored. -/
def copies (d : Document) (ignore : Text) (i : Nat) : Bool :=
  (ruleStarts 0 d.grammar.rules).any fun x =>
    d.ignoresAt ignore x.1 && decide (x.1 < i ∧ i < x.1 + x.2.yield.length)

theorem copies_eq_true {ignore : Text} {i : Nat} : d.copies ignore i = true ↔
    ∃ x ∈ ruleStarts 0 d.grammar.rules, d.ignoresAt ignore x.1 = true ∧ x.1 < i ∧ i < x.1 + x.2.yield.length := by
  simp [copies]

theorem copies_eq {ignore : Text} {i : Nat} {x : Nat × Rule Span} (hx : x ∈ ruleStarts 0 d.grammar.rules)
    (hl : x.1 ≤ i) (hr : i < x.1 + x.2.yield.length) :
    d.copies ignore i = true ↔ d.ignoresAt ignore x.1 = true ∧ i ≠ x.1 := by
  rw [copies_eq_true]
  constructor
  · rintro ⟨y, hy, hi, hlt, hyr⟩
    obtain rfl := eq_of_mem_ruleStarts hx hy ⟨hl, hr⟩ ⟨Nat.le_of_lt hlt, hyr⟩
    exact ⟨hi, Nat.ne_of_gt hlt⟩
  · rintro ⟨hi, hne⟩
    exact ⟨x, hx, hi, Nat.lt_of_le_of_ne hl (Ne.symm hne), hr⟩

theorem copies_start {ignore : Text} {x : Nat × Rule Span} (hx : x ∈ ruleStarts 0 d.grammar.rules) :
    d.copies ignore x.1 = false := by
  have hlen := x.2.yield_length
  rw [← Bool.not_eq_true, copies_eq hx (Nat.le_refl _) (by omega)]
  exact fun h => h.2 rfl

theorem copies_last (d : Document) (ignore : Text) : d.copies ignore (tokenCount d.grammar.rules) = false := by
  rw [← Bool.not_eq_true, copies_eq_true]
  rintro ⟨x, hx, -, -, hr⟩
  have := add_le_of_mem_ruleStarts hx
  rw [Nat.zero_add] at this
  omega

theorem comments_texts (d : Document) : d.comments.map (fun x => (x.1, x.2.map (·.text))) =
    d.commentTexts.zipIdx.filterMap fun x => if x.1.isEmpty then none else some (x.2, x.1) := by
  rw [comments, commentTexts, List.map_filterMap, List.zipIdx_map, List.filterMap_map]
  apply List.filterMap_congr
  intro x _
  cases h : x.1.comments <;> simp [h]

theorem Printed.commentTexts_eq (h : Printed source d ps trail) :
    d.commentTexts = ps.flatMap Passage.comments ++ [trail.flatMap Lexeme.notes] := by
  have ht : d.commentTexts = (d.tokens.map Token.gist).map Gist.comments := by
    rw [commentTexts, List.map_map]
    rfl
  rw [ht, h.gists, List.map_append, Passage.map_comments_gistsFrom]
  rfl

theorem Printed.length_commentTexts (h : Printed source d ps trail) :
    d.commentTexts.length = tokenCount d.grammar.rules + 1 := by
  have hl := congrArg List.length h.gists
  rwa [List.length_map, List.length_append, h.laid.length_flatten, ← List.length_map (f := fun t : Token =>
    t.comments.map (·.text))] at hl

end Document

namespace Layout

def keptTexts (config : Config) (d : Document) (i : Nat) (texts : List Text) : List Text :=
  texts.map fun c => if d.copies config.ignore i then c else normalText config.newline c

theorem Page.notesAt_eq (config : Config) (source : Text) (d : Document) (i : Nat) :
    (Page.ofDocument config source d).notesAt i = d.commentTexts[i]?.getD [] := by
  simp [notesAt, ofDocument, Document.commentTexts]

theorem Page.ignores_eq (config : Config) (source : Text) (d : Document) (e : Entry) :
    (Page.ofDocument config source d).ignores e = d.ignoresAt config.ignore e.index := by
  rw [ignores, notesAt_eq]
  rfl

theorem keptTexts_eq (config : Config) (source : Text) (d : Document) (i : Nat) :
    keptTexts config d i ((Page.ofDocument config source d).notesAt i) = if d.copies config.ignore i then
      (Page.ofDocument config source d).notesAt i else (Page.ofDocument config source d).tidyNotes i := by
  rw [keptTexts]
  split
  · exact List.map_id _
  · rfl

theorem Page.length_yield_settled (p : Page) (e : Entry) :
    (p.settled e).yield.length = e.rule.yield.length := by
  rw [settled]
  split
  · rfl
  · exact Rule.length_yield_mapAtom _ _

theorem Page.Sets.comments_eq {pre : List Lexeme} {e : Entry} {q : Passage}
    (he : (e.index, e.rule) ∈ ruleStarts 0 d.grammar.rules) (h : (Page.ofDocument config source d).Sets pre e q) :
    q.comments = (List.range' e.index e.rule.yield.length).map fun i =>
      keptTexts config d i ((Page.ofDocument config source d).notesAt i) := by
  obtain ⟨k, ts, h₀, ht⟩ := q.exists_tokens
  obtain ⟨-, rfl⟩ := List.cons.inj (h₀.symm.trans h.tokens_eq)
  have hlen : e.rule.yield.length = ((Page.ofDocument config source d).settled e).yield.tail.length + 1 :=
    ((Page.ofDocument config source d).length_yield_settled e).symm
  rw [Passage.comments, ht, List.map_cons, map_fst_attach, hlen, List.range'_succ, List.map_cons, h.notes_eq,
    keptTexts_eq, Document.copies_start he, if_neg Bool.false_ne_true]
  refine congrArg _ (List.map_congr_left fun i hi => ?_)
  obtain ⟨hl, hr⟩ := List.mem_range'_1.1 hi
  have hcopies : d.copies config.ignore i = true ↔ d.ignoresAt config.ignore e.index = true ∧ i ≠ e.index :=
    Document.copies_eq he (Nat.le_of_succ_le hl) (by
      dsimp only
      omega)
  rw [keptTexts_eq, bodyNotes, ignores_eq]
  by_cases hig : d.ignoresAt config.ignore e.index = true
  · rw [if_pos hig, if_pos (hcopies.2 ⟨hig, Nat.ne_of_gt hl⟩)]
  · rw [if_neg hig, if_neg fun hc => hig (hcopies.1 hc).1]

theorem flatMap_comments {F : Nat → List Text} {n : Nat} {rs : List (Rule Span)}
    (h : List.Forall₂ (fun x q => Passage.comments q = (List.range' x.1 x.2.yield.length).map F)
      (ruleStarts n rs) qs) :
    qs.flatMap Passage.comments = (List.range' n (tokenCount rs)).map F := by
  induction rs generalizing n qs with
  | nil =>
      cases h
      rfl
  | cons r rs ih =>
      obtain ⟨q, qs, hq, hqs, rfl⟩ := List.forall₂_cons_left_iff.1 h
      rw [List.flatMap_cons, hq, ih hqs, ← List.map_append, List.range'_append_1]
      rfl

theorem Reprint.commentTexts_eq (hd : Document.Printed source d ps trail)
    (h : Reprint config source d d' qs trail') :
    d'.commentTexts = d.commentTexts.mapIdx (keptTexts config d) := by
  have hsets : List.Forall₂ (fun x q => Passage.comments q = (List.range' x.1 x.2.yield.length).map fun i =>
      keptTexts config d i ((Page.ofDocument config source d).notesAt i)) (ruleStarts 0 d.grammar.rules) qs := by
    rw [← map_entries config.align source, List.forall₂_map_left_iff]
    refine ((List.forall₂_and_left _ _).2 ⟨fun e => mem_ruleStarts_of_mem_entries, h.sets⟩).imp fun e q hq => ?_
    obtain ⟨he, pre, hq⟩ := hq
    exact hq.comments_eq he
  have hlast : trail'.flatMap Lexeme.notes = keptTexts config d (tokenCount d.grammar.rules)
      ((Page.ofDocument config source d).notesAt (tokenCount d.grammar.rules)) := by
    rw [keptTexts_eq, d.copies_last, h.trail_notes, if_neg Bool.false_ne_true]
  have hrange : d'.commentTexts = (List.range' 0 d.commentTexts.length).map fun i =>
      keptTexts config d i ((Page.ofDocument config source d).notesAt i) := by
    rw [h.printed.commentTexts_eq, flatMap_comments hsets, hlast, hd.length_commentTexts, List.range'_1_concat,
      List.map_append, Nat.zero_add]
    rfl
  rw [hrange]
  refine List.ext_getElem (by simp) fun i hi hi' => ?_
  have hlt : i < d.commentTexts.length := by simpa using hi
  simp [Page.notesAt_eq, hlt]

theorem zipIdx_mapIdx {α β : Type} (f : Nat → α → β) (l : List α) :
    (l.mapIdx f).zipIdx = l.zipIdx.map fun x => (f x.2 x.1, x.2) := by
  refine List.ext_getElem (by simp) fun i hi hi' => ?_
  simp

/-- The layout loses, doubles and moves no comment. In front of each token there
are the same comments as before, in the same order. -/
theorem format_keeps_comments (config : Config) (h : Document.ofSource source = .ok d) :
    ∃ d', Document.ofSource (format config source d) = .ok d' ∧
      d'.comments.map (fun x => (x.1, x.2.map (·.text))) =
        d.comments.map fun x => (x.1, x.2.map fun c =>
          if d.copies config.ignore x.1 then c.text else normalText config.newline c.text) := by
  obtain ⟨ps, trail, hd⟩ := Document.printed_of_ofSource h
  obtain ⟨d', qs, trail', hr⟩ := exists_reprint config hd
  refine ⟨d', hr.read, ?_⟩
  have hright : (d.comments.map fun x => (x.1, x.2.map fun c =>
      if d.copies config.ignore x.1 then c.text else normalText config.newline c.text)) =
      (d.comments.map fun x => (x.1, x.2.map (·.text))).map fun x => (x.1, keptTexts config d x.1 x.2) := by
    rw [List.map_map]
    apply List.map_congr_left
    intro x _
    simp [keptTexts]
  rw [hright, Document.comments_texts, Document.comments_texts, hr.commentTexts_eq hd, List.map_filterMap,
    zipIdx_mapIdx, List.filterMap_map]
  apply List.filterMap_congr
  intro x _
  cases hx : x.1 <;> simp [keptTexts, hx]

theorem format_keeps_comments_of_ignored_rule :
    ∃ d d', Document.ofSource "(*ebnf-fmt-ignore*)a=(*x*);b=(*x*);".toList = .ok d ∧
      Document.ofSource "(* ebnf-fmt-ignore *)\na=(*x*);\nb = (* x *) ;\n".toList = .ok d' ∧
      d'.comments.map (fun x => (x.1, x.2.map (·.text))) =
        [(0, [" ebnf-fmt-ignore ".toList]), (2, ["x".toList]), (5, [" x ".toList])] := by
  obtain ⟨d, h, hd⟩ : ∃ d, Document.ofSource "(*ebnf-fmt-ignore*)a=(*x*);b=(*x*);".toList = .ok d ∧
      (format {} "(*ebnf-fmt-ignore*)a=(*x*);b=(*x*);".toList d, d.comments.map fun x => (x.1, x.2.map fun c =>
        if d.copies ({} : Config).ignore x.1 then c.text else normalText ({} : Config).newline c.text)) =
      ("(* ebnf-fmt-ignore *)\na=(*x*);\nb = (* x *) ;\n".toList,
        [(0, [" ebnf-fmt-ignore ".toList]), (2, ["x".toList]), (5, [" x ".toList])]) :=
    exists_of_map_eq_ok (by decide +kernel)
  obtain ⟨hout, htexts⟩ := Prod.mk.inj hd
  obtain ⟨d', h', hc⟩ := format_keeps_comments {} h
  rw [hout] at h'
  exact ⟨d, d', h, h', hc.trans htexts⟩

end Layout

end Ebnf
