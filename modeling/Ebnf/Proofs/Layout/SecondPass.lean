import Ebnf.Proofs.Layout.Content
import Ebnf.Proofs.Layout.SameGrammar

namespace Ebnf

open Lexeme Layout

variable {config next : Config} {source : Text} {d d' : Document} {ps qs : List Passage} {trail trail' : List Lexeme}

/-- Whether the comments that are written anew have their final form after one
pass: with short breaks, no carriage return may stand in front of a long one. -/
def Document.Settles (config : Config) (d : Document) : Prop :=
  config.newline = .unix → ∀ i t, d.tokens[i]? = some t → d.copies config.ignore i = false →
    ∀ c ∈ t.comments, ¬ ['\r', '\r', '\n'] <:+: c.text

namespace Layout

theorem settles_iff (source : Text) : d.Settles config ↔ ∀ i, d.copies config.ignore i = false →
    ∀ c ∈ (Page.ofDocument config source d).notesAt i, config.newline = .unix → ¬ ['\r', '\r', '\n'] <:+: c := by
  simp only [Page.notesAt_eq, Document.Settles, Document.commentTexts, List.getElem?_map]
  constructor
  · intro h i hi c hc hu
    cases ht : d.tokens[i]? with
    | none => simp [ht] at hc
    | some t =>
        obtain ⟨x, hx, rfl⟩ : ∃ x ∈ t.comments, x.text = c := by simpa [ht] using hc
        exact h hu i t ht hi x hx
  · intro h hu i t ht hi c hc
    exact h i hi c.text (by simpa [ht] using ⟨c, hc, rfl⟩) hu

theorem forall₂_comp {α β γ : Type} {R : α → β → Prop} {S : γ → β → Prop} {xs : List α} {ys : List β}
    {zs : List γ} (h : List.Forall₂ R xs ys) (h' : List.Forall₂ S zs ys) :
    List.Forall₂ (fun x z => ∃ y, R x y ∧ S z y) xs zs := by
  induction h generalizing zs with
  | nil =>
      cases h'
      exact .nil
  | cons hx _ ih =>
      obtain ⟨z, zs, hz, hzs, rfl⟩ := List.forall₂_cons_right_iff.1 h'
      exact .cons ⟨_, hx, hz⟩ (ih hzs)

structure Rewritten (config : Config) (source : Text) (d : Document) (x : Nat × Rule Span) (r : Rule Span) :
    Prop where
  copied : d.ignoresAt config.ignore x.1 = true →
    r.bare = x.2.bare ∧ r.place.slice (format config source d) = x.2.place.slice source
  requoted : d.ignoresAt config.ignore x.1 = false → r.bare = (x.2.mapAtom (Atom.requote config.quotes)).bare

theorem Rewritten.sameRoom {x : Nat × Rule Span} {r : Rule Span} (h : Rewritten config source d x r) :
    SameRoom x.2 r := by
  have hroom {s : Rule Span} (hr : r.bare = s.bare) (hn : s.name = x.2.name)
      (hy : s.yield.length = x.2.yield.length) : SameRoom x.2 r := by
    have hname : r.bare.name = s.bare.name := congrArg Rule.name hr
    refine ⟨(hname.trans hn).symm, ?_⟩
    rw [← hy, ← s.yield_bare, ← hr, r.yield_bare]
  cases hi : d.ignoresAt config.ignore x.1 with
  | true => exact hroom (h.copied hi).1 rfl rfl
  | false => exact hroom (h.requoted hi) rfl (Rule.length_yield_mapAtom _ _)

namespace Reprint

section

variable (hd : Document.Printed source d ps trail) (hr : Reprint config source d d' qs trail')
include hd hr

theorem notesAt_eq (next : Config) (i : Nat) :
    (Page.ofDocument next (format config source d) d').notesAt i =
      keptTexts config d i ((Page.ofDocument next source d).notesAt i) := by
  rw [Page.notesAt_eq, Page.notesAt_eq, hr.commentTexts_eq hd, List.getElem?_mapIdx]
  cases d.commentTexts[i]? <;> rfl

/-- A second pass shows what the first one made of a comment as it would show
the comment itself. -/
theorem alike (next : Config) (hs : d.Settles config) :
    Page.Alike (Page.ofDocument next (format config source d) d') (Page.ofDocument next source d) := by
  refine ⟨rfl, funext fun i => ?_⟩
  rw [Page.tidyNotes, Page.tidyNotes, hr.notesAt_eq hd, keptTexts, List.map_map]
  apply List.map_congr_left
  intro c hc
  rw [Function.comp_apply]
  cases hi : d.copies config.ignore i with
  | true => rfl
  | false => exact normalText_congr (plainText_normalText ((settles_iff source).1 hs i hi c hc))

theorem ignoresAt_eq (hi : ∀ c ∈ config.ignore, Blank.isBlank c = false) (i : Nat) :
    d'.ignoresAt config.ignore i = d.ignoresAt config.ignore i := by
  have hkept := hr.notesAt_eq hd config i
  rw [Page.notesAt_eq, Page.notesAt_eq] at hkept
  rw [Document.ignoresAt, Document.ignoresAt, hkept, keptTexts, List.any_map]
  refine congrArg (List.any _) (funext fun c => ?_)
  rw [Function.comp_apply]
  split
  · rfl
  · rw [Bool.eq_iff_iff, Text.occursIn_iff, Text.occursIn_iff, infix_normalText hi]

end

theorem rewritten (hr : Reprint config source d d' qs trail') :
    List.Forall₂ (Rewritten config source d) (ruleStarts 0 d.grammar.rules) d'.grammar.rules := by
  have hbare := (forall₂_of_map_eq hr.rules_eq).flip
  have hslice := forall₂_comp hr.sets hr.printed.slices
  rw [← map_entries config.align source, List.forall₂_map_left_iff]
  refine (hbare.mp (fun _ _ h h' => And.intro h h') hslice).imp fun e r h => ?_
  obtain ⟨hb, q, ⟨pre, hq⟩, hs⟩ := h
  have hig := Page.ignores_eq config source d e
  refine ⟨fun hi => ⟨?_, ?_⟩, fun hi => ?_⟩
  · rw [hb, Page.settled, if_pos (hig.trans hi)]
  · rw [Span.slice, hs, hq.body_eq, Page.bodyText, if_pos (hig.trans hi)]
    rfl
  · rw [hb, Page.settled, if_neg (by rw [hig, hi]; exact Bool.false_ne_true)]
    rfl

theorem sameRoom (hr : Reprint config source d d' qs trail') :
    List.Forall₂ SameRoom d.grammar.rules d'.grammar.rules := by
  have h := hr.rewritten.imp fun _ _ h => h.sameRoom
  rwa [← List.forall₂_map_left_iff, map_snd_ruleStarts] at h

section

variable (hd : Document.Printed source d ps trail) (hr : Reprint config source d d' qs trail')
include hd hr

theorem copies_eq (hi : ∀ c ∈ config.ignore, Blank.isBlank c = false) (i : Nat) :
    d'.copies config.ignore i = d.copies config.ignore i := by
  have hstarts := ruleStarts_congr 0 hr.sameRoom
  have hany (e : Document) : e.copies config.ignore i = ((ruleStarts 0 e.grammar.rules).map fun x =>
      (x.1, x.2.yield.length)).any fun x => e.ignoresAt config.ignore x.1 && decide (x.1 < i ∧ i < x.1 + x.2) := by
    rw [List.any_map]
    rfl
  rw [hany, hany, ← hstarts]
  refine congrArg (List.any _) (funext fun x => ?_)
  rw [hr.ignoresAt_eq hd hi]

omit hr in
theorem not_hasBlankLine_notes :
    ∀ e ∈ (entries config.align source d.grammar.rules).tail, e.opensBlock = false →
    ∀ c ∈ (Page.ofDocument config source d).notesAt e.index, ¬ Text.HasBlankLine c := by
  have hopens := forall₂_of_map_eq
    ((map_opensBlock_tail config.align source d.grammar.rules).trans (partings_of_printed hd))
  have hnoted := List.forall₂_drop 1 (Page.notedAt_ofDocument config hd)
  rw [List.drop_one, List.drop_one] at hnoted
  refine ((List.forall₂_and_left _ _).1 (hopens.mp (S := fun e q => (e.opensBlock = false →
    ∀ c ∈ (Page.ofDocument config source d).notesAt e.index, ¬ Text.HasBlankLine c) ∧ True)
    (fun e q ho hq => ⟨fun hf c hc hb => ?_, trivial⟩) hnoted)).1
  -- a blank line inside a comment is one in front of the rule, so the rule opens a block
  have hno := of_decide_eq_false (ho.symm.trans hf)
  rw [← hq.notes_eq] at hc
  exact hno (hb.mono (infix_of_mem_notes hc))

theorem partings_eq (hs : d.Settles config) :
    partings source d.grammar.rules = partings (format config source d) d'.grammar.rules := by
  rw [← map_opensBlock_tail config.align source, partings_of_printed hr.printed]
  refine map_eq_of_forall₂ (fun e q h => ?_)
    ((List.forall₂_and_left _ _).2 ⟨fun e he => And.intro he (not_hasBlankLine_notes hd e he), hr.sets_tail⟩)
  obtain ⟨⟨he, hb⟩, hq⟩ := h
  have hcopies : d.copies config.ignore e.index = false :=
    Document.copies_start (mem_ruleStarts_of_mem_entries (List.mem_of_mem_tail he))
  refine (hq.hasBlankLine_lead fun ho c hc => ?_).symm
  have hfinal := (settles_iff source).1 hs e.index hcopies c hc
  exact fun h => hb ho c hc ((hasBlankLine_normalText hfinal).1 h)

/-- A rule gets the same text from a second pass as it would have got from it
at first. -/
theorem sameBody (hg : next.ignore = config.ignore) (hi : ∀ c ∈ config.ignore, Blank.isBlank c = false)
    (hq : next.quotes = .preserve → config.quotes = .preserve) (hs : d.Settles config) {x : Nat × Rule Span}
    {r : Rule Span} (hl : ∀ k ∈ x.2.yield, k.Legal) (hx : Rewritten config source d x r) :
    Page.SameBody (Page.ofDocument next (format config source d) d') (Page.ofDocument next source d) x.1 r x.2 := by
  have hsame := hr.ignoresAt_eq hd hi x.1
  rw [← hg] at hsame
  cases hig : d.ignoresAt next.ignore x.1 with
  | true => exact Page.sameBody_of_slice (hsame.trans hig) hig (hx.copied (by rw [← hg, hig])).2
  | false =>
      exact (hr.alike hd next hs).sameBody (hsame.trans hig) hig (hx.requoted (by rw [← hg, hig]))
        (undone_requote hq hl)

theorem format_next (hg : next.ignore = config.ignore) (hi : ∀ c ∈ config.ignore, Blank.isBlank c = false)
    (hq : next.quotes = .preserve → config.quotes = .preserve) (hs : d.Settles config) :
    format next (format config source d) d' = format next source d := by
  have hroom := hr.sameRoom
  have hlegal : ∀ x ∈ ruleStarts 0 d.grammar.rules, ∀ k ∈ x.2.yield, k.Legal := by
    intro x hx
    apply hd.laid.legal x.2
    rw [← map_snd_ruleStarts 0 d.grammar.rules]
    exact List.mem_map_of_mem hx
  refine (format_congr ?_ hroom (hr.partings_eq hd hs) ?_).symm
  · have ha := hr.alike hd next hs
    exact ⟨ha.config.symm, ha.tidyNotes.symm⟩
  · refine ((List.forall₂_and_left _ _).2 ⟨hlegal, hr.rewritten⟩).imp fun x r h w opens => ?_
    exact (hr.sameBody hd hg hi hq hs h.1 h.2 w opens).symm

end

end Reprint

theorem isBlank_defaultIgnore : ∀ c ∈ ({} : Config).ignore, Blank.isBlank c = false := by
  have hall : ({} : Config).ignore.all (fun c => !Blank.isBlank c) = true := rfl
  intro c hc
  simpa using List.all_eq_true.1 hall c hc

def PairedReturns : Text → Prop
  | [] => True
  | c :: t => (c = '\r' → t.head? = some '\n') ∧ PairedReturns t

instance decidablePairedReturns : (t : Text) → Decidable (PairedReturns t)
  | [] => isTrue trivial
  | c :: t =>
      have := decidablePairedReturns t
      inferInstanceAs (Decidable ((c = '\r' → t.head? = some '\n') ∧ PairedReturns t))

theorem PairedReturns.of_append {t u : Text} (h : PairedReturns (t ++ u)) : PairedReturns u := by
  induction t with
  | nil => exact h
  | cons c t ih => exact ih h.2

theorem PairedReturns.not_long_break (h : PairedReturns source) {c : Text} (hc : c <:+: source) :
    ¬ ['\r', '\r', '\n'] <:+: c := by
  rintro hi
  obtain ⟨a, b, rfl⟩ := hi.trans hc
  rw [List.append_assoc] at h
  cases h.of_append.1 rfl

theorem settles_of_pairedReturns (config : Config) (hd : Document.Printed source d ps trail)
    (hs : PairedReturns source) : d.Settles config := by
  refine (settles_iff source).2 fun i _ c hc _ => hs.not_long_break ?_
  rw [hd.source_eq]
  exact infix_of_mem_notes (Page.mem_notes_of_mem_notesAt hd hc)

/-- The last layout wins: what another one made of a document in between
leaves no trace, unless quotes are to be kept that it has changed. -/
theorem format_format_eq {first last : Config} (hf : first.ignore = ({} : Config).ignore)
    (hl : last.ignore = ({} : Config).ignore) (hq : last.quotes ≠ .preserve ∨ first.quotes = .preserve)
    (hs : PairedReturns source) (h : Document.ofSource source = .ok d) :
    ∃ d', Document.ofSource (format first source d) = .ok d' ∧
      format last (format first source d) d' = format last source d := by
  obtain ⟨ps, trail, hd⟩ := Document.printed_of_ofSource h
  obtain ⟨d', qs, trail', hr⟩ := exists_reprint first hd
  have hkeep : last.quotes = .preserve → first.quotes = .preserve := fun hp => hq.resolve_left (absurd hp)
  refine ⟨d', hr.read, hr.format_next hd (hl.trans hf.symm) ?_ hkeep (settles_of_pairedReturns first hd hs)⟩
  rw [hf]
  exact isBlank_defaultIgnore

theorem format_format_eq_of_broken_rule :
    let source : Text := "(*ebnf-fmt-ignore*)a=\"x\"  ;\r\n\r\nbb=\"y\"|(*c\r\nd*)'z';".toList
    let between : Text :=
      "(* ebnf-fmt-ignore *)\r\na=\"x\"  ;\r\n\r\nbb = 'y'\r\n   | (*c\r\nd*) 'z' ;\r\n".toList
    let first : Config := { lineWidth := 5, newline := .windows, quotes := .prefer .single, align := false }
    let last : Config := { quotes := .prefer .double }
    PairedReturns source ∧ ∃ d d', Document.ofSource source = .ok d ∧ format first source d = between ∧
      Document.ofSource between = .ok d' ∧ format last between d' = format last source d := by
  intro source between first last
  have hs : PairedReturns source := by decide +kernel
  obtain ⟨d, h, hout⟩ : ∃ d, Document.ofSource source = .ok d ∧ format first source d = between :=
    exists_of_map_eq_ok (by decide +kernel)
  have hlast : last.quotes ≠ .preserve ∨ first.quotes = .preserve := .inl (by decide)
  obtain ⟨d', h', he⟩ : ∃ d', Document.ofSource (format first source d) = .ok d' ∧
      format last (format first source d) d' = format last source d := format_format_eq rfl rfl hlast hs h
  rw [hout] at h' he
  exact ⟨hs, d, d', h, hout, h', he⟩

end Layout

end Ebnf
