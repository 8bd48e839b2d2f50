import Ebnf.Proofs.Layout.SecondPass
import Ebnf.Proofs.Lexeme.Neighbours

namespace Ebnf

open Lexeme Layout

def Kind.literal? : Kind → Option Text
  | .terminal text _ | .special text => some text
  | _ => none

namespace Lexeme

theorem getLast?_spelling_ne_return {l : Lexeme} {k : Kind} (h : l.Proper) (hk : l.kind? = some k) :
    l.spelling.getLast? ≠ some '\r' := by
  intro hc
  have he := h.ends hc
  cases l with
  | gap | comment => cases hk
  | identifier | integer | special => cases he
  | terminal text quote => cases quote <;> cases he
  | mark m =>
      have hg := m.isGap_char
      rw [← (show '\r' = m.char from he)] at hg
      cases hg

theorem isGap_of_mem_spelling {l : Lexeme} {k : Kind} (h : l.Proper) (hk : l.kind? = some k)
    (hl : k.literal? = none) : ∀ c ∈ l.spelling, isGap c = false := by
  cases l with
  | gap | comment => cases hk
  | terminal | special =>
      cases hk
      cases hl
  | identifier name =>
      obtain ⟨c, s, rfl, ha, hs⟩ := h
      exact List.forall_mem_cons.2 ⟨isGap_of_isAlpha ha, fun d hd => isGap_of_isNamePart (hs d hd)⟩
  | integer digits => exact fun c hc => isGap_of_isDigit (h.2.1 c hc)
  | mark m => exact List.forall_mem_singleton.2 m.isGap_char

end Lexeme

namespace Layout

variable {nl : Newline} {free : Nat → Prop} {n : Nat} {t u : Text}

/-- The breaks of a text that stands at byte `n`. Each one is a break of this
kind, unless it is at a free byte, and none is cut at the end of the text. -/
structure BreaksBy (nl : Newline) (free : Nat → Prop) (n : Nat) (t : Text) : Prop where
  breaks : ∀ u v, t = u ++ '\n' :: v → ¬ free (n + u.byteLength) → (u.getLast? = some '\r' ↔ nl = .windows)
  uncut : t.getLast? ≠ some '\r'

namespace BreaksBy

theorem of_line (h : '\n' ∉ t) (hl : t.getLast? ≠ some '\r') : BreaksBy nl free n t := by
  refine ⟨?_, hl⟩
  rintro u v rfl
  exact absurd (List.mem_append_right u List.mem_cons_self) h

theorem nil : BreaksBy nl free n [] := of_line List.not_mem_nil (by simp)

theorem of_free (h : ∀ m, n ≤ m → m < n + t.byteLength → free m) (hl : t.getLast? ≠ some '\r') :
    BreaksBy nl free n t := by
  refine ⟨?_, hl⟩
  rintro u v rfl hf
  refine absurd (h _ (Nat.le_add_right n _) ?_) hf
  have hpos := Char.utf8Size_pos '\n'
  rw [Text.byteLength_append, Text.byteLength_cons]
  omega

theorem append (ht : BreaksBy nl free n t) (hu : BreaksBy nl free (n + t.byteLength) u) :
    BreaksBy nl free n (t ++ u) := by
  have hlast (w : Text) : (t ++ w).getLast? = some '\r' ↔ w.getLast? = some '\r' := by
    rw [List.getLast?_append]
    cases w.getLast? with
    | none => simp [ht.uncut]
    | some c => rfl
  refine ⟨fun v w h hf => ?_, fun h => hu.uncut ((hlast u).1 h)⟩
  have hbehind (a : Text) (hv : v = t ++ a) (ha : u = a ++ '\n' :: w) :
      v.getLast? = some '\r' ↔ nl = .windows := by
    subst hv
    rw [Text.byteLength_append, ← Nat.add_assoc] at hf
    rw [hlast, hu.breaks a w ha hf]
  rcases List.append_eq_append_iff.1 h with ⟨a, hv, ha⟩ | ⟨a, hv, ha⟩
  · exact hbehind a hv ha
  · cases a with
    | nil => exact hbehind [] (by simpa using hv.symm) (by simpa using ha.symm)
    | cons c a =>
        obtain ⟨rfl, -⟩ := List.cons.inj ha
        exact ht.breaks v a hv hf

theorem newline (nl : Newline) : BreaksBy nl free n nl.text := by
  refine ⟨fun u v h _ => ?_, by cases nl <;> decide⟩
  cases nl with
  | unix =>
      obtain ⟨rfl, -⟩ := List.append_eq_singleton_iff.1 h.symm |>.resolve_right (by simp)
      simp
  | windows =>
      obtain rfl : u = ['\r'] := by
        match u, h with
        | [c], h => exact congrArg ([·]) (List.cons.inj h).1.symm
        | c :: d :: u, h => simp [Newline.text] at h
      simp

theorem padding {run : Text} (h : Padding nl run) : BreaksBy nl free n run := by
  have hspaces (m n : Nat) : BreaksBy nl free n (Text.spaces m) := by
    refine of_line (by simp [Text.spaces]) fun hl => ?_
    cases List.eq_of_mem_replicate (List.mem_of_getLast? hl)
  obtain ⟨m, rfl | rfl⟩ := h
  · exact hspaces _ _
  · exact (newline nl).append (hspaces _ _)

theorem replaceBreaks (h : '\r' ∉ t) : BreaksBy nl free n (Text.replaceBreaks nl.text t) := by
  induction t generalizing n with
  | nil => exact nil
  | cons c t ih =>
      rw [List.mem_cons, not_or] at h
      by_cases hc : c = '\n'
      · rw [hc, Text.replaceBreaks_cons_break]
        exact (newline nl).append (ih h.2)
      · have hchar : BreaksBy nl free n [c] := of_line (by simp [Ne.symm hc]) (by simp [Ne.symm h.1])
        rw [Text.replaceBreaks_cons _ hc]
        exact hchar.append (ih h.2)

end BreaksBy

theorem PairedReturns.of_infix (hu : PairedReturns u) (h : t <:+: u) (hl : t.getLast? ≠ some '\r') :
    PairedReturns t := by
  obtain ⟨a, b, rfl⟩ := h
  rw [List.append_assoc] at hu
  have hab := hu.of_append
  clear hu
  induction t with
  | nil => trivial
  | cons c t ih =>
      cases t with
      | nil => exact ⟨fun hc => absurd (congrArg some hc) hl, trivial⟩
      | cons d t => exact ⟨hab.1, ih (by simpa [List.getLast?_cons] using hl) hab.2⟩

theorem PairedReturns.notMem_unixBreaks (h : PairedReturns t) : '\r' ∉ Text.unixBreaks t := by
  induction t using Text.unixBreaks.induct with
  | case1 => exact List.not_mem_nil
  | case2 t ih =>
      rw [Text.unixBreaks_break, List.mem_cons, not_or]
      exact ⟨by decide, ih h.2.2⟩
  | case3 c t hc ih =>
      rw [Text.unixBreaks_cons hc, List.mem_cons, not_or]
      refine ⟨?_, ih h.2⟩
      rintro rfl
      obtain ⟨u, rfl⟩ := List.head?_eq_some_iff.1 (h.1 rfl)
      exact hc u rfl rfl

theorem notMem_unixBreaks_of_comment {source c : Text} (h : PairedReturns source)
    (hc : (Lexeme.comment c).spelling <:+: source) : '\r' ∉ Text.unixBreaks c := by
  have hall := (h.of_infix hc (by simp [spelling, List.getLast?_cons])).notMem_unixBreaks
  have hinside : Text.unixBreaks (c ++ ['*', ')']) = Text.unixBreaks c ++ Text.unixBreaks ['*', ')'] :=
    Text.unixBreaks_append (.inr (by simp))
  rw [spelling, List.cons_append, List.cons_append, Text.unixBreaks_cons (by simp),
    Text.unixBreaks_cons (by simp), hinside] at hall
  exact fun hr => hall (by simp [hr])

namespace BreaksBy

theorem normalText {c : Text} (h : '\r' ∉ Text.unixBreaks c) : BreaksBy nl free n (normalText nl c) := by
  by_cases hc : '\n' ∈ c
  · rw [normalText_of_break hc]
    exact replaceBreaks h
  · refine of_line (fun hm => hc (mem_normalText.1 hm)) ?_
    rw [normalText_of_line hc]
    simp [List.getLast?_cons]

theorem lexeme {l : Lexeme} (hp : l.Proper) (hpad : Padded nl l)
    (hc : ∀ c ∈ l.notes, ∀ m, BreaksBy nl free m c)
    (hf : ∀ k, l.kind? = some k → k.literal? ≠ none → ∀ m, n ≤ m → m < n + l.spelling.byteLength → free m) :
    BreaksBy nl free n l.spelling := by
  cases hk : l.kind? with
  | some k =>
      have hlast := getLast?_spelling_ne_return hp hk
      by_cases hl : k.literal? = none
      · exact of_line (fun hm => by cases isGap_of_mem_spelling hp hk hl _ hm) hlast
      · exact of_free (hf k hk hl) hlast
  | none =>
      cases l with
      | gap run => exact padding hpad
      | comment c =>
          have hopen (m : Nat) : BreaksBy nl free m ['(', '*'] := of_line (by simp) (by simp)
          have hclose (m : Nat) : BreaksBy nl free m ['*', ')'] := of_line (by simp) (by simp)
          exact ((hopen n).append (hc c List.mem_cons_self _)).append (hclose _)
      | _ => cases hk

/-- The spelling of lexemes that the layout can write, if the tokens with a text
of their own stand at free bytes. -/
theorem spell (before : List Text) {ls : List Lexeme} (hp : ∀ l ∈ ls, l.Proper) (hpad : ∀ l ∈ ls, Padded nl l)
    (hc : ∀ c ∈ ls.flatMap Lexeme.notes, ∀ m, BreaksBy nl free m c)
    (hf : ∀ g ∈ gists n before ls, g.kind.literal? ≠ none → ∀ m, g.span.start ≤ m → m < g.span.stop → free m) :
    BreaksBy nl free n (spell ls) := by
  induction ls generalizing n before with
  | nil => exact nil
  | cons l ls ih =>
      obtain ⟨hpl, hpls⟩ := List.forall_mem_cons.1 hp
      obtain ⟨hpadl, hpadls⟩ := List.forall_mem_cons.1 hpad
      rw [List.flatMap_cons, List.forall_mem_append] at hc
      rw [spell_cons]
      cases hk : l.kind? with
      | none =>
          rw [gists_trivia hk] at hf
          exact (lexeme hpl hpadl hc.1 (by simp [hk])).append (ih _ hpls hpadls hc.2 hf)
      | some k =>
          rw [gists_token hk, List.forall_mem_cons] at hf
          refine (lexeme hpl hpadl hc.1 fun k' hk' hl => ?_).append (ih _ hpls hpadls hc.2 hf.2)
          obtain rfl := Option.some.inj (hk.symm.trans hk')
          exact hf.1 hl

end BreaksBy

namespace Page

variable {p : Page} {pre : List Lexeme} {e : Entry} {q : Passage}

theorem Sets.mem_tidyNotes (h : p.Sets pre e q) (hi : p.ignores e = false) {c : Text}
    (hc : c ∈ q.body.flatMap Lexeme.notes) : ∃ i, c ∈ p.tidyNotes i := by
  have hcomments := flatMap_comments_tokens [] q.body
  rw [q.waiting_body, List.append_nil, List.nil_append, h.tokens_eq, List.flatMap_cons, List.flatMap_def,
    map_fst_attach, bodyNotes, hi, if_neg Bool.false_ne_true] at hcomments
  rw [← hcomments] at hc
  obtain ⟨i, -, hi⟩ := List.mem_flatMap.1 hc
  exact ⟨i, hi⟩

theorem Sets.breaksBy (h : p.Sets pre e q) (hn : ∀ i, ∀ c ∈ p.tidyNotes i, ∀ m, BreaksBy p.config.newline free m c)
    (hf : ∀ g ∈ q.gists n, g.kind.literal? ≠ none → ∀ m, g.span.start ≤ m → m < g.span.stop → free m)
    (hcopy : p.ignores e = true → ∀ m, (q.place n).start ≤ m → m < (q.place n).stop → free m) :
    BreaksBy p.config.newline free n (Lexeme.spell q.lexemes) := by
  have hlead : BreaksBy p.config.newline free n (Lexeme.spell q.lead) := by
    refine .spell [] (fun l hl => (q.lead_trivia l hl).1) h.lead_padded (fun c hc => ?_) ?_
    · rw [← Passage.notes, h.notes_eq] at hc
      exact hn e.index c hc
    · rw [gists_of_trivia fun l hl => (q.lead_trivia l hl).2]
      simp
  rw [Passage.lexemes, spell_append]
  apply hlead.append
  cases hi : p.ignores e with
  | true =>
      apply BreaksBy.of_free
      · intro m hl hr
        refine hcopy hi m hl ?_
        rwa [Passage.place, q.size_eq, ← Nat.add_assoc]
      · obtain ⟨name, ls, hb⟩ := q.body_form
        simp [hb, spelling, Mark.char, List.getLast?_cons]
  | false =>
      refine .spell _ (q.body_legible []).proper (h.body_padded hi) (fun c hc => ?_) hf
      obtain ⟨i, hc⟩ := h.mem_tidyNotes hi hc
      exact hn i c hc

theorem breaksBy_allLexemes {rs : List (Rule Span)} {qs : List Passage} {es : List Entry} {trail : List Lexeme}
    (hl : Passage.Laid n rs qs) (hs : List.Forall₂ (fun e q => ∃ pre, p.Sets pre e q) es qs)
    (hn : ∀ i, ∀ c ∈ p.tidyNotes i, ∀ m, BreaksBy p.config.newline free m c)
    (hf : ∀ g ∈ (Passage.gistsFrom n qs).flatten, g.kind.literal? ≠ none →
      ∀ m, g.span.start ≤ m → m < g.span.stop → free m)
    (hcopy : List.Forall₂ (fun e r => p.ignores e = true →
      ∀ m, r.place.start ≤ m → m < r.place.stop → free m) es rs)
    (ht : ∀ l ∈ trail, Fills p.config.newline l) {last : Nat}
    (hlast : trail.flatMap Lexeme.notes = p.tidyNotes last) :
    BreaksBy p.config.newline free n (Lexeme.spell (Passage.allLexemes qs trail)) := by
  induction hl generalizing es with
  | nil n =>
      refine .spell [] (fun l hl => (ht l hl).1.1) (fun l hl => (ht l hl).2) (fun c hc => ?_) ?_
      · exact hn last c (hlast ▸ hc)
      · rw [Passage.allLexemes, List.flatMap_nil, List.nil_append, gists_of_trivia fun l hl => (ht l hl).1.2]
        simp
  | @cons n r rs q qs hk hp _ ih =>
      obtain ⟨e, es, ⟨pre, he⟩, hes, rfl⟩ := List.forall₂_cons_right_iff.1 hs
      obtain ⟨hce, hces⟩ := List.forall₂_cons.1 hcopy
      rw [Passage.gistsFrom, List.flatten_cons, List.forall_mem_append] at hf
      rw [Passage.allLexemes_cons, spell_append]
      exact (he.breaksBy hn hf.1 (hp ▸ hce)).append (ih hes hf.2 hces)

end Page

end Layout

theorem Grammar.map_literal?_yield {α : Type} (g : Grammar α) :
    g.yield.map Kind.literal? = (g.unquoted.flatMap Rule.yield).map Kind.literal? := by
  have hunquoted (a : Atom) : a.unquoted.kind.literal? = a.kind.literal? := by cases a <;> rfl
  rw [yield, unquoted, List.flatMap_map, List.map_flatMap, List.map_flatMap]
  refine List.flatMap_congr fun r _ => ?_
  rw [Rule.map_yield_mapAtom hunquoted, Rule.yield_bare]

variable {config : Config} {source : Text} {d d' : Document} {ps qs : List Passage} {trail trail' : List Lexeme}

namespace Document

def InLiteral (d : Document) (n : Nat) : Prop :=
  ∃ t ∈ d.tokens, t.kind.literal? ≠ none ∧ t.span.start ≤ n ∧ n < t.span.stop

/-- A rule that is left as it is has this byte. `d'` is what is read back from
the layout of `d`. -/
def InCopy (d d' : Document) (ignore : Text) (n : Nat) : Prop :=
  ∃ x ∈ ruleStarts 0 d'.grammar.rules, d.ignoresAt ignore x.1 = true ∧ x.2.place.start ≤ n ∧ n < x.2.place.stop

theorem Printed.map_literal? (h : Printed source d ps trail) : d.tokens.map (·.kind.literal?) =
    (d.grammar.unquoted.flatMap Rule.yield).map Kind.literal? ++ [none] := by
  have hk := congrArg (List.map Kind.literal?) h.map_kind_tokens
  rw [List.map_map, List.map_append] at hk
  rw [← Grammar.map_literal?_yield]
  exact hk

theorem Printed.inLiteral (h : Printed source d ps trail) {g : Gist}
    (hg : g ∈ (Passage.gistsFrom 0 ps).flatten) (hl : g.kind.literal? ≠ none) {n : Nat} (hs : g.span.start ≤ n)
    (he : n < g.span.stop) : d.InLiteral n := by
  have hmem : g ∈ d.tokens.map Token.gist := by
    rw [h.gists]
    exact List.mem_append_left _ hg
  obtain ⟨t, ht, rfl⟩ := List.mem_map.1 hmem
  exact ⟨t, ht, hl, hs, he⟩

end Document

namespace Layout

theorem notMem_unixBreaks_notesAt (config : Config) (hd : Document.Printed source d ps trail)
    (hs : PairedReturns source) {i : Nat} {c : Text} (hc : c ∈ (Page.ofDocument config source d).notesAt i) :
    '\r' ∉ Text.unixBreaks c := by
  apply notMem_unixBreaks_of_comment hs
  rw [hd.source_eq]
  exact spelling_infix_of_mem_notes (Page.mem_notes_of_mem_notesAt hd hc)

namespace Reprint

theorem inCopy (hr : Reprint config source d d' qs trail') :
    List.Forall₂ (fun e r => (Page.ofDocument config source d).ignores e = true →
      ∀ m, r.place.start ≤ m → m < r.place.stop → d.InCopy d' config.ignore m)
      (entries config.align source d.grammar.rules) d'.grammar.rules := by
  have hstarts := congrArg (List.map Prod.fst) (ruleStarts_congr 0 hr.sameRoom)
  rw [List.map_map, List.map_map, ← map_entries config.align source, List.map_map] at hstarts
  have hindex : List.Forall₂ (fun (x : Nat × Rule Span) e => x.1 = Entry.index e)
      (ruleStarts 0 d'.grammar.rules) (entries config.align source d.grammar.rules) := forall₂_of_map_eq hstarts.symm
  have hall := ((List.forall₂_and_left _ _).2 ⟨fun x hx => hx, hindex⟩).flip
  rw [← map_snd_ruleStarts 0 d'.grammar.rules, List.forall₂_map_right_iff]
  refine hall.imp fun e x h hi m hl hm => ⟨x, h.1, ?_, hl, hm⟩
  rw [h.2, ← Page.ignores_eq config source, hi]

theorem breaksBy (hd : Document.Printed source d ps trail) (hr : Reprint config source d d' qs trail')
    (hs : PairedReturns source) :
    BreaksBy config.newline (fun m => d'.InLiteral m ∨ d.InCopy d' config.ignore m) 0 (format config source d) := by
  rw [hr.printed.source_eq]
  refine Page.breaksBy_allLexemes (p := .ofDocument config source d) hr.printed.laid hr.sets ?_ ?_ ?_
    (fun l hl => ⟨hr.printed.trail_trivia l hl, hr.trail_padded l hl⟩) hr.trail_notes
  · intro i c hc m
    obtain ⟨c, hmem, rfl⟩ := List.mem_map.1 hc
    exact .normalText (notMem_unixBreaks_notesAt config hd hs hmem)
  · exact fun g hg hl m hm hm' => .inl (hr.printed.inLiteral hg hl hm hm')
  · exact hr.inCopy.imp fun e r h hi m hm hm' => .inr (h hi m hm hm')

end Reprint

theorem Page.Sets.semicolon_suffix {p : Page} {pre : List Lexeme} {e : Entry} {q : Passage} (h : p.Sets pre e q) :
    [';'] <:+ p.bodyText e := by
  obtain ⟨name, ls, hb⟩ := q.body_form
  rw [← h.body_eq, hb, ← List.cons_append, spell_append]
  exact List.suffix_append _ _

theorem exists_format_eq_append (hd : Document.Printed source d ps trail)
    (hr : Reprint config source d d' qs trail') :
    ∃ body, format config source d = body ++ config.newline.text ∧ ([';'] <:+ body ∨ ['*', ')'] <:+ body) := by
  let p := Page.ofDocument config source d
  rw [format_eq_flatMap]
  by_cases hn : p.notesAt (tokenCount d.grammar.rules) = []
  · have hne : entries config.align source d.grammar.rules ≠ [] := by
      intro he
      have hrules := map_rule_entries config.align source d.grammar.rules
      rw [he] at hrules
      exact hd.rules_ne_nil hrules.symm
    obtain ⟨es, e, he⟩ := (List.eq_nil_or_concat' _).resolve_left hne
    obtain ⟨q, -, pre, hq⟩ := exists_mem_of_forall₂ hr.sets (x := e) (by simp [he])
    refine ⟨es.flatMap p.entryText ++ spell (p.openingLexemes e) ++ p.noteLines e.index ++ p.bodyText e, ?_,
      .inl (hq.semicolon_suffix.trans (List.suffix_append _ _))⟩
    have hlast : p.noteLines (tokenCount d.grammar.rules) = [] := by rw [Page.noteLines, hn, List.flatMap_nil]
    rw [he, hlast]
    simp [p, Page.entryText, Page.newline, Page.ofDocument]
  · obtain ⟨cs, c, hc⟩ := (List.eq_nil_or_concat' _).resolve_left hn
    refine ⟨(entries config.align source d.grammar.rules).flatMap p.entryText ++
      cs.flatMap (fun c => commentText p.newline c ++ p.newline) ++ commentText p.newline c, ?_, .inr ?_⟩
    · have hlast : p.noteLines (tokenCount d.grammar.rules) =
          cs.flatMap (fun c => commentText p.newline c ++ p.newline) ++ (commentText p.newline c ++ p.newline) := by
        rw [Page.noteLines, hc, List.flatMap_append, List.flatMap_singleton]
      rw [hlast]
      simp [p, Page.newline, Page.ofDocument]
    · exact List.IsSuffix.trans (List.suffix_append _ _) (List.suffix_append _ _)

/-- All breaks that the layout writes are of the chosen kind. What it copies
keeps its own ones: the texts of tokens, and rules that are left as they are. -/
theorem format_lineEnds (config : Config) (hs : PairedReturns source) (h : Document.ofSource source = .ok d) :
    let out := format config source d
    ∃ d', Document.ofSource out = .ok d' ∧
      (∀ u v, out = u ++ '\n' :: v → ¬ d'.InLiteral u.byteLength → ¬ d.InCopy d' config.ignore u.byteLength →
        (u.getLast? = some '\r' ↔ config.newline = .windows)) ∧
      d'.tokens.map (·.kind.literal?) = d.tokens.map (·.kind.literal?) ∧
      List.Forall₂ (fun x r => d.ignoresAt config.ignore x.1 = true → r.place.slice out = x.2.place.slice source)
        (ruleStarts 0 d.grammar.rules) d'.grammar.rules ∧
      ∃ body, out = body ++ config.newline.text ∧ ([';'] <:+ body ∨ ['*', ')'] <:+ body) := by
  intro out
  obtain ⟨ps, trail, hd⟩ := Document.printed_of_ofSource h
  obtain ⟨d', qs, trail', hr⟩ := exists_reprint config hd
  refine ⟨d', hr.read, fun u v hu hl hc => ?_, ?_, ?_, exists_format_eq_append hd hr⟩
  · refine (hr.breaksBy hd hs).breaks u v hu ?_
    rw [Nat.zero_add]
    exact not_or.2 ⟨hl, hc⟩
  · rw [hd.map_literal?, hr.printed.map_literal?, hr.unquoted_eq]
  · exact hr.rewritten.imp fun x r h hi => (h.copied hi).2

theorem format_lineEnds_of_mixed_breaks :
    let source : Text := "(*ebnf-fmt-ignore*)a=\n\"x\";\r\n\nb='p\nq'|(*c\nd*)e;".toList
    let out : Text := "(* ebnf-fmt-ignore *)\r\na=\n\"x\";\r\n\r\nb = 'p\nq' | (*c\r\nd*) e ;\r\n".toList
    PairedReturns source ∧ ∃ d d', Document.ofSource source = .ok d ∧ Document.ofSource out = .ok d' ∧
      format { newline := .windows } source d = out ∧
      (∀ u v, out = u ++ '\n' :: v → ¬ d'.InLiteral u.byteLength →
        ¬ d.InCopy d' "ebnf-fmt-ignore".toList u.byteLength → u.getLast? = some '\r') ∧
      d'.tokens.map (·.kind.literal?) = d.tokens.map (·.kind.literal?) := by
  intro source out
  have hs : PairedReturns source := by decide +kernel
  obtain ⟨d, h, hout⟩ : ∃ d, Document.ofSource source = .ok d ∧ format { newline := .windows } source d = out :=
    exists_of_map_eq_ok (by decide +kernel)
  obtain ⟨d', h', hbreaks, hliterals, -⟩ := format_lineEnds { newline := .windows } hs h
  rw [hout] at h'
  refine ⟨hs, d, d', h, h', hout, fun u v hu hl hc => ?_, hliterals⟩
  exact (hbreaks u v (hout.trans hu) hl hc).2 rfl

end Layout

end Ebnf
