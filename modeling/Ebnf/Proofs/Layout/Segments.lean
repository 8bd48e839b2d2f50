import Ebnf.Layout.Page
import Ebnf.Proofs.Document.Slices
import Ebnf.Proofs.Layout.Entries
import Ebnf.Proofs.Text.Breaks
import Mathlib.Data.List.Chain

namespace Ebnf

open Layout

def Token.Mentions (text : Text) (t : Token) : Prop := ∃ c ∈ t.comments, text <:+: c.text

instance (text : Text) (t : Token) : Decidable (t.Mentions text) :=
  inferInstanceAs (Decidable (∃ c ∈ t.comments, text <:+: c.text))

def Token.noteLines (newline : Text) (t : Token) : Text :=
  t.comments.flatMap fun c => commentText newline c.text ++ newline

/-- The tokens from index `i` on up to the first one that does not end inside
`place`. -/
def Document.passedOver (d : Document) (i : Nat) (place : Span) : List Token :=
  (d.tokens.drop i).takeWhile fun t => t.kind ≠ .eof ∧ t.span.stop ≤ place.stop

variable {source : Text} {d : Document}

theorem Document.getElem?_of_passedOver {i : Nat} {a : Span} {ts : List Token} (h : d.passedOver i a = ts) {j : Nat}
    (hj : j < ts.length) : d.tokens[i + j]? = ts[j]? := by
  subst h
  obtain ⟨rest, hrest⟩ : d.passedOver i a <+: d.tokens.drop i := List.takeWhile_prefix _
  rw [← List.getElem?_drop, ← hrest, List.getElem?_append_left hj]

/-- Exactly the tokens of a run are passed over if it is all that is inside the
span. -/
theorem Document.passedOver_eq {a : Span} {front us back : List Token} {stop : Token}
    (hd : d.tokens = front ++ (us ++ (back ++ [stop]))) (ho : Token.Ordered (us ++ back)) (ha : a.RunsOver us)
    (hus : ∀ t ∈ us, t.kind ≠ .eof) (hstop : stop.kind = .eof) : d.passedOver front.length a = us := by
  have hcovers := ha.covers (ho.sublist (List.sublist_append_left us back))
  have hin : ∀ t ∈ us, decide (t.kind ≠ .eof ∧ t.span.stop ≤ a.stop) = true :=
    fun t ht => decide_eq_true ⟨hus t ht, (hcovers t ht).2⟩
  rw [passedOver, hd, List.drop_left, List.takeWhile_append_of_pos hin]
  cases back with
  | nil => simp [hstop]
  | cons v back =>
      obtain ⟨u, hu, hua⟩ := ha.exists_last
      have hle : u.span.stop ≤ v.span.start :=
        (List.pairwise_append.1 ho.pairwise).2.2 u hu v List.mem_cons_self
      have hlt : v.span.start < v.span.stop := ho.nonempty v (List.mem_append_right us List.mem_cons_self)
      have hout : ¬ v.span.stop ≤ a.stop := by omega
      simp [hout]

theorem exists_stretch {rs : List (Rule Span)} {segs : List (List Token)} (h : List.Forall₂ Rule.Stands rs segs)
    {n : Nat} {x : Nat × Rule Span} (hx : x ∈ ruleStarts n rs) :
    ∃ front us back, segs.flatten = front ++ (us ++ back) ∧ x.1 = n + front.length ∧ x.2.Stands us := by
  induction h generalizing n with
  | nil => cases hx
  | @cons r us rs segs hr _ ih =>
      rcases List.mem_cons.1 hx with rfl | hx
      · exact ⟨[], us, segs.flatten, rfl, rfl, hr⟩
      · obtain ⟨front, vs, back, hs, hn, hvs⟩ := ih hx
        have hlen : us.length = r.yield.length := by rw [← hr.kinds, List.length_map]
        refine ⟨us ++ front, vs, back, ?_, ?_, hvs⟩
        · rw [List.flatten_cons, hs, List.append_assoc]
        · rw [hn, List.length_append, hlen, Nat.add_assoc]

theorem isChain_ruleStarts (n : Nat) (rs : List (Rule Span)) :
    (ruleStarts n rs).IsChain fun x y => y.1 = x.1 + x.2.yield.length := by
  induction rs generalizing n with
  | nil => exact .nil
  | cons r rs ih =>
      cases rs with
      | nil => exact .singleton _
      | cons s rs => exact .cons_cons rfl (ih _)

namespace Layout

variable {b : List (Rule Span)} {bs : List (List (Rule Span))}

def entryBlocksFrom (align : Bool) : Bool → Nat → List (List (Rule Span)) → List (List Entry)
  | _, _, [] => []
  | opens, i, b :: bs =>
      blockEntries (nameWidth align b) opens i b :: entryBlocksFrom align true (i + tokenCount b) bs

def entryBlocks (align : Bool) (source : Text) (rules : List (Rule Span)) : List (List Entry) :=
  entryBlocksFrom align false 0 (blocks source rules)

theorem flatten_entryBlocksFrom (align opens : Bool) (i : Nat) (bs : List (List (Rule Span))) :
    (entryBlocksFrom align opens i bs).flatten = entriesFrom align opens i bs := by
  induction bs generalizing opens i with
  | nil => rfl
  | cons b bs ih => rw [entryBlocksFrom, List.flatten_cons, ih, entriesFrom]

theorem flatten_entryBlocks (align : Bool) (source : Text) (rules : List (Rule Span)) :
    (entryBlocks align source rules).flatten = entries align source rules :=
  flatten_entryBlocksFrom align false 0 _

theorem map_rule_blockEntries (w : Nat) (opens : Bool) (i : Nat) (b : List (Rule Span)) :
    (blockEntries w opens i b).map (·.rule) = b := by
  have h := congrArg (List.map Prod.snd) (map_blockEntries w opens i b)
  rwa [List.map_map, map_snd_ruleStarts] at h

theorem map_rule_entryBlocks (align : Bool) (source : Text) (rules : List (Rule Span)) :
    (entryBlocks align source rules).map (·.map (·.rule)) = blocks source rules := by
  have h (opens : Bool) (i : Nat) (bs : List (List (Rule Span))) :
      (entryBlocksFrom align opens i bs).map (·.map (·.rule)) = bs := by
    induction bs generalizing opens i with
    | nil => rfl
    | cons b bs ih => rw [entryBlocksFrom, List.map_cons, map_rule_blockEntries, ih]
  exact h false 0 _

theorem ne_nil_of_mem_blocks {rs : List (Rule Span)} (h : b ∈ blocks source rs) : b ≠ [] := by
  induction rs generalizing b with
  | nil => cases h
  | cons r rs ih =>
      cases rs with
      | nil =>
          obtain rfl := List.mem_singleton.1 h
          exact List.cons_ne_nil r []
      | cons s rs =>
          obtain ⟨c, cs, hb⟩ := exists_blocks source s rs
          rw [blocks_cons_cons hb] at h
          rw [hb] at ih
          split at h
          · rcases List.mem_cons.1 h with rfl | h
            · exact List.cons_ne_nil r []
            · exact ih h
          · rcases List.mem_cons.1 h with rfl | h
            · exact List.cons_ne_nil r _
            · exact ih (List.mem_cons_of_mem _ h)

theorem flatMap_blockEntries (newline : Text) (f : Entry → Text) (w : Nat) (opens : Bool) (i : Nat) (hb : b ≠ []) :
    (blockEntries w opens i b).flatMap (fun e => (if e.opensBlock then newline else []) ++ f e) =
      (if opens then newline else []) ++ (blockEntries w opens i b).flatMap f := by
  have hlater (i : Nat) (b : List (Rule Span)) :
      (blockEntries w false i b).flatMap (fun e => (if e.opensBlock then newline else []) ++ f e) =
        (blockEntries w false i b).flatMap f := by
    induction b generalizing i with
    | nil => rfl
    | cons r b ih => simp [blockEntries, ih]
  cases b with
  | nil => exact absurd rfl hb
  | cons r b => simp [blockEntries, hlater]

theorem flatMap_entriesFrom (newline : Text) (f : Entry → Text) (align opens : Bool) (i : Nat) (hb : b ≠ [])
    (hbs : ∀ b ∈ bs, b ≠ []) :
    (entriesFrom align opens i (b :: bs)).flatMap (fun e => (if e.opensBlock then newline else []) ++ f e) =
      (if opens then newline else []) ++
        newline.intercalate ((entryBlocksFrom align opens i (b :: bs)).map (·.flatMap f)) := by
  induction bs generalizing opens i b with
  | nil => simp [entriesFrom, entryBlocksFrom, flatMap_blockEntries newline f _ _ _ hb]
  | cons c bs ih =>
      obtain ⟨hc, hbs⟩ := List.forall_mem_cons.1 hbs
      have hrest := ih true (i + tokenCount b) hc hbs
      have hblocks : entryBlocksFrom align opens i (b :: c :: bs) =
          blockEntries (nameWidth align b) opens i b :: entryBlocksFrom align true (i + tokenCount b) (c :: bs) := rfl
      rw [entriesFrom, List.flatMap_append, flatMap_blockEntries newline f _ _ _ hb, hrest, hblocks, List.map_cons,
        entryBlocksFrom, List.map_cons, List.intercalate_cons_cons]
      simp

/-- Blocks stand one behind the other, with one break between any two. -/
theorem flatMap_entries (newline : Text) (f : Entry → Text) (align : Bool) (source : Text) (rules : List (Rule Span)) :
    (entries align source rules).flatMap (fun e => (if e.opensBlock then newline else []) ++ f e) =
      newline.intercalate ((entryBlocks align source rules).map (·.flatMap f)) := by
  cases rules with
  | nil => rfl
  | cons r rs =>
      obtain ⟨b, bs, h⟩ := exists_blocks source r rs
      have hne : ∀ c ∈ (r :: b) :: bs, c ≠ [] := by
        rw [← h]
        exact fun c => ne_nil_of_mem_blocks
      obtain ⟨hb, hbs⟩ := List.forall_mem_cons.1 hne
      have hall := flatMap_entriesFrom newline f align false 0 hb hbs
      rwa [entries, entryBlocks, h]

end Layout

theorem length_flatten_of_stands {rs : List (Rule Span)} {segs : List (List Token)}
    (h : List.Forall₂ Rule.Stands rs segs) : segs.flatten.length = tokenCount rs := by
  induction h with
  | nil => rfl
  | cons hr _ ih => rw [List.flatten_cons, List.length_append, ih, tokenCount, ← hr.kinds, List.length_map]

namespace Document

theorem length_tokens (h : ofSource source = .ok d) : d.tokens.length = tokenCount d.grammar.rules + 1 := by
  obtain ⟨segs, stop, hd, -, -, hg⟩ := exists_segments h
  rw [hd, List.length_append, length_flatten_of_stands hg.stands]
  rfl

theorem exists_last_token (h : ofSource source = .ok d) :
    ∃ t, d.tokens.getLast? = some t ∧ d.tokens[tokenCount d.grammar.rules]? = some t := by
  obtain ⟨segs, stop, hd, -, -, hg⟩ := exists_segments h
  refine ⟨stop, by rw [hd, List.getLast?_concat], ?_⟩
  rw [hd, ← length_flatten_of_stands hg.stands, List.getElem?_concat_length]

theorem stands_passedOver (h : ofSource source = .ok d) {n : Nat} {r : Rule Span}
    (hx : (n, r) ∈ ruleStarts 0 d.grammar.rules) :
    r.Stands (d.passedOver n r.place) ∧ Token.Ordered (d.passedOver n r.place) := by
  obtain ⟨segs, stop, hd, hstop, hne, hg⟩ := exists_segments h
  obtain ⟨front, us, back, hs, hn, hr⟩ := exists_stretch hg.stands hx
  obtain rfl : n = front.length := hn.trans (Nat.zero_add _)
  have ho : Token.Ordered (us ++ back) := by
    apply hg.ordered.sublist
    rw [hs]
    exact List.sublist_append_right front _
  have hus : ∀ t ∈ us, t.kind ≠ .eof := by
    intro t ht
    apply hne
    rw [hs]
    exact List.mem_append_right front (List.mem_append_left back ht)
  have htokens : d.tokens = front ++ (us ++ (back ++ [stop])) := by rw [hd, hs]; simp
  have hinside : Token.Ordered us := ho.sublist (List.sublist_append_left us back)
  rw [passedOver_eq htokens ho (hr.runsOver hinside) hus hstop]
  exact ⟨hr, hinside⟩

theorem exists_name_token (h : ofSource source = .ok d) {n : Nat} {r : Rule Span}
    (hx : (n, r) ∈ ruleStarts 0 d.grammar.rules) :
    (d.passedOver n r.place).map (·.kind) = r.yield ∧ ∃ t, d.tokens[n]? = some t ∧ t.span = r.namePlace := by
  obtain ⟨hr, ho⟩ := stands_passedOver h hx
  obtain ⟨t, us, v, hts, -, hspan, -⟩ := hr.exists_ends ho
  exact ⟨hr.kinds, t, getElem?_of_passedOver hts (j := 0) (Nat.succ_pos _), hspan⟩

theorem exists_slice (h : ofSource source = .ok d) {r : Rule Span} (hr : r ∈ d.grammar.rules) :
    ∃ bytes, source.slice? r.place.start r.place.stop = some bytes := by
  obtain ⟨ps, trail, hp⟩ := printed_of_ofSource h
  obtain ⟨p, -, hs⟩ := exists_mem_of_forall₂ hp.slices hr
  exact ⟨_, hs⟩

end Document

namespace Layout

namespace Page

def seeking (ignore : Text) (p : Page) : Page := { p with config := { p.config with ignore := ignore } }

theorem further_seeking (ignore : Text) (p : Page) (i : Nat) (es : List (Expr Span)) :
    (p.seeking ignore).further i es = p.further i es := by
  induction es generalizing i with
  | nil => rfl
  | cons e es ih =>
      rw [further, further, ih]
      rfl

theorem ruleText_seeking (ignore : Text) (p : Page) (e : Entry) : (p.seeking ignore).ruleText e = p.ruleText e := by
  have hparts : (p.seeking ignore).parts e = p.parts e := by
    simp only [parts, further_seeking]
    rfl
  rw [ruleText, ruleText, hparts]
  rfl

variable {config : Config} {i : Nat} {t : Token} {e : Entry}

theorem notesAt_of_token (ht : d.tokens[i]? = some t) :
    (ofDocument config source d).notesAt i = t.comments.map (·.text) := by
  simp [notesAt, ofDocument, ht]

theorem noteLines_of_token (ht : d.tokens[i]? = some t) :
    (ofDocument config source d).noteLines i = t.noteLines config.newline.text := by
  rw [noteLines, notesAt_of_token ht, List.flatMap_map]
  rfl

theorem ignores_iff (ht : d.tokens[e.index]? = some t) :
    (ofDocument config source d).ignores e = true ↔ t.Mentions config.ignore := by
  rw [ignores, notesAt_of_token ht, List.any_map, List.any_eq_true]
  simp only [Function.comp_apply, Text.occursIn_iff]
  rfl

theorem segment_of_mentions (ht : d.tokens[e.index]? = some t) (hm : t.Mentions config.ignore) {bytes : Text}
    (hb : source.slice? e.rule.place.start e.rule.place.stop = some bytes) :
    (ofDocument config source d).segment e = t.noteLines config.newline.text ++ bytes ++ config.newline.text := by
  have hi : (ofDocument config source d).ignores e = true := (ignores_iff ht).2 hm
  have hslice : e.rule.place.slice source = bytes := by rw [Span.slice, hb, Option.getD_some]
  rw [segment, noteLines_of_token ht, if_pos hi]
  exact congrArg (_ ++ · ++ _) hslice

theorem segment_of_not_mentions (ht : d.tokens[e.index]? = some t) (hm : ¬ t.Mentions config.ignore) :
    (ofDocument config source d).segment e = t.noteLines config.newline.text ++
      (ofDocument config source d).ruleText e ++ config.newline.text := by
  have hi : ¬ (ofDocument config source d).ignores e = true := mt (ignores_iff ht).1 hm
  rw [segment, noteLines_of_token ht, if_neg hi]
  rfl

end Page

/-- What two settings make of a rule that begins with the token `t`. Its tokens
are the ones that its span holds. If a comment in front of it has the text to
look for inside, its bytes are copied behind the comments. Otherwise it is laid
out as without anything to look for. -/
structure SetsRule (p q : Page) (d : Document) (e : Entry) (t : Token) : Prop where
  token : d.tokens[e.index]? = some t
  token_place : t.span = e.rule.namePlace
  passes : (d.passedOver e.index e.rule.place).map (·.kind) = e.rule.yield
  copied : t.Mentions p.config.ignore → ∃ bytes,
    p.source.slice? e.rule.place.start e.rule.place.stop = some bytes ∧
      p.segment e = t.noteLines p.newline ++ bytes ++ p.newline
  kept : ¬ t.Mentions p.config.ignore → p.segment e = q.segment e

theorem format_eq_intercalate (config : Config) {t : Token}
    (ht : d.tokens[tokenCount d.grammar.rules]? = some t) :
    format config source d = config.newline.text.intercalate ((entryBlocks config.align source d.grammar.rules).map
      (·.flatMap (Page.ofDocument config source d).segment)) ++ t.noteLines config.newline.text := by
  rw [format, Page.text, Page.noteLines_of_token ht, ← flatMap_entries]
  rfl

theorem exists_setsRule (config : Config) {silent : Text} (h : Document.ofSource source = .ok d)
    (hs : ∀ t ∈ d.tokens, ¬ t.Mentions silent) {e : Entry} (he : e ∈ entries config.align source d.grammar.rules) :
    ∃ t, SetsRule (.ofDocument config source d) (.ofDocument { config with ignore := silent } source d) d e t := by
  have hx := mem_ruleStarts_of_mem_entries he
  obtain ⟨hpasses, t, ht, hplace⟩ := Document.exists_name_token h hx
  refine ⟨t, ht, hplace, hpasses, fun (hm : t.Mentions config.ignore) => ?_,
    fun (hm : ¬ t.Mentions config.ignore) => ?_⟩
  · obtain ⟨bytes, hb⟩ := Document.exists_slice h (rule_mem_of_mem_entries he)
    exact ⟨bytes, hb, Page.segment_of_mentions ht hm hb⟩
  · have hq : ¬ t.Mentions silent := hs t (List.mem_of_getElem? ht)
    rw [Page.segment_of_not_mentions ht hm, Page.segment_of_not_mentions ht hq, ← Page.ruleText_seeking silent]
    rfl

/-- The output is made of the rules one by one, with a break between blocks and
the comments behind the last rule at the end. A rule that is to be ignored is
copied, and nothing else depends on which rules are: `silent` stands for a text
that no comment has inside. -/
theorem format_ignored (config : Config) {silent : Text} (h : Document.ofSource source = .ok d)
    (hs : ∀ t ∈ d.tokens, ¬ t.Mentions silent) :
    let p := Page.ofDocument config source d
    let q := Page.ofDocument { config with ignore := silent } source d
    let es := entryBlocks config.align source d.grammar.rules
    es.map (·.map (·.rule)) = blocks source d.grammar.rules ∧
    es.flatten.IsChain (fun e e' => e'.index = e.index + (d.passedOver e.index e.rule.place).length) ∧
    (∀ e ∈ es.flatten, ∃ t, SetsRule p q d e t) ∧
    ∃ trail, (∃ t, d.tokens.getLast? = some t ∧ trail = t.noteLines p.newline) ∧
      format config source d = p.newline.intercalate (es.map (·.flatMap p.segment)) ++ trail ∧
      format { config with ignore := silent } source d =
        p.newline.intercalate (es.map (·.flatMap q.segment)) ++ trail := by
  intro p q es
  have hes : es.flatten = entries config.align source d.grammar.rules := flatten_entryBlocks _ _ _
  have hsets : ∀ e ∈ es.flatten, ∃ t, SetsRule p q d e t := by
    rw [hes]
    exact fun e he => exists_setsRule config h hs he
  obtain ⟨t, hlast, ht⟩ := Document.exists_last_token h
  refine ⟨map_rule_entryBlocks _ _ _, ?_, hsets, _, ⟨t, hlast, rfl⟩, format_eq_intercalate config ht,
    format_eq_intercalate { config with ignore := silent } ht⟩
  have hchain := isChain_ruleStarts 0 d.grammar.rules
  rw [← map_entries config.align source, ← hes, List.isChain_map] at hchain
  apply hchain.imp_of_mem_imp
  intro e e' he _ hnext
  obtain ⟨t, ht⟩ := hsets e he
  have hlen : (d.passedOver e.index e.rule.place).length = e.rule.yield.length := by
    rw [← ht.passes, List.length_map]
  rw [hlen]
  exact hnext

theorem format_ignored_of_mixed_rules :
    let source : Text := "a=2*b;(*ebnf-fmt-ignore*)cc  =(*x*) 'd';\n\n(*y*)e=a,cc;(*z*)".toList
    let silent : Text := "zz".toList
    ∃ d, Document.ofSource source = .ok d ∧ (∀ t ∈ d.tokens, ¬ t.Mentions silent) ∧
      format {} source d =
        "a  = 2 * b ;\n(* ebnf-fmt-ignore *)\ncc  =(*x*) 'd';\n\n(* y *)\ne = a, cc ;\n(* z *)\n".toList ∧
      format { ignore := silent } source d =
        "a  = 2 * b ;\n(* ebnf-fmt-ignore *)\ncc = (* x *) 'd' ;\n\n(* y *)\ne = a, cc ;\n(* z *)\n".toList ∧
      ∀ e ∈ (entryBlocks true source d.grammar.rules).flatten,
        ∃ t, SetsRule (.ofDocument {} source d) (.ofDocument { ignore := silent } source d) d e t := by
  intro source silent
  obtain ⟨d, h, hd⟩ : ∃ d, Document.ofSource source = .ok d ∧
      (decide (∀ t ∈ d.tokens, ¬ t.Mentions silent), format {} source d, format { ignore := silent } source d) =
      (true, "a  = 2 * b ;\n(* ebnf-fmt-ignore *)\ncc  =(*x*) 'd';\n\n(* y *)\ne = a, cc ;\n(* z *)\n".toList,
        "a  = 2 * b ;\n(* ebnf-fmt-ignore *)\ncc = (* x *) 'd' ;\n\n(* y *)\ne = a, cc ;\n(* z *)\n".toList) :=
    exists_of_map_eq_ok (by decide +kernel)
  obtain ⟨hs, hout⟩ := Prod.mk.inj hd
  obtain ⟨hloud, hsilent⟩ := Prod.mk.inj hout
  have hs := of_decide_eq_true hs
  exact ⟨d, h, hs, hloud, hsilent, (format_ignored {} h hs).2.2.1⟩

end Layout

end Ebnf
