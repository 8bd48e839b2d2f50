import Ebnf.Proofs.Document.Slices
import Ebnf.Proofs.Explorer.Display
import Ebnf.Proofs.Token.Roundtrip
import Mathlib.Data.List.Nodup

namespace Ebnf

open Lexeme

variable {α : Type} {source : Text} {d : Document}

def Text.origins : Nat → Text → List (Char × Nat)
  | _, [] => []
  | n, c :: t => (c, n) :: origins (n + c.utf8Size) t

theorem Text.origins_append (n : Nat) (t u : Text) :
    origins n (t ++ u) = origins n t ++ origins (n + t.byteLength) u := by
  induction t generalizing n with
  | nil => rfl
  | cons c t ih => rw [List.cons_append, origins, origins, ih, byteLength_cons, Nat.add_assoc, List.cons_append]

theorem Text.mark_origins {n : Nat} {t : Text} {mark : Nat → α} {a : α}
    (h : ∀ m, n ≤ m → m < n + t.byteLength → mark m = a) :
    (origins n t).map (Prod.map id mark) = t.map (·, a) := by
  induction t generalizing n with
  | nil => rfl
  | cons c t ih =>
      have hpos := c.utf8Size_pos
      rw [byteLength_cons] at h
      have hfirst : mark n = a := h n (Nat.le_refl n) (by omega)
      have hrest := ih (n := n + c.utf8Size) fun m hm hm' => h m (by omega) (by omega)
      simp [origins, hfirst, hrest]

theorem Tiles.le {n m : Nat} {as : List Span} (h : Tiles n as m) : n ≤ m := by
  induction as generalizing n with
  | nil => exact Nat.le_of_eq h
  | cons a as ih =>
      obtain ⟨rfl, hle, hrest⟩ := h
      exact hle.trans (ih hrest)

namespace Expr

theorem equals_notMem_yield (e : Expr α) : .mark .equals ∉ e.yield := by
  induction e with
  | atom a => cases a <;> simp [yield, Atom.kind]
  | _ => simp_all [yield]

end Expr

namespace Lexeme

variable {n m : Nat} {ls : List Lexeme} {x : Item}

theorem le_start_of_mem_items (h : x ∈ items n ls) : n ≤ x.span.start := by
  rcases mem_items h with rfl | ⟨as, l, bs, -, rfl⟩
  · exact Nat.le_add_right n _
  · rw [span_item]
    exact Nat.le_add_right n _

theorem nodup_span_items (hp : ∀ l ∈ ls, l.Proper) (n : Nat) : ((items n ls).map Item.span).Nodup := by
  induction ls generalizing n with
  | nil => simp [items]
  | cons l ls ih =>
      obtain ⟨hl, hls⟩ := List.forall_mem_cons.1 hp
      rw [items, List.map_cons, List.nodup_cons, span_item]
      refine ⟨?_, ih hls _⟩
      rintro h
      obtain ⟨x, hx, hspan⟩ := List.mem_map.1 h
      have hle := le_start_of_mem_items hx
      have hpos := hl.byteLength_pos
      have hstart : x.span.start = n := congrArg Span.start hspan
      omega

theorem exists_item (hn : n ≤ m) (hm : m < n + (spell ls).byteLength) : ∃ x ∈ items n ls, x.span.Holds m := by
  induction ls generalizing n with
  | nil => exact absurd hm (by simpa using hn)
  | cons l ls ih =>
      rw [spell_cons, Text.byteLength_append, ← Nat.add_assoc] at hm
      by_cases hnext : m < n + l.spelling.byteLength
      · refine ⟨_, List.mem_cons_self, ?_⟩
        rw [span_item]
        exact ⟨hn, hnext⟩
      · obtain ⟨x, hx, hholds⟩ := ih (Nat.le_of_not_lt hnext) hm
        exact ⟨x, List.mem_cons_of_mem _ hx, hholds⟩

theorem pairwise_items (n : Nat) (ls : List Lexeme) :
    (items n ls).Pairwise fun x y => x.span.stop ≤ y.span.start := by
  induction ls generalizing n with
  | nil => exact List.pairwise_singleton _ _
  | cons l ls ih =>
      refine List.pairwise_cons.2 ⟨fun y hy => ?_, ih _⟩
      rw [span_item]
      exact le_start_of_mem_items hy

/-- Items lie one behind the other, so no byte belongs to two of them. -/
theorem item_eq_of_holds {y : Item} (hx : x ∈ items n ls) (hy : y ∈ items n ls) (hxm : x.span.Holds m)
    (hym : y.span.Holds m) : x = y := by
  have hpairs := List.pairwise_iff_getElem.1 (pairwise_items n ls)
  obtain ⟨hxstart, hxstop⟩ := hxm
  obtain ⟨hystart, hystop⟩ := hym
  obtain ⟨i, hi, rfl⟩ := List.getElem_of_mem hx
  obtain ⟨j, hj, rfl⟩ := List.getElem_of_mem hy
  rcases Nat.lt_trichotomy i j with hij | rfl | hij
  · have hle := hpairs i j hi hj hij
    omega
  · rfl
  · have hle := hpairs j i hj hi hij
    omega

theorem exists_items {ts : List Token} (h : tokenize source = .ok ts) :
    ∃ ls, (∀ l ∈ ls, l.Proper) ∧ spell ls = source ∧ ts.flatMap Token.items = items 0 ls := by
  obtain ⟨ls, hc, hs, rfl⟩ := tokenize_eq_ok.1 h
  exact ⟨ls, hc.proper, hs, Token.flatMap_items_place .start [] ls⟩

theorem exists_map_bytes (f : Item → α) (n : Nat) (ls : List Lexeme) :
    ∃ g : Nat → α, ∀ x ∈ items n ls, ∀ m, x.span.Holds m → g m = f x := by
  have hlocal (m : Nat) : ∃ a, ∀ x ∈ items n ls, x.span.Holds m → a = f x := by
    by_cases hm : ∃ x ∈ items n ls, x.span.Holds m
    · obtain ⟨x, hx, hxm⟩ := hm
      exact ⟨f x, fun y hy hym => by rw [item_eq_of_holds hy hx hym hxm]⟩
    · exact ⟨f (.token .eof default), fun x hx hxm => absurd ⟨x, hx, hxm⟩ hm⟩
  choose g hg using hlocal
  exact ⟨g, fun x hx m hxm => hg m x hx hxm⟩

end Lexeme

namespace Explorer

def nameStyle : Style := (Style.coloured theme.ruleName).emphasized

def itemStyle (namesRule : Bool) : Item → Style
  | .trivia x => triviaStyle x
  | .token kind _ => kindStyle namesRule kind

def namedSpans (ts : List Token) : List Span := ((styledSpans ts).filter (·.2 = nameStyle)).map (·.1)

theorem triviaStyle_ne_nameStyle (x : Trivia) : triviaStyle x ≠ nameStyle := by
  cases x with
  | gap => exact (by decide : Style.plain ≠ nameStyle)
  | comment => exact (by decide : (Style.coloured theme.comment).slanted ≠ nameStyle)

theorem kindStyle_eq_nameStyle {namesRule : Bool} {k : Kind} :
    kindStyle namesRule k = nameStyle ↔ namesRule = true ∧ ∃ name, k = .identifier name := by
  cases k with
  | identifier name =>
      cases namesRule with
      | true => simp [kindStyle, nameStyle]
      | false => simpa [kindStyle] using (by decide : Style.coloured theme.identifier ≠ nameStyle)
  | mark m =>
      have hne (c : Colour) : Style.coloured c ≠ nameStyle := by simp [Style.coloured, nameStyle, Style.emphasized]
      cases m <;> simp [kindStyle, hne]
  | eof => simpa [kindStyle] using (by decide : Style.plain ≠ nameStyle)
  | terminal | integer | special =>
      have hne (c : Colour) : Style.coloured c ≠ nameStyle := by simp [Style.coloured, nameStyle, Style.emphasized]
      simp [kindStyle, hne]

section

variable {t u : Token} {ts rest : List Token} {r : Rule Span} {rs : List (Rule Span)} {us : List Token}
  {segs : List (List Token)}

theorem namedSpans_cons_name {name : Text} (ht : t.kind = .identifier name) (hu : u.kind = .mark .equals) :
    namedSpans (t :: u :: ts) = t.span :: namedSpans (u :: ts) := by
  have hstyle : kindStyle ((u :: ts).head?.any (·.kind = .mark .equals)) t.kind = nameStyle :=
    kindStyle_eq_nameStyle.2 ⟨by simp [hu], name, ht⟩
  rw [namedSpans, styledSpans, hstyle]
  simp [namedSpans, triviaStyle_ne_nameStyle]

theorem namedSpans_cons (h : ∀ u ∈ ts.head?, u.kind ≠ .mark .equals) : namedSpans (t :: ts) = namedSpans ts := by
  have hnext : ts.head?.any (·.kind = .mark .equals) = false := by
    rw [Option.any_eq_false]
    simpa using h
  have hstyle : kindStyle (ts.head?.any (·.kind = .mark .equals)) t.kind ≠ nameStyle := by
    rw [hnext, ne_eq, kindStyle_eq_nameStyle]
    simp
  rw [namedSpans, styledSpans]
  simp [namedSpans, triviaStyle_ne_nameStyle, hstyle]

/-- Whatever stands in front of tokens that are no equals signs, none of them is
taken for the name of a rule. -/
theorem namedSpans_run (t : Token) (h : ∀ u ∈ ts, u.kind ≠ .mark .equals)
    (hrest : ∀ u ∈ rest.head?, u.kind ≠ .mark .equals) : namedSpans (t :: (ts ++ rest)) = namedSpans rest := by
  induction ts generalizing t with
  | nil => exact namedSpans_cons hrest
  | cons u ts ih =>
      obtain ⟨hu, hts⟩ := List.forall_mem_cons.1 h
      have hnext : ∀ v ∈ (u :: (ts ++ rest)).head?, v.kind ≠ .mark .equals := by
        rintro v ⟨⟩
        exact hu
      rw [List.cons_append, namedSpans_cons hnext, ih u hts]

theorem namedSpans_rule (hr : r.Stands us) (hrest : ∀ t ∈ rest.head?, t.kind ≠ .mark .equals) :
    namedSpans (us ++ rest) = r.namePlace :: namedSpans rest := by
  cases hr with
  | @mk name body us t u v ht hu hb hv =>
      have hbody : ∀ w ∈ us ++ [v], w.kind ≠ .mark .equals := by
        intro w hw he
        rcases List.mem_append.1 hw with hw | hw
        · have hmem : w.kind ∈ us.map (·.kind) := List.mem_map_of_mem hw
          rw [hb.kinds, he] at hmem
          cases body with
          | none => cases hmem
          | some e => exact e.equals_notMem_yield hmem
        · obtain rfl := List.mem_singleton.1 hw
          rw [hv] at he
          cases he
      rw [List.cons_append, List.cons_append, namedSpans_cons_name ht hu, namedSpans_run u hbody hrest]
      rfl

theorem namedSpans_rules (h : List.Forall₂ Rule.Stands rs segs) (hrest : ∀ t ∈ rest.head?, t.kind ≠ .mark .equals) :
    namedSpans (segs.flatten ++ rest) = rs.map Rule.namePlace ++ namedSpans rest := by
  induction h with
  | nil => rfl
  | @cons r us rs segs hr hrs ih =>
      have hnext : ∀ t ∈ (segs.flatten ++ rest).head?, t.kind ≠ .mark .equals := by
        cases hrs with
        | nil => exact hrest
        | @cons r' vs rs' segs' hr' _ =>
            cases hr' with
            | mk ht =>
                rintro t ⟨⟩
                simp [ht]
      rw [List.flatten_cons, List.append_assoc, namedSpans_rule hr hnext, ih]
      rfl

end

theorem namedSpans_tokens (h : Document.ofSource source = .ok d) :
    namedSpans d.tokens = d.grammar.rules.map Rule.namePlace := by
  obtain ⟨segs, stop, htokens, hstop, -, hst⟩ := Document.exists_segments h
  have hrest : ∀ t ∈ [stop].head?, t.kind ≠ .mark .equals := by
    rintro t ⟨⟩
    simp [hstop]
  have hend : namedSpans [stop] = [] := namedSpans_cons (by simp)
  rw [htokens, namedSpans_rules hst.stands hrest, hend, List.append_nil]

theorem itemStyle_eq_nameStyle {namesRule : Bool} {x : Item} :
    itemStyle namesRule x = nameStyle ↔ namesRule = true ∧ ∃ name span, x = .token (.identifier name) span := by
  cases x with
  | trivia v => simp [itemStyle, triviaStyle_ne_nameStyle]
  | token k span => simp [itemStyle, kindStyle_eq_nameStyle]

theorem itemStyle_eq_of_ne {x : Item} (h : itemStyle true x ≠ nameStyle) (namesRule : Bool) :
    itemStyle namesRule x = itemStyle true x := by
  cases x with
  | trivia v => rfl
  | token k span =>
      cases k with
      | identifier name => exact absurd rfl h
      | mark m => cases m <;> rfl
      | _ => rfl

theorem forall₂_styledSpans (ts : List Token) :
    List.Forall₂ (fun p x => p.1 = x.span ∧ ∃ namesRule, p.2 = itemStyle namesRule x) (styledSpans ts)
      (ts.flatMap Token.items) := by
  induction ts with
  | nil => exact .nil
  | cons t ts ih =>
      rw [styledSpans, List.flatMap_cons, Token.items, List.append_assoc]
      refine List.rel_append ?_ (.cons ⟨rfl, _, rfl⟩ ih)
      rw [List.forall₂_map_left_iff, List.forall₂_map_right_iff]
      exact List.forall₂_same.2 fun v _ => ⟨rfl, false, rfl⟩

theorem eq_map_of_forall₂ {β γ : Type} {R : β → γ → Prop} {f : γ → β} {ps : List β} {xs : List γ}
    (h : List.Forall₂ R ps xs) (hf : ∀ p ∈ ps, ∀ x, R p x → p = f x) : ps = xs.map f := by
  induction h with
  | nil => rfl
  | cons hr _ ih =>
      obtain ⟨hp, hps⟩ := List.forall_mem_cons.1 hf
      rw [List.map_cons, hp _ hr, ← ih hps]

/-- The highlighter takes for names of rules what the parser takes for them. -/
theorem styledSpans_tokens (h : Document.ofSource source = .ok d) : styledSpans d.tokens =
    (d.tokens.flatMap Token.items).map fun x =>
      (x.span, itemStyle (x.span ∈ d.grammar.rules.map Rule.namePlace) x) := by
  have hnames := namedSpans_tokens h
  obtain ⟨ls, hp, -, hitems⟩ := exists_items (Document.tokenize_tokens h)
  have hnodup : ((styledSpans d.tokens).map (·.1)).Nodup := by
    rw [map_fst_styledSpans, ← Token.map_span_flatMap_items, hitems]
    exact nodup_span_items hp 0
  have hmem (a : Span) : a ∈ d.grammar.rules.map Rule.namePlace ↔ (a, nameStyle) ∈ styledSpans d.tokens := by
    rw [← hnames, namedSpans]
    simp
  refine eq_map_of_forall₂ (forall₂_styledSpans d.tokens) ?_
  rintro ⟨a, style⟩ hp x ⟨rfl, namesRule, rfl⟩
  by_cases hname : x.span ∈ d.grammar.rules.map Rule.namePlace
  · -- one span has one style
    have hentry := List.inj_on_of_nodup_map hnodup hp ((hmem _).1 hname) rfl
    obtain ⟨rfl, -⟩ := itemStyle_eq_nameStyle.1 (congrArg Prod.snd hentry)
    simp [hname]
  · cases namesRule with
    | false => simp [hname]
    | true =>
        have hne : itemStyle true x ≠ nameStyle := by
          intro hstyle
          rw [hstyle] at hp
          exact hname ((hmem _).2 hp)
        rw [itemStyle_eq_of_ne hne (decide _)]

theorem cells_cover {front rest : Text} {spans : List (Span × Style)} {styleAt : Nat → Style}
    (hs : source = front ++ rest) (hc : ∀ p ∈ spans, Cuttable source p.1)
    (ht : Tiles front.byteLength (spans.map (·.1)) source.byteLength)
    (hstyle : ∀ p ∈ spans, ∀ n, p.1.Holds n → styleAt n = p.2) :
    (cover source.byteLength front.byteLength (rest, 0) spans).flatMap Stretch.cells =
      (rest.origins front.byteLength).map (Prod.map id styleAt) := by
  induction spans generalizing front rest with
  | nil =>
      have hlength : front.byteLength = source.byteLength := ht
      rw [hs, Text.byteLength_append] at hlength
      obtain rfl := Text.byteLength_eq_zero (t := rest) (by omega)
      simp [cover, Text.dropBytes?, Stretch.cells, Text.origins]
  | cons p spans ih =>
      obtain ⟨a, style⟩ := p
      obtain ⟨hstart, -, hrest⟩ := ht
      obtain ⟨ha, hc⟩ := List.forall_mem_cons.1 hc
      obtain ⟨hfirst, hstyle⟩ := List.forall_mem_cons.1 hstyle
      obtain ⟨gap, inner, behind, rfl, hgap, hstop, hcover⟩ :=
        cover_cons style spans hs ha (Nat.le_of_eq hstart.symm) hrest.le
      obtain rfl : gap = [] := Text.byteLength_eq_zero (by rw [hstart, Text.byteLength_append] at hgap; omega)
      rw [List.append_nil] at hgap hstop
      rw [Text.byteLength_append] at hstop
      have hnext : source = (front ++ inner) ++ behind := by simp [hs]
      have hbehind := ih hnext hc
        (by rwa [Text.byteLength_append, ← hstop]) hstyle
      have hinner : (inner.origins front.byteLength).map (Prod.map id styleAt) = inner.map (·, style) :=
        Text.mark_origins fun n hn hn' => hfirst n ⟨hgap ▸ hn, hstop ▸ hn'⟩
      rw [Text.byteLength_append, ← hstop] at hbehind
      rw [hcover, List.nil_append, Text.origins_append, List.map_append, hinner, ← hstop, ← hbehind]
      rfl

/-- The items of a document fill its source, so each displayed character has the
style of the one that it comes from. -/
theorem cells_document (h : Document.ofSource source = .ok d) : ∃ styleAt : Nat → Style,
    (∀ x ∈ d.tokens.flatMap Token.items, ∀ n, x.span.Holds n →
      styleAt n = itemStyle (x.span ∈ d.grammar.rules.map Rule.namePlace) x) ∧
    (highlight source d.tokens).map Line.cells =
      (display (source.origins 0)).map (List.map (Prod.map id styleAt)) := by
  have hcut := cuttable_of_tokenize (Document.tokenize_tokens h)
  have hstyled := styledSpans_tokens h
  obtain ⟨ls, -, hspell, hitems⟩ := exists_items (Document.tokenize_tokens h)
  rw [hitems] at hstyled ⊢
  obtain ⟨styleAt, hstyleAt⟩ :=
    exists_map_bytes (fun x => itemStyle (x.span ∈ d.grammar.rules.map Rule.namePlace) x) 0 ls
  have htiles : Tiles 0 ((styledSpans d.tokens).map (·.1)) source.byteLength := by
    rw [hstyled, List.map_map, ← hspell, ← Nat.zero_add (spell ls).byteLength]
    exact tiles_items 0 ls
  have hstyle : ∀ p ∈ styledSpans d.tokens, ∀ n, p.1.Holds n → styleAt n = p.2 := by
    rw [hstyled]
    intro p hp n hn
    obtain ⟨x, hx, rfl⟩ := List.mem_map.1 hp
    exact hstyleAt x hx n hn
  have hcells := cells_cover (List.nil_append source).symm hcut htiles hstyle
  rw [Text.byteLength_nil] at hcells
  exact ⟨styleAt, hstyleAt, by rw [cells_highlight hcut, hcells, display_map]⟩

theorem slice_identifier {ts : List Token} {t : Token} {name : Text} (h : tokenize source = .ok ts) (ht : t ∈ ts)
    (hk : t.kind = .identifier name) : t.span.slice source = name := by
  obtain ⟨front, text, back, rfl, hspan, hspelled⟩ := Token.exists_spelled h ht
  rw [hk] at hspelled
  obtain ⟨rfl, -⟩ := hspelled
  rw [hspan, Span.slice_append]

/-- How the lines of a document are coloured. Each byte belongs to one token or
piece of trivia. What is displayed has the style of the one that its character
in the source belongs to, and an identifier is styled as the name of a rule if
it is one for the parser. So the names of the rules, in order, are what is
styled so. -/
structure Coloured (source : Text) (d : Document) : Prop where
  held : ∀ n < source.byteLength, ∃! x, x ∈ d.tokens.flatMap Token.items ∧ x.span.Holds n
  cells : ∃ styleAt : Nat → Style,
    (∀ x ∈ d.tokens.flatMap Token.items, ∀ n, x.span.Holds n →
      styleAt n = itemStyle (x.span ∈ d.grammar.rules.map Rule.namePlace) x) ∧
    (highlight source d.tokens).map Line.cells =
      (display (source.origins 0)).map (List.map (Prod.map id styleAt))
  named : ∀ t ∈ d.tokens, ∀ name, t.kind = .identifier name →
    ((t.span, nameStyle) ∈ styledSpans d.tokens ↔ ∃ r ∈ d.grammar.rules, r.namePlace = t.span ∧ r.name = name)
  names : namedSpans d.tokens = d.grammar.rules.map Rule.namePlace
  texts : (namedSpans d.tokens).map (·.slice source) = d.grammar.rules.map Rule.name

theorem coloured_of_ofSource {source : Text} {d : Document} (h : Document.ofSource source = .ok d) :
    Coloured source d := by
  have htokens := Document.tokenize_tokens h
  have hnames := namedSpans_tokens h
  have hslice (r : Rule Span) (hr : r ∈ d.grammar.rules) : r.namePlace.slice source = r.name := by
    obtain ⟨t, ht, -, -, hk, hplace, -⟩ := Document.exists_ends h hr
    rw [← hplace, slice_identifier htokens ht hk]
  constructor
  case held =>
    intro n hn
    obtain ⟨ls, -, hspell, hitems⟩ := exists_items htokens
    have hlt : n < 0 + (spell ls).byteLength := by rwa [Nat.zero_add, hspell]
    obtain ⟨x, hx, hxn⟩ := exists_item (Nat.zero_le n) hlt
    rw [hitems]
    exact ⟨x, ⟨hx, hxn⟩, fun y hy => item_eq_of_holds hy.1 hx hy.2 hxn⟩
  case cells => exact cells_document h
  case named =>
    intro t ht name hk
    have hspan : (t.span, nameStyle) ∈ styledSpans d.tokens ↔ t.span ∈ d.grammar.rules.map Rule.namePlace := by
      rw [← hnames, namedSpans]
      simp
    rw [hspan, List.mem_map]
    refine exists_congr fun r => and_congr_right fun hr => ⟨fun hplace => ⟨hplace, ?_⟩, And.left⟩
    rw [← hslice r hr, hplace, slice_identifier htokens ht hk]
  case names => exact hnames
  case texts =>
    rw [hnames, List.map_map]
    exact List.map_congr_left hslice

theorem coloured_of_tab_in_comment :
    let source : Text := "(*\n\té*)a = b;\r\nb =;".toList
    ∃ d, Document.ofSource source = .ok d ∧ d.grammar.rules.map Rule.namePlace = [⟨8, 9⟩, ⟨16, 17⟩] ∧
      Coloured source d := by
  intro source
  obtain ⟨d, hd, hplaces⟩ : ∃ d, Document.ofSource source = .ok d ∧
      d.grammar.rules.map Rule.namePlace = [⟨8, 9⟩, ⟨16, 17⟩] := exists_of_map_eq_ok (by decide +kernel)
  exact ⟨d, hd, hplaces, coloured_of_ofSource hd⟩

end Explorer

end Ebnf
