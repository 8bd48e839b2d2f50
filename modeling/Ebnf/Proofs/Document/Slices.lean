import Ebnf.Proofs.Document.Source

namespace Ebnf

open Lexeme

namespace Lexeme

variable {n : Nat} {before : List Text} {ls : List Lexeme} {g : Gist} {gs hs : List Gist}

theorem le_start_of_mem_gists (h : g ∈ gists n before ls) : n ≤ g.span.start := by
  induction ls generalizing n before with
  | nil => cases h
  | cons l ls ih =>
      cases hk : l.kind? with
      | none =>
          rw [gists_trivia hk] at h
          exact Nat.le_of_add_right_le (ih h)
      | some k =>
          rw [gists_token hk] at h
          rcases List.mem_cons.1 h with rfl | h
          · exact Nat.le_refl n
          · exact Nat.le_of_add_right_le (ih h)

theorem Proper.byteLength_pos {l : Lexeme} (h : l.Proper) : 0 < l.spelling.byteLength := by
  obtain ⟨c, s, hc⟩ := List.exists_cons_of_ne_nil h.spelling_ne_nil
  have hpos := c.utf8Size_pos
  rw [hc, Text.byteLength_cons]
  omega

theorem ordered_of_gists {us : List Token} (hp : ∀ l ∈ ls, l.Proper) (h : us.map Token.gist = gists n before ls) :
    Token.Ordered us := by
  induction ls generalizing n before us with
  | nil =>
      obtain rfl := List.map_eq_nil_iff.1 h
      exact ⟨by simp, .nil⟩
  | cons l ls ih =>
      obtain ⟨hl, hls⟩ := List.forall_mem_cons.1 hp
      cases hk : l.kind? with
      | none =>
          rw [gists_trivia hk] at h
          exact ih hls h
      | some k =>
          rw [gists_token hk] at h
          obtain ⟨t, ts, rfl, ht, hts⟩ := List.map_eq_cons_iff.1 h
          have hspan : t.span = ⟨n, n + l.spelling.byteLength⟩ := congrArg Gist.span ht
          have hrest := ih hls hts
          have hpos := hl.byteLength_pos
          refine ⟨List.forall_mem_cons.2 ⟨?_, hrest.nonempty⟩, List.pairwise_cons.2 ⟨?_, hrest.pairwise⟩⟩
          · rw [hspan]
            exact Nat.lt_add_of_pos_right hpos
          · intro u hu
            have hmem : u.gist ∈ ts.map Token.gist := List.mem_map_of_mem hu
            rw [hts] at hmem
            rw [hspan]
            exact le_start_of_mem_gists hmem

theorem exists_cut (h : gists n before ls = gs ++ g :: hs) :
    ∃ l₁ l l₂, ls = l₁ ++ l :: l₂ ∧ g.span.start = n + (spell l₁).byteLength ∧
      g.span.stop = n + (spell (l₁ ++ [l])).byteLength ∧ gists n before (l₁ ++ [l]) = gs ++ [g] ∧
      gists (n + (spell l₁).byteLength) (waiting before l₁) (l :: l₂) = g :: hs := by
  obtain ⟨l₁, l, l₂, rfl, hl₁, hk, -⟩ := exists_lexeme h
  rw [gists_append, hl₁, gists_token hk] at h
  obtain ⟨hg, hhs⟩ := List.cons.inj (List.append_cancel_left h)
  refine ⟨l₁, l, l₂, rfl, ?_, ?_, ?_, ?_⟩
  · rw [← hg]
  · rw [← hg]
    simp [Nat.add_assoc]
  · rw [gists_append, hl₁, gists_token hk, hg]
    rfl
  · rw [gists_token hk, hg, hhs]

/-- A run of tokens stands in a run of lexemes that its span cuts out. -/
theorem exists_segment {us : List Token} {a : Span} (h : gists 0 [] ls = us.map Token.gist) {ws : List Token}
    (hws : ws <:+: us) (ha : a.RunsOver ws) :
    ∃ l₁ body l₂, ls = l₁ ++ (body ++ l₂) ∧ a.start = (spell l₁).byteLength ∧
      a.stop = (spell l₁).byteLength + (spell body).byteLength ∧ body.filterMap kind? = ws.map (·.kind) := by
  obtain ⟨front, back, rfl⟩ := hws
  obtain ⟨t, ht, hts⟩ := ha.first
  obtain ⟨v, hv, hvs⟩ := ha.last
  obtain ⟨ts, rfl⟩ : ∃ ts, ws = t :: ts := ⟨ws.tail, List.eq_cons_of_mem_head? ht⟩
  have hfirst : gists 0 [] ls = front.map Token.gist ++ t.gist :: (ts ++ back).map Token.gist := by
    rw [h]
    simp
  obtain ⟨l₁, l, rest, rfl, hstart, -, -, hrest⟩ := exists_cut hfirst
  obtain ⟨vs, hvs'⟩ : ∃ vs, t :: ts = vs ++ [v] := List.getLast?_eq_some_iff.1 hv
  have hlast : gists (0 + (spell l₁).byteLength) (waiting [] l₁) (l :: rest) =
      vs.map Token.gist ++ v.gist :: back.map Token.gist := by
    have hall : (t :: (ts ++ back)).map Token.gist = (vs ++ [v] ++ back).map Token.gist := by
      rw [← hvs', List.cons_append]
    rw [hrest]
    simpa using hall
  obtain ⟨m₁, m, l₂, hm, -, hstop, hgists, -⟩ := exists_cut hlast
  refine ⟨l₁, m₁ ++ [m], l₂, by rw [hm]; simp, ?_, ?_, ?_⟩
  · rw [← hts, ← Nat.zero_add (spell l₁).byteLength]
    exact hstart
  · rw [← hvs, ← Nat.zero_add (spell l₁).byteLength]
    exact hstop
  · have hk := congrArg (List.map Gist.kind) hgists
    rw [map_kind_gists] at hk
    rw [hk, hvs']
    simp [Token.gist, Function.comp_def]

end Lexeme

namespace Passage

theorem kinds_eq (p : Passage) : p.kinds = p.body.filterMap kind? := by
  rw [← p.map_kind_gists 0]
  exact Lexeme.map_kind_gists

def alone (p : Passage) : Passage := { p with lead := [], lead_trivia := by simp }

def definition (body : List Lexeme) (hb : ∀ u, Legible (body ++ [.gap [' '], .mark .semicolon]) u) : Passage where
  lead := []
  body := .identifier ['r'] :: ([.gap [' '], .mark .equals, .gap [' ']] ++ body ++ [.gap [' ']] ++ [.mark .semicolon])
  lead_trivia := by simp
  body_legible u := by
    have hgap : (Lexeme.gap [' ']).Proper := ⟨List.cons_ne_nil _ _, by simp [isGap]⟩
    have hname : (Lexeme.identifier ['r']).Proper := ⟨'r', [], rfl, rfl, by simp⟩
    have hrest := hb u
    rw [List.append_assoc, List.append_assoc]
    refine ⟨hname, .inr ?_, hgap, .inl rfl, trivial, .inr trivial, hgap, .inl rfl, hrest⟩
    rintro c ⟨⟩
    rfl
  body_form := ⟨['r'], _, rfl⟩

end Passage

variable {source : Text} {d : Document} {ps : List Passage} {trail : List Lexeme}

theorem exists_parse_of_passage {r : Rule Unit} (p : Passage) (hr : r.WellBound) (hk : p.kinds = r.yield) :
    ∃ g, parse (spell p.lexemes) = .ok g ∧ g.rules.map Rule.bare = [r] := by
  have hrs : ∀ r' ∈ [r], r'.WellBound := by simpa using hr
  have hkinds : List.Forall₂ (fun r p => Passage.kinds p = Rule.yield r) [r] [p] := .cons hk .nil
  have htrail : ∀ l ∈ ([] : List Lexeme), l.IsTrivia := by simp
  obtain ⟨d, hd, hrules, -⟩ := Document.exists_printed (List.cons_ne_nil r []) hrs hkinds htrail
  have hs : spell (Passage.allLexemes [p] []) = spell p.lexemes := by simp [Passage.allLexemes]
  rw [hs] at hd
  refine ⟨d.grammar, ?_, hrules⟩
  rw [parse, hd]
  rfl

theorem Document.Printed.parse_rule (h : Document.Printed source d ps trail) {r : Rule Span}
    (hr : r ∈ d.grammar.rules) :
    ∃ g, parse (r.place.slice source) = .ok g ∧ g.rules.map Rule.bare = [r.bare] := by
  obtain ⟨p, -, hk, hs⟩ := exists_mem_of_forall₂ (h.laid.kinds.mp (fun _ _ hk hs => And.intro hk hs) h.slices) hr
  have hkinds : p.alone.kinds = r.bare.yield := hk.trans r.yield_bare.symm
  obtain ⟨g, hg, hrules⟩ := exists_parse_of_passage p.alone (r.wellBound_bare.2 (h.wellBound r hr)) hkinds
  refine ⟨g, ?_, hrules⟩
  rw [Span.slice, hs]
  exact hg

theorem parse_definition {body : List Lexeme} {u : Text} {e : Expr Unit} (hc : Chained body u)
    (hk : body.filterMap kind? = e.yield) (he : e.WellBound) :
    ∃ g, parse ("r = ".toList ++ spell body ++ " ;".toList) = .ok g ∧
      g.rules.map Rule.bare = [⟨['r'], (), some e, ()⟩] := by
  have hb (v : Text) : Legible (body ++ [.gap [' '], .mark .semicolon]) v := by
    refine legible_append.2 ⟨hc.legible_of_apart (Text.apart_space _), ?_⟩
    exact ⟨⟨List.cons_ne_nil _ _, by simp [isGap]⟩, .inl rfl, trivial, .inr trivial, trivial⟩
  have hname : (Lexeme.identifier ['r']).kind? = some (.identifier ['r']) := rfl
  have hgap : (Lexeme.gap [' ']).kind? = none := rfl
  have hmark (m : Mark) : (Lexeme.mark m).kind? = some (.mark m) := rfl
  have hkinds : (Passage.definition body hb).kinds = Rule.yield ⟨['r'], (), some e, ()⟩ := by
    simp [Passage.kinds_eq, Passage.definition, Rule.yield, bodyYield, hname, hgap, hmark, hk]
  obtain ⟨g, hg, hrules⟩ := exists_parse_of_passage _ (by simpa [Rule.WellBound] using he) hkinds
  refine ⟨g, ?_, hrules⟩
  rw [← hg]
  simp [Passage.definition, Passage.lexemes, spelling, Mark.char]

theorem parse_of_segment {ls : List Lexeme} {us ws : List Token} {a : Span} {e : Expr Unit} (hc : Chained ls [])
    (h : gists 0 [] ls = us.map Token.gist) (hws : ws <:+: us) (ha : a.RunsOver ws) (he : e.WellBound)
    (hk : ws.map (·.kind) = e.yield) :
    ∃ g, parse ("r = ".toList ++ a.slice (spell ls) ++ " ;".toList) = .ok g ∧
      g.rules.map Rule.bare = [⟨['r'], (), some e, ()⟩] := by
  obtain ⟨l₁, body, l₂, rfl, hstart, hstop, hkinds⟩ := exists_segment h hws ha
  have hs : a.slice (spell (l₁ ++ (body ++ l₂))) = spell body := by
    rw [Span.slice, hstart, hstop, spell_append, spell_append, Text.slice?_append]
    rfl
  obtain ⟨-, hbody⟩ := chained_append.1 hc
  rw [hs]
  exact parse_definition (chained_append.1 hbody).1 (hkinds.trans hk) he

def Span.Covers (a : Span) (ts : List Token) (ks : List Kind) : Prop :=
  ∃ us, us <:+: ts ∧ us.map (·.kind) = ks ∧ a.RunsOver us

/-- What the spans of a grammar cut out of its source. A rule, or an expression
as the body of a rule, can be read from its span alone. Spans run from first
tokens to last ones, and those of the parts are nested in that of the whole. -/
structure Grammar.Cuts (g : Grammar Span) (source : Text) (ts : List Token) : Prop where
  rule_alone : ∀ r ∈ g.rules, ∃ g', parse (r.place.slice source) = .ok g' ∧ g'.rules.map Rule.bare = [r.bare]
  node_alone : ∀ r ∈ g.rules, ∀ e ∈ r.nodes,
    ∃ g', parse ("r = ".toList ++ e.place.slice source ++ " ;".toList) = .ok g' ∧
      g'.rules.map (·.body.map Expr.bare) = [some e.bare]
  grammar_tokens : g.place.Covers ts g.yield
  rule_tokens : ∀ r ∈ g.rules, r.place.Covers ts r.yield ∧ r.namePlace.Covers ts [.identifier r.name]
  node_tokens : ∀ r ∈ g.rules, ∀ e ∈ r.nodes, e.place.Covers ts e.yield
  count_tokens : ∀ r ∈ g.rules, ∀ n q e p, .counted n q e p ∈ r.nodes → q.Covers ts [.integer n]
  rules_nested : g.place.Nests (g.rules.map Rule.place)
  parts_nested : ∀ r ∈ g.rules, r.place.Nests r.parts ∧ ∀ e ∈ r.nodes, e.place.Nests e.parts

theorem Rule.Stands.name_covers {r : Rule Span} {ts : List Token} (h : r.Stands ts) :
    r.namePlace.Covers ts [.identifier r.name] := by
  cases h with
  | @mk name body us t u v ht _ _ _ => exact ⟨[t], ⟨[], u :: (us ++ [v]), rfl⟩, by simp [ht, Head.rule], .single t⟩

theorem Expr.Stands.count_covers {n : Nat} {q p : Span} {e : Expr Span} {ts : List Token}
    (h : (Expr.counted n q e p).Stands ts) : q.Covers ts [.integer n] := by
  cases h with
  | @counted _ _ us t u ht _ _ => exact ⟨[t], ⟨[], u :: us, rfl⟩, by simp [ht], .single t⟩

theorem Span.Covers.mono {a : Span} {ts us : List Token} {ks : List Kind} (h : a.Covers us ks) (hs : us <:+: ts) :
    a.Covers ts ks := by
  obtain ⟨vs, hvs, hk, ha⟩ := h
  exact ⟨vs, hvs.trans hs, hk, ha⟩

theorem forall₂_runsOver {rs : List (Rule Span)} {segs : List (List Token)}
    (hst : List.Forall₂ Rule.Stands rs segs) (ho : Token.Ordered segs.flatten) :
    List.Forall₂ Span.RunsOver (rs.map Rule.place) segs := by
  rw [List.forall₂_map_left_iff]
  induction hst with
  | nil => exact .nil
  | @cons r us rs segs hs _ ih =>
      rw [List.flatten_cons] at ho
      have hus : Token.Ordered us := ho.sublist (List.sublist_append_left us _)
      exact .cons (hs.runsOver hus) (ih (ho.sublist (List.sublist_append_right us _)))

theorem runsOver_of_ofRules? {g : Grammar Span} {segs : List (List Token)}
    (h : List.Forall₂ Span.RunsOver (g.rules.map Rule.place) segs) (ho : Token.Ordered segs.flatten)
    (hg : Grammar.ofRules? g.rules = some g) : g.place.RunsOver segs.flatten := by
  obtain ⟨rules, place⟩ := g
  cases rules with
  | nil => cases hg
  | cons r rs =>
      cases hg
      have hall := ho.hull_getLast h
      have hlast : ((r :: rs).map Rule.place).getLast (by simp) = ((r :: rs).getLast (by simp)).place :=
        List.getLast_map _
      simp only [List.map_cons] at hlast
      rwa [hlast] at hall

structure Grammar.Standing (g : Grammar Span) (source : Text) (segs : List (List Token)) : Prop where
  lexemes : ∃ ls, Chained ls [] ∧ spell ls = source ∧ gists 0 [] ls = segs.flatten.map Token.gist
  ordered : Token.Ordered segs.flatten
  stands : List.Forall₂ Rule.Stands g.rules segs
  wellBound : ∀ r ∈ g.rules, r.WellBound
  place : g.place.RunsOver segs.flatten

theorem Document.exists_standing (h : Document.ofSource source = .ok d) :
    ∃ segs stop, tokenize source = .ok (segs.flatten ++ [stop]) ∧ d.grammar.Standing source segs := by
  obtain ⟨ts, ht⟩ := Document.exists_tokens_of_ofSource h
  obtain ⟨us, stop, rfl, hus, hstop, ls, hc, hs, hgists, -⟩ := tokenize_closed ht
  obtain ⟨-, hread, hg⟩ := (Document.ofSource_eq_ok ht hus hstop).1 h
  obtain ⟨segs, rfl, hst, hw⟩ := stands_of_readRules hread
  have ho : Token.Ordered segs.flatten := ordered_of_gists hc.proper hgists
  have hplace := runsOver_of_ofRules? (forall₂_runsOver hst ho) ho hg
  exact ⟨segs, stop, ht, ⟨ls, hc, hs, hgists.symm⟩, ho, hst, hw, hplace⟩

theorem Document.exists_segments (h : Document.ofSource source = .ok d) :
    ∃ segs stop, d.tokens = segs.flatten ++ [stop] ∧ stop.kind = .eof ∧ (∀ t ∈ segs.flatten, t.kind ≠ .eof) ∧
      d.grammar.Standing source segs := by
  obtain ⟨segs, stop, ht, hg⟩ := Document.exists_standing h
  obtain ⟨us, stop', hs, hus, hstop, -⟩ := tokenize_closed ht
  obtain ⟨rfl, hend⟩ := List.append_inj' hs rfl
  obtain rfl := List.singleton_inj.1 hend
  have hd : d.tokens = segs.flatten ++ [stop] := Except.ok.inj ((Document.tokenize_tokens h).symm.trans ht)
  exact ⟨segs, stop, hd, hstop, hus, hg⟩

/-- A rule begins with its name and ends with its semicolon. -/
theorem Rule.Stands.exists_ends {r : Rule Span} {ts : List Token} (h : r.Stands ts) (ho : Token.Ordered ts) :
    ∃ t us v, ts = t :: (us ++ [v]) ∧ t.kind = .identifier r.name ∧ t.span = r.namePlace ∧
      t.span.start = r.place.start ∧ v.kind = .mark .semicolon ∧ v.span.stop = r.place.stop := by
  obtain ⟨⟨t', hfirst, hstart⟩, ⟨v', hlast, hstop⟩⟩ := h.runsOver ho
  cases h with
  | @mk name body us t u v hname _ _ hsemicolon =>
      obtain rfl : t = t' := Option.some.inj hfirst
      rw [← List.cons_append, ← List.cons_append, List.getLast?_concat] at hlast
      obtain rfl : v = v' := Option.some.inj hlast
      exact ⟨t, u :: us, v, rfl, hname, rfl, hstart, hsemicolon, hstop⟩

namespace Grammar.Standing

variable {g : Grammar Span} {segs : List (List Token)} {r : Rule Span} {e : Expr Span}

theorem exists_rule (h : g.Standing source segs) (hr : r ∈ g.rules) :
    ∃ us, us <:+: segs.flatten ∧ r.Stands us ∧ Token.Ordered us := by
  obtain ⟨us, hus, hs⟩ := exists_mem_of_forall₂ h.stands hr
  have hinfix := List.infix_of_mem_flatten hus
  exact ⟨us, hinfix, hs, h.ordered.sublist hinfix.sublist⟩

theorem exists_node (h : g.Standing source segs) (hr : r ∈ g.rules) (he : e ∈ r.nodes) :
    ∃ us, us <:+: segs.flatten ∧ e.Stands us ∧ Token.Ordered us := by
  obtain ⟨us, hus, hs, -⟩ := h.exists_rule hr
  obtain ⟨vs, hvs, hs⟩ := hs.exists_node he
  have hinfix := hvs.trans hus
  exact ⟨vs, hinfix, hs, h.ordered.sublist hinfix.sublist⟩

theorem wellBound_node (h : g.Standing source segs) (hr : r ∈ g.rules) (he : e ∈ r.nodes) : e.WellBound := by
  have hw := h.wellBound r hr
  obtain ⟨name, namePlace, body, place⟩ := r
  cases body with
  | none => cases he
  | some x => exact (hw x rfl).of_mem_nodes he

theorem parse_node (h : g.Standing source segs) (hr : r ∈ g.rules) (he : e ∈ r.nodes) :
    ∃ g', parse ("r = ".toList ++ e.place.slice source ++ " ;".toList) = .ok g' ∧
      g'.rules.map (·.body.map Expr.bare) = [some e.bare] := by
  obtain ⟨ls, hc, rfl, hgists⟩ := h.lexemes
  obtain ⟨us, hus, hs, ho⟩ := h.exists_node hr he
  have hw : e.bare.WellBound := e.wellBound_bare.2 (h.wellBound_node hr he)
  have hk : us.map (·.kind) = e.bare.yield := hs.kinds.trans e.yield_bare.symm
  obtain ⟨g', hg', hrules⟩ := parse_of_segment hc hgists hus (hs.runsOver ho) hw hk
  refine ⟨g', hg', ?_⟩
  have hbodies := congrArg (List.map Rule.body) hrules
  rw [List.map_map] at hbodies
  exact hbodies

end Grammar.Standing

theorem Document.exists_ends (h : Document.ofSource source = .ok d) {r : Rule Span} (hr : r ∈ d.grammar.rules) :
    ∃ t ∈ d.tokens, ∃ u ∈ d.tokens, t.kind = .identifier r.name ∧ t.span = r.namePlace ∧
      t.span.start = r.place.start ∧ u.kind = .mark .semicolon ∧ u.span.stop = r.place.stop := by
  obtain ⟨segs, stop, hd, -, -, hg⟩ := Document.exists_segments h
  obtain ⟨us, hus, hs, ho⟩ := hg.exists_rule hr
  have hsub : us ⊆ d.tokens := by
    rw [hd]
    exact List.Subset.trans hus.subset (List.subset_append_left _ _)
  obtain ⟨t, vs, u, rfl, hends⟩ := hs.exists_ends ho
  exact ⟨t, hsub List.mem_cons_self, u, hsub (by simp), hends⟩

theorem Document.nests_rules (h : Document.ofSource source = .ok d) :
    d.grammar.place.Nests (d.grammar.rules.map Rule.place) := by
  obtain ⟨segs, stop, -, -, -, hg⟩ := Document.exists_segments h
  exact hg.ordered.nests hg.place (forall₂_runsOver hg.stands hg.ordered) (List.Sublist.refl _)

/-- Every span of a tree cuts a piece of grammar out of the source. -/
theorem parse_cuts {g : Grammar Span} (h : parse source = .ok g) :
    ∃ ts, tokenize source = .ok ts ∧ g.Cuts source ts := by
  obtain ⟨d, hd, rfl⟩ := exists_of_map_eq_ok h
  obtain ⟨ps, trail, hprinted⟩ := Document.printed_of_ofSource hd
  obtain ⟨segs, stop, ht, hg⟩ := Document.exists_standing hd
  have hinfix : segs.flatten <:+: segs.flatten ++ [stop] := (List.prefix_append _ _).isInfix
  refine ⟨_, ht, ?_⟩
  constructor
  case rule_alone => exact fun r hr => hprinted.parse_rule hr
  case node_alone => exact fun r hr e he => hg.parse_node hr he
  case grammar_tokens => exact ⟨_, hinfix, flatMap_of_segments (hg.stands.imp fun _ _ h => h.kinds), hg.place⟩
  case rule_tokens =>
    intro r hr
    obtain ⟨us, hus, hs, ho⟩ := hg.exists_rule hr
    exact ⟨⟨us, hus.trans hinfix, hs.kinds, hs.runsOver ho⟩, hs.name_covers.mono (hus.trans hinfix)⟩
  case node_tokens =>
    intro r hr e he
    obtain ⟨us, hus, hs, ho⟩ := hg.exists_node hr he
    exact ⟨us, hus.trans hinfix, hs.kinds, hs.runsOver ho⟩
  case count_tokens =>
    intro r hr n q e p he
    obtain ⟨us, hus, hs, -⟩ := hg.exists_node hr he
    exact hs.count_covers.mono (hus.trans hinfix)
  case rules_nested => exact hg.ordered.nests hg.place (forall₂_runsOver hg.stands hg.ordered) (List.Sublist.refl _)
  case parts_nested =>
    intro r hr
    obtain ⟨us, -, hs, ho⟩ := hg.exists_rule hr
    refine ⟨hs.nests ho, fun e he => ?_⟩
    obtain ⟨vs, -, hs, ho⟩ := hg.exists_node hr he
    exact hs.nests ho

theorem parse_cuts_of_absent_operand :
    let source : Text := "(*é*)s=(02 * x (*-*)\n- ),[];t=;".toList
    ∃ g ts, parse source = .ok g ∧
      (g.rules.flatMap Rule.nodes).map (·.place) = [⟨8, 28⟩, ⟨8, 25⟩, ⟨9, 23⟩, ⟨9, 15⟩, ⟨14, 15⟩, ⟨26, 28⟩] ∧
      tokenize source = .ok ts ∧ g.Cuts source ts := by
  intro source
  obtain ⟨g, hg, hplaces⟩ : ∃ g, parse source = .ok g ∧ (g.rules.flatMap Rule.nodes).map (·.place) =
      [⟨8, 28⟩, ⟨8, 25⟩, ⟨9, 23⟩, ⟨9, 15⟩, ⟨14, 15⟩, ⟨26, 28⟩] := exists_of_map_eq_ok (by decide +kernel)
  obtain ⟨ts, ht, hcuts⟩ := parse_cuts hg
  exact ⟨g, ts, hg, hplaces, ht, hcuts⟩

end Ebnf
