import Ebnf.Proofs.Document.Passage
import Ebnf.Proofs.Token.Items

namespace Ebnf

open Lexeme

theorem readRules_passages (stop : Token) {rs : List (Rule Unit)} {ps : List Passage} {ts : List Token}
    {n : Nat} (hr : ∀ r ∈ rs, r.WellBound) (hk : List.Forall₂ (fun r p => p.kinds = r.yield) rs ps)
    (hts : ts.map Token.gist = (Passage.gistsFrom n ps).flatten) :
    ∃ rs', rs'.map Rule.bare = rs ∧ Passage.Laid n rs' ps ∧ readRules stop .name ts = .ok rs' [] := by
  induction hk generalizing n ts with
  | nil =>
      obtain rfl := List.map_eq_nil_iff.1 hts
      exact ⟨[], rfl, .nil n, rfl⟩
  | @cons r p rs ps hp _ ih =>
      obtain ⟨us, vs, rfl, hus, hvs⟩ := List.map_eq_append_iff.1 hts
      have hy : us.map (·.kind) = r.yield := by
        rw [← hp, ← p.map_kind_gists n, ← hus, List.map_map]
        rfl
      obtain ⟨rs', hrs, hl, h⟩ := ih (fun r' hr' => hr r' (List.mem_cons_of_mem _ hr')) hvs
      obtain ⟨r', hr', hm, h'⟩ := readRules_rule stop vs (hr r List.mem_cons_self) hy
      refine ⟨r' :: rs', by rw [List.map_cons, hr', hrs], .cons ?_ ?_ hl, by rw [h', h]; rfl⟩
      · rw [hp, ← hr', Rule.yield_bare]
      · rw [hm.place_eq, Token.extent_eq, hus, p.extent_gists]

theorem Lexeme.Chained.proper {ls : List Lexeme} {u : Text} (h : Chained ls u) : ∀ l ∈ ls, l.Proper := by
  induction ls with
  | nil => simp
  | cons l ls ih => exact List.forall_mem_cons.2 ⟨h.1, ih h.2.2⟩

/-- The lexemes of a rule can be read in front of any text, because a semicolon
cannot become longer. -/
theorem Lexeme.Chained.legible_of_semicolon {ls : List Lexeme} {u : Text}
    (h : Chained (ls ++ [.mark .semicolon]) u) (v : Text) : Legible (ls ++ [.mark .semicolon]) v := by
  obtain ⟨hc, -⟩ := chained_append.1 h
  have hv : Chained (ls ++ [.mark .semicolon]) v := chained_append.2 ⟨hc.congr rfl, trivial, trivial, trivial⟩
  exact hv.legible

theorem exists_passage_of_stands {r : Rule Span} {us : List Token} {gs : List Gist} {ls : List Lexeme} {n : Nat}
    (hr : r.Stands us) (hc : Chained ls []) (hg : Lexeme.gists n [] ls = us.map Token.gist ++ gs) :
    ∃ (p : Passage) (ms : List Lexeme), ls = p.lexemes ++ ms ∧ Chained ms [] ∧
      p.gists n = us.map Token.gist ∧ Lexeme.gists (n + p.size) [] ms = gs := by
  obtain ⟨t, us', hus, ht, hus'⟩ := List.map_eq_cons_iff.1 hr.kinds
  obtain ⟨vs, ws, hvs, -, hws⟩ := List.map_eq_append_iff.1 hus'
  obtain ⟨t', rfl, ht'⟩ := List.map_eq_singleton_iff.1 hws
  rw [hvs] at hus
  have hg' : Lexeme.gists n [] ls = (t :: vs).map Token.gist ++ t'.gist :: gs := by
    rw [hg, hus]
    simp
  obtain ⟨l₁, l, ms, rfl, hl₁, hl, hms⟩ := exists_lexeme hg'
  obtain rfl := eq_mark_of_kind? (hl.trans (congrArg some ht'))
  obtain ⟨lead, l', body, rfl, hlead, hl', -⟩ := exists_lexeme (hl₁.trans (List.nil_append _).symm)
  obtain rfl := eq_identifier_of_kind? (hl'.trans (congrArg some ht))
  have hsplit : lead ++ .identifier r.name :: body ++ .mark .semicolon :: ms =
      lead ++ (.identifier r.name :: body ++ [.mark .semicolon]) ++ ms := by simp
  rw [hsplit] at hc hg ⊢
  obtain ⟨hcp, hcm⟩ := chained_append.1 hc
  obtain ⟨hcl, hcb⟩ := chained_append.1 hcp
  let p : Passage :=
    { lead := lead
      body := .identifier r.name :: body ++ [.mark .semicolon]
      lead_trivia := fun l hl => ⟨hcl.proper l hl, trivia_of_gists_eq_nil hlead l hl⟩
      body_legible := hcb.legible_of_semicolon
      body_form := ⟨r.name, body, rfl⟩ }
  have hsize : n + (spell (lead ++ .identifier r.name :: body)).byteLength +
      (Lexeme.mark .semicolon).spelling.byteLength = n + p.size := by
    simp [p, Passage.size, Passage.lexemes, Nat.add_assoc]
  rw [hsize] at hms
  refine ⟨p, ms, rfl, hcm, ?_, hms⟩
  have happend : p.gists n ++ gs = us.map Token.gist ++ gs := by
    have hp : Lexeme.gists n [] (p.lexemes ++ ms) = _ := gists_append
    rw [p.gists_lexemes, p.waiting_lexemes, ← Passage.size, hms] at hp
    exact hp.symm.trans hg
  exact List.append_cancel_right happend

theorem exists_passages_of_stands {rs : List (Rule Span)} {segs : List (List Token)} {ls : List Lexeme}
    {n : Nat} (hm : List.Forall₂ Rule.Stands rs segs) (hc : Chained ls [])
    (hg : Lexeme.gists n [] ls = segs.flatten.map Token.gist) :
    ∃ ps trail, ls = Passage.allLexemes ps trail ∧ (∀ l ∈ trail, l.IsTrivia) ∧ Passage.Laid n rs ps := by
  induction hm generalizing n ls with
  | nil => exact ⟨[], ls, rfl, fun l hl => ⟨hc.proper l hl, trivia_of_gists_eq_nil hg l hl⟩, .nil n⟩
  | @cons r us rs segs hr _ ih =>
      rw [List.flatten_cons, List.map_append] at hg
      obtain ⟨p, ms, rfl, hcm, hp, hms⟩ := exists_passage_of_stands hr hc hg
      obtain ⟨ps, trail, rfl, htr, hlaid⟩ := ih hcm hms
      refine ⟨p :: ps, trail, (Passage.allLexemes_cons p ps trail).symm, htr, .cons ?_ ?_ hlaid⟩
      · rw [← p.map_kind_gists n, hp, List.map_map, ← hr.kinds]
        rfl
      · rw [hr.place_eq, Token.extent_eq, ← hp, p.extent_gists]

theorem exists_of_map_eq_ok {ε α β : Type} {x : Except ε α} {f : α → β} {b : β} (h : x.map f = .ok b) :
    ∃ a, x = .ok a ∧ f a = b := by
  cases x with
  | error e => cases h
  | ok a => exact ⟨a, rfl, Except.ok.inj h⟩

theorem tokenize_closed {source : Text} {ts : List Token} (h : tokenize source = .ok ts) :
    ∃ us stop, ts = us ++ [stop] ∧ (∀ t ∈ us, t.kind ≠ .eof) ∧ stop.kind = .eof ∧
      ∃ ls, Chained ls [] ∧ spell ls = source ∧ us.map Token.gist = Lexeme.gists 0 [] ls ∧
        stop.gist = .stop source.byteLength (waiting [] ls) := by
  obtain ⟨ls, hc, rfl, ht⟩ := tokenize_eq_ok.1 h
  have hm := Token.map_gist_place .start [] ls
  rw [ht] at hm
  obtain ⟨us, vs, rfl, hus, hvs⟩ := List.map_eq_append_iff.1 hm
  obtain ⟨stop, rfl, hstop⟩ := List.map_eq_singleton_iff.1 hvs
  refine ⟨us, stop, rfl, fun t ht => ?_, congrArg Gist.kind hstop, ls, hc, rfl, hus, ?_⟩
  · have hg : t.gist ∈ us.map Token.gist := List.mem_map_of_mem ht
    rw [hus] at hg
    exact kind_ne_eof_of_mem_gists hg
  · simpa [Location.start] using hstop

namespace Document

theorem ofSource_eq_ok {source : Text} {us : List Token} {stop : Token}
    (ht : tokenize source = .ok (us ++ [stop]))
    (hus : ∀ t ∈ us, t.kind ≠ .eof) (hstop : stop.kind = .eof) {d : Document} :
    ofSource source = .ok d ↔ d.tokens = us ++ [stop] ∧ readRules stop .name us = .ok d.grammar.rules [] ∧
      Grammar.ofRules? d.grammar.rules = some d.grammar := by
  have hc : Cursor.ofSource source = .ok (.ofTokens (us ++ [stop])) := by
    rw [Cursor.ofSource, ht]
    rfl
  have hg (g : Grammar Span) := Cursor.grammar_ok hus hstop (g := g)
  have htokens : (Cursor.ofTokens (us ++ [stop])).tokens = us ++ [stop] := by
    rw [Cursor.ofTokens_append hus hstop]
  rw [← hg, ofSource, hc]
  simp only [Except.mapError, bind, Except.bind, pure, Except.pure, htokens]
  cases (Cursor.ofTokens (us ++ [stop])).grammar.1 with
  | error e => simp
  | ok g =>
      simp only [Except.ok.injEq]
      constructor
      · rintro rfl
        exact ⟨rfl, rfl⟩
      · rintro ⟨h, rfl⟩
        rw [← h]

/-- A document as it stands in its text: one passage for each rule, and trivia
behind the last one. -/
structure Printed (source : Text) (d : Document) (ps : List Passage) (trail : List Lexeme) : Prop where
  source_eq : source = spell (Passage.allLexemes ps trail)
  trail_trivia : ∀ l ∈ trail, l.IsTrivia
  laid : Passage.Laid 0 d.grammar.rules ps
  wellBound : ∀ r ∈ d.grammar.rules, r.WellBound
  rules_ne_nil : d.grammar.rules ≠ []
  gists : d.tokens.map Token.gist =
    (Passage.gistsFrom 0 ps).flatten ++ [.stop source.byteLength (trail.flatMap Lexeme.notes)]

theorem exists_tokens_of_ofSource {source : Text} {d : Document} (h : ofSource source = .ok d) :
    ∃ ts, tokenize source = .ok ts := by
  cases ht : tokenize source with
  | error e => simp [ofSource, Cursor.ofSource, ht, Except.map, Except.mapError, bind, Except.bind] at h
  | ok ts => exact ⟨ts, rfl⟩

theorem tokenize_tokens {source : Text} {d : Document} (h : ofSource source = .ok d) :
    tokenize source = .ok d.tokens := by
  obtain ⟨ts, ht⟩ := exists_tokens_of_ofSource h
  obtain ⟨us, stop, rfl, hus, hstop, -⟩ := tokenize_closed ht
  obtain ⟨htok, -⟩ := (ofSource_eq_ok ht hus hstop).1 h
  rw [ht, htok]

theorem exists_chained_of_ofSource {source : Text} {d : Document} (h : ofSource source = .ok d) :
    ∃ ps trail, Chained (Passage.allLexemes ps trail) [] ∧ Printed source d ps trail := by
  obtain ⟨ts, ht⟩ := exists_tokens_of_ofSource h
  obtain ⟨us, stop, rfl, hus, hstop, ls, hc, hs, hgu, hgs⟩ := tokenize_closed ht
  obtain ⟨htok, hr, ho⟩ := (ofSource_eq_ok ht hus hstop).1 h
  obtain ⟨segs, rfl, hm, hw⟩ := stands_of_readRules hr
  obtain ⟨ps, trail, rfl, htr, hl⟩ := exists_passages_of_stands hm hc hgu.symm
  refine ⟨ps, trail, hc, hs.symm, htr, hl, hw, Grammar.rules_ne_nil ho, ?_⟩
  rw [htok, List.map_append, hgu, Passage.gists_allLexemes 0 ps htr, List.map_singleton, hgs,
    Passage.waiting_allLexemes ps htr]

theorem printed_of_ofSource {source : Text} {d : Document} (h : ofSource source = .ok d) :
    ∃ ps trail, Printed source d ps trail := by
  obtain ⟨ps, trail, -, hp⟩ := exists_chained_of_ofSource h
  exact ⟨ps, trail, hp⟩

theorem Printed.slices {source : Text} {d : Document} {ps : List Passage} {trail : List Lexeme}
    (h : Printed source d ps trail) : List.Forall₂ (fun r p =>
      source.slice? r.place.start r.place.stop = some (spell (Passage.body p))) d.grammar.rules ps := by
  have hs := h.laid.slices Text.byteLength_nil trail
  rwa [List.nil_append, ← h.source_eq] at hs

theorem exists_printed {rs : List (Rule Unit)} {ps : List Passage} {trail : List Lexeme} (hne : rs ≠ [])
    (hr : ∀ r ∈ rs, r.WellBound) (hk : List.Forall₂ (fun r p => p.kinds = r.yield) rs ps)
    (htr : ∀ l ∈ trail, l.IsTrivia) :
    ∃ d, ofSource (spell (Passage.allLexemes ps trail)) = .ok d ∧ d.grammar.rules.map Rule.bare = rs ∧
      Printed (spell (Passage.allLexemes ps trail)) d ps trail := by
  obtain ⟨ts, ht, hg⟩ := exists_tokenize_spell (Passage.legible_allLexemes ps htr [])
  rw [Passage.gists_allLexemes 0 ps htr, Passage.waiting_allLexemes ps htr] at hg
  obtain ⟨us, vs, rfl, hus, hvs⟩ := List.map_eq_append_iff.1 hg
  obtain ⟨stop, rfl, hstop⟩ := List.map_eq_singleton_iff.1 hvs
  have hus' : ∀ t ∈ us, t.kind ≠ .eof := by
    intro t hmem
    have hmem : t.gist ∈ us.map Token.gist := List.mem_map_of_mem hmem
    rw [hus, ← Passage.gists_allLexemes 0 ps htr] at hmem
    exact kind_ne_eof_of_mem_gists hmem
  obtain ⟨rs', rfl, hl, hread⟩ := readRules_passages stop hr hk hus
  have hne' : rs' ≠ [] := by simpa using hne
  obtain ⟨g, ho, rfl⟩ := Grammar.ofRules?_of_ne_nil hne'
  refine ⟨⟨g, us ++ [stop]⟩, (ofSource_eq_ok ht hus' (congrArg Gist.kind hstop)).2 ⟨rfl, hread, ho⟩, rfl,
    rfl, htr, hl, ?_, hne', hg⟩
  intro r hmem
  exact r.wellBound_bare.1 (hr _ (List.mem_map_of_mem hmem))

end Document

end Ebnf
