import Ebnf.Proofs.Document.Failure
import Ebnf.Proofs.Parser.Relocation

namespace Ebnf

open Lexeme

def ParseError.unplaced (e : ParseError) : ParseError := Relocation.forget.error e

/-- Two grammars, or two errors, that differ in places only. -/
def SameOutcome : Except ParseError (Grammar Span) → Except ParseError (Grammar Span) → Prop
  | .ok g, .ok g' => g.bare = g'.bare
  | .error e, .error e' => e.unplaced = e'.unplaced
  | _, _ => False

theorem Text.append_inj_of_byteLength {a b c d : Text} (h : a ++ b = c ++ d)
    (hl : a.byteLength = c.byteLength) : a = c ∧ b = d := by
  have ha := takeBytes?_append a b
  rw [h, hl, takeBytes?_append] at ha
  obtain rfl := Option.some.inj ha
  exact ⟨rfl, List.append_cancel_left h⟩

theorem exists_chained_of_boundary {a b : Text} {ts : List Token} {s : Span}
    (h : tokenize (a ++ b) = .ok ts) (hs : s ∈ ts.flatMap Token.spans) (ha : s.start = a.byteLength) :
    ∃ as bs, Chained (as ++ bs) [] ∧ spell as = a ∧ spell bs = b := by
  obtain ⟨ls, hc, he, rfl⟩ := tokenize_eq_ok.1 h
  rw [← Token.map_span_flatMap_items, Token.flatMap_items_place] at hs
  obtain ⟨x, hx, rfl⟩ := List.mem_map.1 hs
  rcases mem_items hx with rfl | ⟨as, l, bs, rfl, rfl⟩
  · have hl : (spell ls).byteLength = a.byteLength := by simpa [Item.span, Location.start] using ha
    obtain ⟨h₁, h₂⟩ := Text.append_inj_of_byteLength ((List.append_nil _).trans he) hl
    exact ⟨ls, [], by rwa [List.append_nil], h₁, h₂⟩
  · have hl : (spell as).byteLength = a.byteLength := by simpa [span_item, Location.start] using ha
    rw [spell_append] at he
    obtain ⟨h₁, h₂⟩ := Text.append_inj_of_byteLength he hl
    exact ⟨as, l :: bs, hc, h₁, h₂⟩

theorem kinds_of_tokenize {ls : List Lexeme} {ts : List Token} (hl : Legible ls [])
    (h : tokenize (spell ls) = .ok ts) : ts.map (·.kind) = ls.filterMap kind? ++ [.eof] := by
  obtain ⟨us, hus, hg⟩ := exists_tokenize_spell hl
  rw [h] at hus
  obtain rfl := Except.ok.inj hus
  have hk := congrArg (List.map Gist.kind) hg
  rw [List.map_append, map_kind_gists, List.map_map] at hk
  exact hk

theorem Lexeme.IsTrivia.apart {x : Lexeme} (h : x.IsTrivia) (u : Text) : Text.Apart (x.spelling ++ u) := by
  obtain ⟨c, s, hc⟩ := List.exists_cons_of_ne_nil h.1.spelling_ne_nil
  have hb := h.1.begins hc
  rw [hc]
  rintro d ⟨⟩
  obtain ⟨-, hk⟩ := h
  cases x with
  | gap run =>
      refine ⟨isNamePart_of_isGap hb, ?_⟩
      rintro rfl
      cases hb
  | comment body =>
      obtain rfl := hb
      decide
  | _ => cases hk

theorem legible_insert {as bs xs : List Lexeme} (hc : Chained (as ++ bs) []) (hx : ∀ x ∈ xs, x.IsTrivia) :
    Legible (as ++ (xs ++ bs)) [] := by
  obtain ⟨has, hbs⟩ := chained_append.1 hc
  rw [legible_append, legible_append]
  refine ⟨?_, legible_of_trivia hx _, hbs.legible⟩
  -- The lexemes in front stopped where `bs` begin; now a blank or a comment stands there.
  cases xs with
  | nil => exact has.legible
  | cons x xs =>
      rw [List.cons_append, spell_cons, List.append_assoc]
      exact has.legible_of_apart ((List.forall_mem_cons.1 hx).1.apart _)

theorem filterMap_kind?_insert (as bs : List Lexeme) {xs : List Lexeme} (hx : ∀ x ∈ xs, x.IsTrivia) :
    (as ++ (xs ++ bs)).filterMap kind? = (as ++ bs).filterMap kind? := by
  have hn : xs.filterMap kind? = [] := List.filterMap_eq_nil_iff.2 fun x h => (hx x h).2
  rw [List.filterMap_append, List.filterMap_append, List.filterMap_append, hn, List.nil_append]

theorem parse_eq {source : Text} {us : List Token} {stop : Token} (ht : tokenize source = .ok (us ++ [stop]))
    (hus : ∀ t ∈ us, t.kind ≠ .eof) (hstop : stop.kind = .eof) :
    parse source = (readGrammar stop us).toExcept := by
  rw [parse_of_tokenize_ok ht, Cursor.ofTokens_append hus hstop]
  rfl

theorem forget_token_of_kind_eq {t t' : Token} (h : t.kind = t'.kind) :
    Relocation.forget.token t = Relocation.forget.token t' := by
  rw [Relocation.token, Relocation.token, h]
  rfl

theorem forget_tokens_of_kinds_eq {ts ts' : List Token} (h : ts.map (·.kind) = ts'.map (·.kind)) :
    ts.map Relocation.forget.token = ts'.map Relocation.forget.token := by
  induction ts generalizing ts' with
  | nil => rw [List.map_eq_nil_iff.1 h.symm]
  | cons t ts ih =>
      obtain ⟨t', us, rfl, ht, hts⟩ := List.map_eq_cons_iff.1 h.symm
      rw [List.map_cons, List.map_cons, forget_token_of_kind_eq ht.symm, ih hts.symm]

/-- Nothing but the kinds of the tokens decides what is read. -/
theorem sameOutcome_of_kinds_eq {source source' : Text} {ts ts' : List Token} (h : tokenize source = .ok ts)
    (h' : tokenize source' = .ok ts') (hk : ts.map (·.kind) = ts'.map (·.kind)) :
    SameOutcome (parse source) (parse source') := by
  obtain ⟨us, stop, rfl, hus, hstop, -⟩ := tokenize_closed h
  obtain ⟨us', stop', rfl, hus', hstop', -⟩ := tokenize_closed h'
  rw [List.map_append, List.map_append] at hk
  obtain ⟨hk, -⟩ := List.append_inj' hk rfl
  have hread := Relocation.forget.readGrammar_outcome stop us
  rw [forget_tokens_of_kinds_eq hk, forget_token_of_kind_eq (hstop.trans hstop'.symm),
    Relocation.readGrammar_outcome] at hread
  rw [parse_eq h hus hstop, parse_eq h' hus' hstop']
  cases hg : readGrammar stop us with
  | ok g rest =>
      rw [hg] at hread
      cases hg' : readGrammar stop' us' with
      | error e rest' => rw [hg'] at hread; cases hread
      | ok g' rest' =>
          rw [hg'] at hread
          obtain ⟨he, -⟩ := Outcome.ok.inj hread
          exact (g.bare_map _).symm.trans ((congrArg Grammar.bare he.symm).trans (g'.bare_map _))
  | error e rest =>
      rw [hg] at hread
      cases hg' : readGrammar stop' us' with
      | ok g' rest' => rw [hg'] at hread; cases hread
      | error e' rest' =>
          rw [hg'] at hread
          exact (Outcome.error.inj hread).1.symm

/-- Blanks and comments may be put in anywhere between two lexemes. The tokens
stay the same, and so does what is read from them. -/
theorem parse_insert_trivia {a b : Text} {ts : List Token} {s : Span} {xs : List Lexeme}
    (h : tokenize (a ++ b) = .ok ts) (hs : s ∈ ts.flatMap Token.spans) (ha : s.start = a.byteLength)
    (hx : ∀ x ∈ xs, x.IsTrivia) :
    ∃ ts', tokenize (a ++ (spell xs ++ b)) = .ok ts' ∧ ts'.map (·.kind) = ts.map (·.kind) ∧
      SameOutcome (parse (a ++ b)) (parse (a ++ (spell xs ++ b))) := by
  obtain ⟨as, bs, hc, rfl, rfl⟩ := exists_chained_of_boundary h hs ha
  have hl : Legible (as ++ (xs ++ bs)) [] := legible_insert hc hx
  have hsource : spell (as ++ (xs ++ bs)) = spell as ++ (spell xs ++ spell bs) := by simp
  obtain ⟨ts', h', -⟩ := exists_tokenize_spell hl
  have hk : ts'.map (·.kind) = ts.map (·.kind) := by
    rw [kinds_of_tokenize hl h', filterMap_kind?_insert as bs hx,
      kinds_of_tokenize hc.legible (by rwa [spell_append])]
  rw [hsource] at h'
  exact ⟨ts', h', hk, sameOutcome_of_kinds_eq h h' hk.symm⟩

theorem parse_insert_trivia_of_open_bracket :
    let ts := Token.place .start [] [.identifier ['r'], .mark .equals, .mark (.opening .grouped),
      .identifier ['a'], .mark .semicolon]
    tokenize "r=(a;".toList = .ok ts ∧ ⟨3, 4⟩ ∈ ts.flatMap Token.spans ∧
      ∃ ts', tokenize "r=((*;*)\na;".toList = .ok ts' ∧ ts'.map (·.kind) = ts.map (·.kind) ∧
        SameOutcome (parse "r=(a;".toList) (parse "r=((*;*)\na;".toList) := by
  intro ts
  have h : tokenize ("r=(".toList ++ "a;".toList) = .ok ts := by decide +kernel
  have hs : (⟨3, 4⟩ : Span) ∈ ts.flatMap Token.spans := by decide
  have hx : ∀ x ∈ [Lexeme.comment [';'], .gap ['\n']], x.IsTrivia := by
    simp only [List.forall_mem_cons, List.not_mem_nil, false_imp_iff, implies_true, and_true]
    exact ⟨⟨show ¬ _ <:+: _ by decide, rfl⟩, ⟨by decide, by simp [isGap]⟩, rfl⟩
  exact ⟨h, hs, parse_insert_trivia h hs rfl hx⟩

end Ebnf
