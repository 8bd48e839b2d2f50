import Ebnf.Proofs.Document.Transparency
import Ebnf.Proofs.Parser.FirstImpossible
import Ebnf.Proofs.Token.Junction
import Ebnf.Proofs.Token.Roundtrip

namespace Ebnf

open Lexeme

theorem Phase.refusal_ne_noRules (p : Phase) (t : Token) : p.refusal t ≠ .noRules := by
  intro h
  have hb := p.refusal_blames t
  rw [h] at hb
  cases hb.1

theorem readRules_ne_noRules {stop : Token} {p : Phase} {ts rest : List Token} {e : ParseError}
    (h : readRules stop p ts = .error e rest) : e ≠ .noRules := by
  induction ts generalizing p e rest with
  | nil => cases p with
      | name => cases h
      | _ =>
          rw [← (Outcome.error.inj h).1]
          exact Phase.refusal_ne_noRules _ stop
  | cons t ts ih =>
      rw [readRules] at h
      split at h
      · exact ih h
      · cases ho : readRules stop .name ts with
        | ok rs rest' => rw [ho] at h; cases h
        | error e' rest' =>
            rw [ho] at h
            rw [← (Outcome.error.inj h).1]
            exact ih ho
      · rw [← (Outcome.error.inj h).1]
        exact p.refusal_ne_noRules t

/-- The rules of a text. That there are none is no error yet. -/
def rulesOf (source : Text) : Except ParseError (List (Rule Span)) :=
  match split source with
  | (ls, none) => (readRules (Token.endAt (Location.start.after source)) .name (placed .start ls)).toExcept
  | (ls, some f) => .error (.lexical ⟨f, Location.start.after (spell ls)⟩)

def Grammar.ofRules (rs : List (Rule Span)) : Except ParseError (Grammar Span) :=
  (Grammar.ofRules? rs).elim (.error .noRules) .ok

theorem Grammar.ofRules_eq_ok {rs : List (Rule Span)} {g : Grammar Span} (h : ofRules rs = .ok g) :
    g.rules = rs ∧ rs ≠ [] := by
  cases rs with
  | nil => cases h
  | cons r rs =>
      cases h
      exact ⟨rfl, List.cons_ne_nil r rs⟩

theorem Grammar.ofRules_eq_error {rs : List (Rule Span)} {e : ParseError} (h : ofRules rs = .error e) :
    rs = [] ∧ e = .noRules := by
  cases rs with
  | nil => exact ⟨rfl, (Except.error.inj h).symm⟩
  | cons r rs => cases h

variable {front source : Text} {g : Grammar Span}

theorem toExcept_readGrammar (stop : Token) (ts : List Token) :
    (readGrammar stop ts).toExcept = (readRules stop .name ts).toExcept.bind Grammar.ofRules := by
  rw [readGrammar]
  cases readRules stop .name ts with
  | error e rest => rfl
  | ok rs rest => cases rs <;> rfl

theorem parse_eq_bind (source : Text) : parse source = (rulesOf source).bind Grammar.ofRules := by
  rw [rulesOf]
  split
  · next ls hs =>
      obtain ⟨us, stop, hp, hstop, -, hus⟩ := Token.place_closed .start [] ls
      have ht : tokenize source = .ok (us ++ [stop]) := by simp [tokenize, hs, hp]
      have hm := Token.map_stay_place .start [] ls
      rw [hp, List.map_append, (chained_of_split hs).2] at hm
      obtain ⟨hts, hend⟩ := List.append_inj' hm rfl
      have hread := Relocation.stay.readRules_outcome stop .name us
      have hrules : List.map (Rule.map Relocation.stay.span) = id := by
        rw [funext Relocation.stay_rule]
        exact funext List.map_id'
      rw [hts, List.singleton_inj.1 hend, hrules] at hread
      rw [parse_eq ht hus hstop, toExcept_readGrammar]
      have hsame := congrArg Outcome.toExcept hread
      rw [Relocation.toExcept_outcome] at hsame
      refine congrArg (Except.bind · Grammar.ofRules) (.symm (hsame.trans ?_))
      cases readRules stop .name us with
      | ok rs rest => rfl
      | error e rest => exact congrArg Except.error (Relocation.stay_error e)
  · next ls f hs =>
      have ht : tokenize source = .error ⟨f, Location.start.after (spell ls)⟩ := by
        simp only [tokenize, hs]
        rfl
      rw [parse_of_tokenize_error ht]
      rfl

theorem rulesOf_ne_noRules {e : ParseError} (h : rulesOf source = .error e) : e ≠ .noRules := by
  rw [rulesOf] at h
  split at h
  · cases hr : readRules (Token.endAt (Location.start.after source)) .name (placed .start _) with
    | ok rs rest => rw [hr] at h; cases h
    | error e' rest =>
        rw [hr] at h
        rw [← Except.error.inj h]
        exact readRules_ne_noRules hr
  · rw [← Except.error.inj h]
    simp

theorem rulesOf_of_parse (h : parse source = .ok g) : rulesOf source = .ok g.rules := by
  rw [parse_eq_bind] at h
  cases hr : rulesOf source with
  | error e => rw [hr] at h; cases h
  | ok rs =>
      rw [hr] at h
      rw [(Grammar.ofRules_eq_ok h).1]

theorem rulesOf_of_split {ls : List Lexeme} (h : split source = (ls, none)) :
    rulesOf source = (readRules (Token.endAt (Location.start.after source)) .name (placed .start ls)).toExcept := by
  rw [rulesOf, h]

theorem rulesOf_of_fault {ls : List Lexeme} {f : Fault} (h : split source = (ls, some f)) :
    rulesOf source = .error (.lexical ⟨f, Location.start.after (spell ls)⟩) := by
  rw [rulesOf, h]

theorem readRules_behind (front source : Text) (ls : List Lexeme) :
    readRules (Token.endAt (Location.start.after (front ++ source))) .name
        (placed (Location.start.after front) ls) =
      (Relocation.behind front).outcome (List.map (Rule.map (Relocation.behind front).span))
        (readRules (Token.endAt (Location.start.after source)) .name (placed .start ls)) := by
  have hstop : Token.endAt ((Location.start.after source).behind front) =
      (Relocation.behind front).token (Token.endAt (Location.start.after source)) := rfl
  rw [Location.after_front, hstop, ← Location.behind_start front, ← placed_behind front (Nat.le_refl 1)]
  exact (Relocation.behind front).readRules_outcome _ .name _

theorem rulesOf_append (h : parse front = .ok g) (source : Text) : rulesOf (front ++ source) =
    (Relocation.behind front).result (g.rules ++ ·.map (Rule.map (Relocation.behind front).span))
      (rulesOf source) := by
  obtain ⟨d, hd, rfl⟩ := exists_of_map_eq_ok h
  obtain ⟨ps, trail, hc, hp⟩ := Document.exists_chained_of_ofSource hd
  have hl := Passage.legible_allLexemes ps hp.trail_trivia source
  obtain ⟨ms, hms, hspell, hplaced⟩ := exists_split_append hc hl
  have hfront : split front = (Passage.allLexemes ps trail, none) := by
    have hs := split_spell hc
    rw [hp.source_eq]
    simpa [split] using hs
  have hrules := rulesOf_of_parse h
  rw [rulesOf_of_split hfront] at hrules
  rw [← hp.source_eq] at hms hspell
  cases hs : split source with
  | mk ls f =>
      rw [hs] at hms hspell hplaced
      cases f with
      | some f =>
          rw [rulesOf_of_fault hs, rulesOf_of_fault hms, hspell, Location.after_front]
          rfl
      | none =>
          cases hr : readRules (Token.endAt (Location.start.after front)) .name
              (placed .start (Passage.allLexemes ps trail)) with
          | error e rest => rw [hr] at hrules; cases hrules
          | ok rs rest =>
              rw [hr] at hrules
              obtain rfl : rs = d.grammar.rules := Except.ok.inj hrules
              rw [rulesOf_of_split hs, rulesOf_of_split hms, hplaced, placed_append, ← hp.source_eq,
                readRules_append hr, readRules_behind]
              cases readRules (Token.endAt (Location.start.after source)) .name (placed .start ls) <;> rfl

/-- Grammars can be put one behind the other. The second one is read as it is
alone, and so is what is wrong with it, only further on. -/
theorem parse_append (h : parse front = .ok g) (source : Text) :
    (∀ g', parse source = .ok g' → ∃ g'', parse (front ++ source) = .ok g'' ∧
      g''.rules = g.rules ++ g'.rules.map (Rule.map (Relocation.behind front).span)) ∧
    (parse source = .error .noRules → ∃ g', parse (front ++ source) = .ok g' ∧ g'.rules = g.rules) ∧
    ∀ e, parse source = .error e → e ≠ .noRules →
      parse (front ++ source) = .error ((Relocation.behind front).error e) := by
  have hne : g.rules ≠ [] := by
    have hall := h
    rw [parse_eq_bind, rulesOf_of_parse h] at hall
    exact (Grammar.ofRules_eq_ok hall).2
  rw [parse_eq_bind source, parse_eq_bind (front ++ source), rulesOf_append h source]
  cases hr : rulesOf source with
  | error e =>
      refine ⟨fun g' hg => (by cases hg), fun he => ?_, fun e' he _ => ?_⟩
      · exact absurd (Except.error.inj he) (rulesOf_ne_noRules hr)
      · rw [← Except.error.inj he]
        rfl
  | ok rs =>
      have happend : g.rules ++ rs.map (Rule.map (Relocation.behind front).span) ≠ [] := by simp [hne]
      obtain ⟨g'', hg, hrules⟩ := Grammar.ofRules?_of_ne_nil happend
      have hall : Grammar.ofRules (g.rules ++ rs.map (Rule.map (Relocation.behind front).span)) = .ok g'' := by
        rw [Grammar.ofRules, hg]
        rfl
      refine ⟨fun g' hg' => ⟨g'', hall, ?_⟩, fun he => ⟨g'', hall, ?_⟩, fun e he hn => ?_⟩
      · rw [hrules, (Grammar.ofRules_eq_ok hg').1]
      · rw [hrules, (Grammar.ofRules_eq_error he).1]
        simp
      · exact absurd (Grammar.ofRules_eq_error he).2 hn

theorem parse_append_of_open_bracket :
    let front : Text := "a=;\n(*é*) ".toList
    let source : Text := " b=[c\n;".toList
    (∃ g, parse front = .ok g) ∧
      parse source = .error (.mismatchedBracket ⟨6, 2, 1⟩ .optional ⟨3, 1, 4⟩ (.mark .semicolon)) ∧
      parse (front ++ source) =
        .error (.mismatchedBracket ⟨17, 3, 1⟩ .optional ⟨14, 2, 10⟩ (.mark .semicolon)) := by
  intro front source
  have hfront : (parse front).map (·.rules.length) = .ok 1 := by decide +kernel
  obtain ⟨g, hg, -⟩ := exists_of_map_eq_ok hfront
  have hsource : parse source = .error (.mismatchedBracket ⟨6, 2, 1⟩ .optional ⟨3, 1, 4⟩ (.mark .semicolon)) := by
    decide +kernel
  exact ⟨⟨g, hg⟩, hsource, (parse_append hg source).2.2 _ hsource (by simp)⟩

end Ebnf
