import Ebnf.Proofs.Document.Failure
import Ebnf.Proofs.Parser.Due
import Ebnf.Proofs.Parser.FirstImpossible

namespace Ebnf

/-- The tokens that are meant by what an error names. -/
def Expected.Describes : Expected → Kind → Prop
  | .identifier, k => ∃ name, k = .identifier name
  | .terminal, k => ∃ text quote, k = .terminal text quote
  | .special, k => ∃ text, k = .special text
  | .integer, k => ∃ value, k = .integer value
  | .mark m, k => k = .mark m
  | .countMark, k => k = .mark (.operator .counting)

theorem Expected.startsExpression_of_describes {x : Expected} {k : Kind} (hx : x ∈ Expected.starts)
    (h : x.Describes k) : k.startsExpression = true := by
  simp only [starts, Bracket.all, List.map_cons, List.map_nil, Function.comp_apply, List.cons_append,
    List.nil_append, List.mem_cons, List.not_mem_nil, or_false] at hx
  rcases hx with rfl | rfl | rfl | rfl | rfl | rfl | rfl
  · obtain ⟨name, rfl⟩ := h
    rfl
  · obtain ⟨text, quote, rfl⟩ := h
    rfl
  · obtain ⟨text, rfl⟩ := h
    rfl
  · obtain ⟨value, rfl⟩ := h
    rfl
  all_goals
    obtain rfl := h
    rfl

theorem Expected.Describes.ne_eof {x : Expected} {k : Kind} (h : x.Describes k) : k ≠ .eof := by
  rintro rfl
  cases x <;> simp [Describes] at h

namespace Phase

variable {p q : Phase} {t u : Token} {us : List Token} {h : Head}

/-- Behind tokens that can be completed another one can be, too, just if it is
read. -/
theorem exists_accepted_iff (hq : Phase.name.reach? us = some q) (hu : u.kind ≠ .eof) :
    (∃ vs, Accepted (us ++ u :: vs)) ↔ ∃ q', q.next? u = some q' := by
  constructor
  · rintro ⟨vs, g, hg⟩
    cases hn : q.read? u with
    | some x => exact ⟨_, by rw [next?, hn]; rfl⟩
    | none =>
        rw [Cursor.grammar_error_of_refuses hq ⟨hn, fun hk => absurd hk hu⟩] at hg
        cases hg
  · rintro ⟨q', hq'⟩
    obtain ⟨vs, -, hvs⟩ := q'.exists_completion
    have hreach : Phase.name.reach? (us ++ u :: vs) = some .name := by
      rw [reach?_append, hq, Option.bind_some, reach?_cons, hq']
      exact hvs
    have hacc : Accepted (us ++ u :: vs ++ [Kind.eof.token]) := .of_reach? (by simp) hreach rfl
    rw [List.append_assoc, List.cons_append] at hacc
    exact ⟨vs ++ [Kind.eof.token], hacc⟩

theorem exists_next?_body (h : Head) (hu : u.kind.startsExpression = true) :
    ∃ q, (Phase.body h).next? u = some q := by
  obtain ⟨s, hs⟩ := readOperand?_of_starts [] hu
  have hne : u.kind ≠ .mark .semicolon := by
    intro hk
    rw [hk] at hu
    cases hu
  exact ⟨.within h s, by simp [next?, read?, hne, hs]⟩

theorem next?_within {s s' : Reading} (hs : s.read? .body u = some s') :
    (Phase.within h s).next? u = some (.within h s') := by
  rw [next?, read?_within hs]
  rfl

end Phase

namespace Reading

variable {s : Reading} {p : Expr Span × List Frame} {t : Token}

theorem exists_read?_joining {c : Connective} (hp : s.pending? = some p)
    (ht : t.kind = .mark (.operator (.joining c))) : ∃ s', s.read? .body t = some s' := by
  rw [read?_of_pending hp (by rw [ht]; rfl), readBehind?, ht]
  simp only [join?, Goal.body_admits, Bool.not_true, Bool.and_false, Bool.false_eq_true, if_false]
  split
  · exact ⟨_, rfl⟩
  · exact ⟨_, rfl⟩

end Reading

namespace Phase

variable {q : Phase} {t u : Token} {h : Head}

theorem exists_next?_semicolon_iff {s : Reading} {p : Expr Span × List Frame} (hp : s.pending? = some p)
    (hu : u.kind = .mark .semicolon) : (∃ q, (Phase.within h s).next? u = some q) ↔ s.brackets = [] := by
  rw [Reading.brackets_of_pending hp, ← Reading.brackets_reduce 0 p.1 p.2]
  rcases Reading.reduce_zero_frames p.1 p.2 with ⟨e, hr⟩ | ⟨e, b, span, opened, fs, hr⟩
  · rw [hr]
    exact iff_of_true ⟨_, next?_semicolon hp hr hu⟩ rfl
  · have hread : s.read? .body u = none := by
      rw [Reading.read?_of_pending hp (by rw [hu]; rfl), Reading.readBehind?, hu]
    have hsettle : s.settle .body u = .error (.mismatchedAt u b opened) := by
      rw [Reading.settle_of_pending u hp]
      simp [Reading.settleOperand, Goal.body, hu, hr]
    rw [hr]
    refine iff_of_false ?_ (by simp [Frame.bracket?])
    rintro ⟨q, hq⟩
    rw [next?, read?, hread, hsettle] at hq
    cases hq

theorem expected_of_pending {s : Reading} {p : Expr Span × List Frame} {location : Location} {found : Kind}
    {expected : List Expected} (hp : s.pending? = some p)
    (he : (Phase.within h s).refusal t = .unexpected location found expected) : expected = Expected.continuations := by
  have hdue : (Phase.within h s).due = .continuation := by
    obtain ⟨focus, fs⟩ := s
    cases focus with
    | operand | count | opened => cases hp
    | excepted | complete => rfl
  rw [refusal_eq, hdue, Due.refusal] at he
  split at he
  · cases he
    rfl
  · generalize (Phase.within h s).brackets = os at he
    cases os <;> cases he

theorem exists_next?_of_pending {s : Reading} {p : Expr Span × List Frame} {x : Expected} (hp : s.pending? = some p)
    (hx : x ∈ Expected.continuations) (hu : x.Describes u.kind) :
    (∃ q, (Phase.within h s).next? u = some q) ↔ ¬ (x = .mark .semicolon ∧ s.brackets ≠ []) := by
  have hjoin (c : Connective) (hk : u.kind = .mark (.operator (.joining c))) :
      ∃ q, (Phase.within h s).next? u = some q := by
    obtain ⟨s', hs'⟩ := Reading.exists_read?_joining hp hk
    exact ⟨_, next?_within hs'⟩
  simp only [Expected.continuations, List.mem_cons, List.not_mem_nil, or_false] at hx
  rcases hx with rfl | rfl | rfl | rfl
  · exact iff_of_true (hjoin _ hu) (by simp)
  · exact iff_of_true (hjoin _ hu) (by simp)
  · exact iff_of_true (hjoin _ hu) (by simp)
  · rw [exists_next?_semicolon_iff hp hu]
    simp

/-- What an error names can be read in place of the token at fault. Only a
semicolon cannot while a bracket is open. -/
theorem exists_next?_iff {location : Location} {found : Kind} {expected : List Expected}
    (he : q.refusal t = .unexpected location found expected) {x : Expected} (hx : x ∈ expected)
    (hu : x.Describes u.kind) :
    (∃ q', q.next? u = some q') ↔ ¬ (x = .mark .semicolon ∧ q.brackets ≠ []) := by
  cases q with
  | name | equals => cases he
  | body h =>
      refine iff_of_true ?_ (by simp [brackets])
      rw [refusal] at he
      split at he
      · cases he
      · cases he
        rcases List.mem_append.1 hx with hx | hx
        · exact exists_next?_body h (Expected.startsExpression_of_describes hx hu)
        · obtain rfl := List.mem_singleton.1 hx
          have hk : u.kind = .mark .semicolon := hu
          exact ⟨.name, by simp [next?, read?, hk]⟩
  | within h s =>
      obtain ⟨focus, fs⟩ := s
      cases focus with
      | operand =>
          cases he
          have hstart := Expected.startsExpression_of_describes hx hu
          obtain ⟨s', hs'⟩ := readOperand?_of_starts fs hstart
          refine iff_of_true ⟨_, next?_within hs'⟩ ?_
          rintro ⟨rfl, -⟩
          simp [Expected.starts] at hx
      | count value span =>
          cases he
          obtain rfl := List.mem_singleton.1 hx
          have hread : Reading.read? .body ⟨.count value span, fs⟩ u =
              some ⟨.operand, .counted value span :: fs⟩ := if_pos hu
          exact iff_of_true ⟨_, next?_within hread⟩ (by simp)
      | opened => cases he
      | excepted left minus =>
          obtain rfl := expected_of_pending rfl he
          exact exists_next?_of_pending rfl hx hu
      | complete e =>
          obtain rfl := expected_of_pending rfl he
          exact exists_next?_of_pending rfl hx hu

end Phase

/-- Where a source is refused because of an unexpected token, the tokens that the
error names can stand there instead. The exception is a semicolon inside a
bracket: it is named with what may follow a whole operand, but the bracket has
to be closed first. -/
theorem parse_unexpected_iff {source : Text} {location : Location} {found : Kind} {expected : List Expected}
    (h : parse source = .error (.unexpected location found expected)) :
    ∃ us t, StopsAt source (.unexpected location found expected) us t ∧
      ∀ x ∈ expected, ∀ u : Token, x.Describes u.kind → ((∃ vs, Accepted (us ++ u :: vs)) ↔
        ¬ (x = .mark .semicolon ∧ ∃ o os, Token.unclosed? us = some (o :: os))) := by
  rcases parse_error_cases h with ⟨l, -, he⟩ | ⟨us, t, hs, ⟨-, -, he⟩ | ⟨q, hq, -, he⟩⟩
  · cases he
  · cases he
  · refine ⟨us, t, hs, fun x hx u hu => ?_⟩
    have hunclosed : Token.unclosed? us = some q.brackets := Phase.nest_reach? hq
    rw [Phase.exists_accepted_iff hq hu.ne_eof, Phase.exists_next?_iff he.symm hx hu, hunclosed]
    cases q.brackets <;> simp

theorem parse_unexpected_iff_of_comma :
    let source : Text := "r=[(*x*)\na,=];".toList
    let e : ParseError := .unexpected ⟨11, 2, 3⟩ (.mark .equals) Expected.starts
    parse source = .error e ∧ ∃ us t, StopsAt source e us t ∧
      ∀ x ∈ Expected.starts, ∀ u : Token, x.Describes u.kind → ((∃ vs, Accepted (us ++ u :: vs)) ↔
        ¬ (x = .mark .semicolon ∧ ∃ o os, Token.unclosed? us = some (o :: os))) := by
  intro source e
  have h : parse source = .error e := by decide +kernel
  exact ⟨h, parse_unexpected_iff h⟩

/-- Behind the star of `r=(a*);` a semicolon is named, but nothing can be
completed that begins with `r=(a;`. -/
theorem semicolon_expected_not_accepted :
    let source : Text := "r=(a*);".toList
    let e : ParseError := .unexpected ⟨4, 1, 5⟩ (.mark (.operator .counting)) Expected.continuations
    parse source = .error e ∧ .mark .semicolon ∈ Expected.continuations ∧
      ∃ us t, StopsAt source e us t ∧ ∀ vs, ¬ Accepted (us ++ (Kind.mark .semicolon).token :: vs) := by
  intro source e
  let token (k : Kind) (n : Nat) : Token := ⟨k, ⟨n, n + 1⟩, ⟨n, 1, n + 1⟩, []⟩
  let us : List Token := [token (.identifier ['r']) 0, token (.mark .equals) 1,
    token (.mark (.opening .grouped)) 2, token (.identifier ['a']) 3]
  refine ⟨by decide +kernel, by decide, us, token (.mark (.operator .counting)) 4, ?_, ?_⟩
  · let behind := [token (.mark (.closing .grouped)) 5, token (.mark .semicolon) 6, ⟨.eof, ⟨7, 7⟩, ⟨7, 1, 8⟩, []⟩]
    exact ⟨behind, _, by decide +kernel, rfl, rfl⟩
  · rintro vs ⟨g, hg⟩
    have hq : Phase.name.reach? us = some _ := rfl
    rw [Cursor.grammar_error_of_refuses hq ⟨rfl, by simp [Kind.token]⟩] at hg
    cases hg

end Ebnf
