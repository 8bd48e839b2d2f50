import Ebnf.Proofs.Parser.Failure
import Ebnf.Proofs.Parser.Nesting
import Mathlib.Data.List.Induction

namespace Ebnf

/-- What has to come next. Behind a whole operand, or a minus, anything that goes
on with the expression or ends it may come. -/
inductive Due
  | name
  | equals
  | body
  | operand
  | countMark
  | content (b : Bracket) (opened : Location)
  | continuation
deriving DecidableEq, Repr

def Due.behind (first : Bool) (t : Token) : Due :=
  match t.kind with
  | .mark .semicolon => .name
  | .identifier _ => if first then .equals else .continuation
  | .mark .equals => .body
  | .integer _ => .countMark
  | .mark (.opening b) => .content b t.location
  | .mark (.operator (.joining .exception)) => .continuation
  | .mark (.operator _) => .operand
  | .terminal _ _ | .special _ | .mark (.closing _) | .eof => .continuation

/-- The last token says what is due. Only a semicolon, or nothing, stands in
front of the first token of a rule. -/
def Token.due (us : List Token) : Due :=
  match us.getLast? with
  | none => .name
  | some t => .behind (us.dropLast.getLast?.all (·.kind = .mark .semicolon)) t

/-- What is missing in front of a token that ends neither the expression nor the
rule: the closing of the innermost bracket, or else the semicolon. -/
def ParseError.unfinishedAt (t : Token) : List (Bracket × Location) → ParseError
  | (b, opened) :: _ => .mismatchedAt t b opened
  | [] => .malformedAt t .semicolon

def Due.refusal (unclosed : List (Bracket × Location)) (t : Token) : Due → ParseError
  | .name => .malformedAt t .name
  | .equals => .malformedAt t .equals
  | .body =>
      if t.kind = .eof then .malformedAt t .semicolon
      else .unexpectedAt t (Expected.starts ++ [.mark .semicolon])
  | .operand => .unexpectedAt t Expected.starts
  | .countMark => .unexpectedAt t [.countMark]
  | .content b opened => .mismatchedAt t b opened
  | .continuation =>
      if t.kind = .mark (.operator .counting) then .unexpectedAt t Expected.continuations
      else .unfinishedAt t unclosed

def Focus.due : Focus → Due
  | .operand => .operand
  | .count _ _ => .countMark
  | .opened b _ location => .content b location
  | .excepted _ _ | .complete _ => .continuation

theorem Due.behind_eq_name {first : Bool} {t : Token} : behind first t = .name ↔ t.kind = .mark .semicolon := by
  rw [behind]
  split
  all_goals try split
  all_goals simp_all

theorem Token.due_eq_name {us : List Token} :
    due us = .name ↔ us.getLast?.all (·.kind = .mark .semicolon) = true := by
  rw [due]
  cases us.getLast? with
  | none => simp
  | some t => simp [Due.behind_eq_name]

theorem Token.due_append_singleton (us : List Token) (t : Token) :
    due (us ++ [t]) = .behind (decide (due us = .name)) t := by
  rw [due, List.getLast?_concat, List.dropLast_concat]
  simp only [due_eq_name, Bool.decide_eq_true]

namespace Reading

variable {goal : Goal} {t : Token} {s s' : Reading}

theorem due_read? (h : s.read? goal t = some s') : s'.focus.due = .behind false t := by
  cases step_of_read? h with
  | @atom _ _ a _ ht => cases a <;> simp [Focus.due, Due.behind, ht, Atom.kind]
  | @join _ _ c _ _ _ ht hc =>
      cases c with
      | exception => exact absurd rfl hc
      | alternation | concatenation => simp [Focus.due, Due.behind, ht]
  | integer _ ht | opening _ ht | star ht | empty ht | minus _ ht | close _ ht => simp [Focus.due, Due.behind, ht]

theorem settleOperand_refusal (e : Expr Span) (fs : List Frame) (t : Token) :
    (match settleOperand .body e fs t with
      | .error e => e
      | .ok _ => .malformedAt t .semicolon) = Due.continuation.refusal (fs.filterMap Frame.bracket?) t := by
  rw [settleOperand_eq, Due.refusal]
  by_cases hk : t.kind = .mark (.operator .counting)
  · rw [if_pos hk, if_pos hk]
  · rw [if_neg hk, if_neg hk]
    cases fs.filterMap Frame.bracket? with
    | nil => rfl
    | cons o os => rfl

end Reading

theorem Focus.due_ne_name (f : Focus) : f.due ≠ .name := by
  cases f <;> simp [due]

namespace Phase

variable {p q : Phase} {t : Token} {us : List Token}

def due : Phase → Due
  | .name => .name
  | .equals _ => .equals
  | .body _ => .body
  | .within _ s => s.focus.due

theorem refusal_eq (p : Phase) (t : Token) : p.refusal t = p.due.refusal p.brackets t := by
  cases p with
  | name | equals | body => rfl
  | within h s =>
      obtain ⟨focus, fs⟩ := s
      cases focus with
      | operand | count | opened => rfl
      | excepted left minus => exact Reading.settleOperand_refusal (left.exceptNothing minus) fs t
      | complete e => exact Reading.settleOperand_refusal e fs t

/-- One token settles what is due behind it. -/
theorem due_next? (h : p.next? t = some q) : q.due = .behind (decide (p.due = .name)) t := by
  obtain ⟨x, hx, rfl⟩ := Option.map_eq_some_iff.1 h
  cases step_of_read? hx with
  | name ht | equals ht | absent ht | ended _ ht => simp [due, Due.behind, ht]
  | first hs => exact Reading.due_read? hs
  | @next _ s _ hs =>
      have hinside : decide (s.focus.due = .name) = false := decide_eq_false s.focus.due_ne_name
      exact (Reading.due_read? hs).trans (congrArg (Due.behind · t) hinside.symm)

theorem due_reach? (h : Phase.name.reach? us = some q) : q.due = Token.due us := by
  induction us using List.reverseRecOn generalizing q with
  | nil =>
      obtain rfl := Option.some.inj h
      rfl
  | append_singleton us t ih =>
      rw [reach?_append] at h
      obtain ⟨p, hp, h⟩ := Option.bind_eq_some_iff.1 h
      rw [reach?_cons] at h
      obtain ⟨q', hq, h⟩ := Option.bind_eq_some_iff.1 h
      obtain rfl := Option.some.inj h
      rw [Token.due_append_singleton, ← ih hp, due_next? hq]

end Phase

/-- The error of a grammar that cannot be read is settled by the last token in
front of the one at fault, the brackets that are open there, and that one
itself. -/
theorem grammar_error_eq_due {ts : List Token} {stop : Token} (hts : ∀ t ∈ ts, t.kind ≠ .eof)
    (hstop : stop.kind = .eof) {e : ParseError} {c : Cursor}
    (h : (Cursor.ofTokens (ts ++ [stop])).grammar = (.error e, c)) :
    ∃ us t vs, ts ++ [stop] = us ++ t :: vs ∧ c.remaining = t :: vs ∧
      (us ≠ [] ∨ t.kind ≠ .eof →
        ∃ unclosed, Token.unclosed? us = some unclosed ∧ e = (Token.due us).refusal unclosed t) := by
  obtain ⟨us, t, vs, hs, hc, hfault⟩ := Cursor.grammar_stops hts hstop h
  refine ⟨us, t, vs, hs, hc, fun hne => ?_⟩
  rcases hfault with ⟨hus, ht, -⟩ | ⟨q, hq, -, rfl⟩
  · rcases hne with hne | hne
    · exact absurd hus hne
    · exact absurd ht hne
  · exact ⟨q.brackets, Phase.nest_reach? hq, by rw [Phase.refusal_eq, Phase.due_reach? hq]⟩

theorem grammar_error_eq_due_of_star :
    let token (k : Kind) (n : Nat) : Token := ⟨k, ⟨n, n + 1⟩, ⟨n, 1, n + 1⟩, []⟩
    let front : List Token := [token (.identifier ['r']) 0, token (.mark .equals) 1,
      token (.mark (.opening .grouped)) 2, token (.identifier ['a']) 3,
      token (.mark (.operator (.joining .exception))) 4]
    let ts := front ++ [token (.mark (.operator .counting)) 5, token (.mark .semicolon) 6]
    Token.due front = .continuation ∧ Token.unclosed? front = some [(.grouped, ⟨2, 1, 3⟩)] ∧
      ∃ c, (Cursor.ofTokens (ts ++ [token .eof 7])).grammar =
        (.error (.unexpected ⟨5, 1, 6⟩ (.mark (.operator .counting)) Expected.continuations), c) ∧
      ∃ us t vs, ts ++ [token .eof 7] = us ++ t :: vs ∧ c.remaining = t :: vs ∧
        (us ≠ [] ∨ t.kind ≠ .eof → ∃ unclosed, Token.unclosed? us = some unclosed ∧
          .unexpected ⟨5, 1, 6⟩ (.mark (.operator .counting)) Expected.continuations =
            (Token.due us).refusal unclosed t) := by
  intro token front ts
  have hts : ∀ t ∈ ts, t.kind ≠ .eof := by decide
  refine ⟨rfl, rfl, _, rfl, ?_⟩
  exact grammar_error_eq_due hts rfl rfl

end Ebnf
