import Ebnf.Parser.Cursor
import Ebnf.Proofs.Text.Bytes
import Mathlib.Data.List.DropRight
import Mathlib.Order.MinMax

namespace Ebnf

variable {α β : Type}

theorem Expr.place_map (f : α → β) (e : Expr α) : (e.map f).place = f e.place := by
  cases e <;> rfl

namespace Location

/-- Where a location of a text comes to stand behind `front`. Columns change on
the first line alone. -/
def behind (front : Text) (l : Location) : Location where
  offset := l.offset + front.byteLength
  line := l.line + front.count '\n'
  column := if l.line = 1 then l.column + (front.rtakeWhile (· ≠ '\n')).length else l.column

theorem behind_advance (front : Text) {l : Location} (h : 1 ≤ l.line) (c : Char) :
    (l.advance c).behind front = (l.behind front).advance c := by
  by_cases hc : c = '\n'
  · have hline : ¬ l.line = 0 := Nat.ne_of_gt h
    simp [advance, behind, hc, hline, Nat.add_right_comm]
  · by_cases hl : l.line = 1 <;> simp [advance, behind, hc, hl, Nat.add_right_comm]

theorem one_le_line_advance {l : Location} (h : 1 ≤ l.line) (c : Char) : 1 ≤ (l.advance c).line := by
  rw [advance]
  split
  · exact Nat.le_add_left 1 l.line
  · exact h

theorem one_le_line_after {l : Location} (h : 1 ≤ l.line) (t : Text) : 1 ≤ (l.after t).line := by
  induction t generalizing l with
  | nil => exact h
  | cons c t ih => exact ih (one_le_line_advance h c)

theorem behind_after (front : Text) {l : Location} (h : 1 ≤ l.line) (t : Text) :
    (l.after t).behind front = (l.behind front).after t := by
  induction t generalizing l with
  | nil => rfl
  | cons c t ih =>
      have hnext : ((l.advance c).after t).behind front = ((l.advance c).behind front).after t :=
        ih (one_le_line_advance h c)
      rw [behind_advance front h] at hnext
      exact hnext

theorem behind_start (front : Text) : start.behind front = start.after front := by
  induction front using List.reverseRecOn with
  | nil => rfl
  | append_singleton t c ih =>
      rw [after_append, ← ih]
      by_cases hc : c = '\n' <;> simp [after, advance, behind, start, hc, Nat.add_assoc]

theorem after_front (front t : Text) : start.after (front ++ t) = (start.after t).behind front := by
  rw [after_append, ← behind_start, behind_after front (Nat.le_refl 1)]

end Location

/-- Another place for every byte and for every location. Bytes stay in order,
so hulls of spans stay hulls. -/
structure Relocation where
  byte : Nat → Nat
  location : Location → Location
  monotone : Monotone byte

namespace Relocation

def forget : Relocation := ⟨fun _ => 0, fun _ => default, monotone_const⟩

def behind (front : Text) : Relocation where
  byte := (· + front.byteLength)
  location := Location.behind front
  monotone := fun _ _ h => Nat.add_le_add_right h _

def stay : Relocation := ⟨id, id, monotone_id⟩

variable (m : Relocation)

def span (a : Span) : Span := ⟨m.byte a.start, m.byte a.stop⟩

def token (t : Token) : Token := ⟨t.kind, m.span t.span, m.location t.location, []⟩

theorem kind_token (t : Token) : (m.token t).kind = t.kind := by
  cases t
  rfl

def frame : Frame → Frame
  | .joined left c => .joined (left.map m.span) c
  | .counted count span => .counted count (m.span span)
  | .inside b span opened => .inside b (m.span span) (m.location opened)

def focus : Focus → Focus
  | .operand => .operand
  | .count value span => .count value (m.span span)
  | .opened b span location => .opened b (m.span span) (m.location location)
  | .excepted left minus => .excepted (left.map m.span) (m.span minus)
  | .complete e => .complete (e.map m.span)

def reading (s : Reading) : Reading := ⟨m.focus s.focus, s.frames.map m.frame⟩

def pending (p : Expr Span × List Frame) : Expr Span × List Frame := (p.1.map m.span, p.2.map m.frame)

def head (h : Head) : Head := ⟨h.name, m.span h.span⟩

def phase : Phase → Phase
  | .name => .name
  | .equals h => .equals (m.head h)
  | .body h => .body (m.head h)
  | .within h s => .within (m.head h) (m.reading s)

def error : ParseError → ParseError
  | .lexical e => .lexical ⟨e.fault, m.location e.location⟩
  | .noRules => .noRules
  | .malformedRule location expected found => .malformedRule (m.location location) expected found
  | .mismatchedBracket location b opened found =>
      .mismatchedBracket (m.location location) b (m.location opened) found
  | .unexpected location found expected => .unexpected (m.location location) found expected

def result (f : α → β) (r : Except ParseError α) : Except ParseError β := (r.map f).mapError m.error

def outcome (f : α → β) : Outcome α → Outcome β
  | .ok a rest => .ok (f a) (rest.map m.token)
  | .error e rest => .error (m.error e) (rest.map m.token)

theorem span_hull (a b : Span) : m.span (a.hull b) = (m.span a).hull (m.span b) := by
  simp [span, Span.hull, m.monotone.map_min, m.monotone.map_max]

theorem map_join (l : Expr Span) (c : Connective) (r : Expr Span) :
    (l.join c r).map m.span = (l.map m.span).join c (r.map m.span) := by
  simp [Expr.join, Expr.map, Expr.place_map, span]

theorem map_exceptNothing (l : Expr Span) (minus : Span) :
    (l.exceptNothing minus).map m.span = (l.map m.span).exceptNothing (m.span minus) := by
  simp [Expr.exceptNothing, Expr.map, Expr.place_map, span]

theorem reduce_pending (k : Nat) (e : Expr Span) (fs : List Frame) :
    Reading.reduce k (e.map m.span) (fs.map m.frame) = m.pending (Reading.reduce k e fs) := by
  induction fs generalizing e with
  | nil => rfl
  | cons f fs ih =>
      cases f with
      | joined l c =>
          simp only [List.map_cons, frame, Reading.reduce]
          split
          · rw [← map_join, ih]
          · rfl
      | counted n a =>
          have hcount : (Expr.counted n (m.span a) (e.map m.span) ((m.span a).hull (e.map m.span).place)) =
              (Expr.counted n a e (a.hull e.place)).map m.span := by
            rw [Expr.place_map, ← span_hull]
            rfl
          simp only [List.map_cons, frame, Reading.reduce]
          rw [hcount, ih]
      | inside b a opened => rfl

theorem readOperand?_reading (fs : List Frame) (t : Token) :
    Reading.readOperand? (fs.map m.frame) (m.token t) = (Reading.readOperand? fs t).map m.reading := by
  obtain ⟨kind, _, _, _⟩ := t
  cases kind with
  | mark k => cases k <;> rfl
  | _ => rfl

theorem join?_reading (goal : Goal) (c : Connective) (minus : Span) (p : Expr Span × List Frame) :
    Reading.join? goal c (m.span minus) (m.pending p) = (Reading.join? goal c minus p).map m.reading := by
  obtain ⟨e, fs⟩ := p
  simp only [Reading.join?, pending, List.isEmpty_map]
  split
  · rfl
  · split <;> rfl

theorem close?_reading (b : Bracket) (closer : Span) (p : Expr Span × List Frame) :
    Reading.close? b (m.span closer) (m.pending p) = (Reading.close? b closer p).map m.reading := by
  obtain ⟨e, fs⟩ := p
  cases fs with
  | nil => rfl
  | cons f fs =>
      cases f with
      | joined | counted => rfl
      | inside b' a opened =>
          simp only [Reading.close?, pending, List.map_cons, frame, ← span_hull]
          split <;> rfl

theorem readBehind?_reading (goal : Goal) (e : Expr Span) (fs : List Frame) (t : Token) :
    Reading.readBehind? goal (e.map m.span) (fs.map m.frame) (m.token t) =
      (Reading.readBehind? goal e fs t).map m.reading := by
  obtain ⟨kind, _, _, _⟩ := t
  cases kind with
  | mark k =>
      cases k with
      | operator o =>
          cases o with
          | joining c =>
              simp only [Reading.readBehind?, token, reduce_pending]
              exact m.join?_reading goal c _ _
          | counting => rfl
      | closing b =>
          simp only [Reading.readBehind?, token, reduce_pending]
          exact m.close?_reading b _ _
      | _ => rfl
  | _ => rfl

/-- What is read next does not depend on where the tokens stand. -/
theorem read?_reading (goal : Goal) (s : Reading) (t : Token) :
    (m.reading s).read? goal (m.token t) = (s.read? goal t).map m.reading := by
  obtain ⟨focus, fs⟩ := s
  cases focus with
  | operand => exact m.readOperand?_reading fs t
  | count value a =>
      simp only [Reading.read?, reading, Relocation.focus, kind_token]
      split <;> rfl
  | opened b a location =>
      simp only [Reading.read?, reading, Relocation.focus, kind_token]
      split
      · simp only [token, ← span_hull]
        rfl
      · exact m.readOperand?_reading (.inside b a location :: fs) t
  | excepted left minus =>
      simp only [Reading.read?, reading, Relocation.focus, kind_token]
      split
      · exact m.readOperand?_reading (.joined left .exception :: fs) t
      · rw [← map_exceptNothing]
        exact m.readBehind?_reading goal _ fs t
  | complete e => exact m.readBehind?_reading goal e fs t

theorem settleOperand_result (goal : Goal) (e : Expr Span) (fs : List Frame) (t : Token) :
    Reading.settleOperand goal (e.map m.span) (fs.map m.frame) (m.token t) =
      m.result (Expr.map m.span) (Reading.settleOperand goal e fs t) := by
  simp only [Reading.settleOperand, List.map_eq_nil_iff, kind_token, reduce_pending]
  split
  · rfl
  split
  · rfl
  generalize Reading.reduce 0 e fs = p
  obtain ⟨e', fs'⟩ := p
  cases fs' with
  | nil => rfl
  | cons f fs' => cases f <;> rfl

theorem settle_result (goal : Goal) (s : Reading) (t : Token) :
    (m.reading s).settle goal (m.token t) = m.result (Expr.map m.span) (s.settle goal t) := by
  obtain ⟨focus, fs⟩ := s
  cases focus with
  | operand | count | opened => rfl
  | excepted left minus =>
      simp only [Reading.settle, reading, Relocation.focus]
      rw [← map_exceptNothing]
      exact m.settleOperand_result goal _ fs t
  | complete e => exact m.settleOperand_result goal e fs t

theorem map_rule (h : Head) (body : Option (Expr Span)) (semicolon : Span) :
    (h.rule body semicolon).map m.span =
      (m.head h).rule (body.map (Expr.map m.span)) (m.span semicolon) := by
  simp [Head.rule, Rule.map, head, span_hull]

theorem read?_phase (p : Phase) (t : Token) :
    (m.phase p).read? (m.token t) = (p.read? t).map (Sum.map m.phase (Rule.map m.span)) := by
  cases p with
  | name =>
      simp only [Phase.read?, phase, kind_token]
      split <;> rfl
  | equals h =>
      simp only [Phase.read?, phase, kind_token]
      split <;> rfl
  | body h =>
      simp only [Phase.read?, phase, kind_token]
      split
      · simp [map_rule, token]
      · have hr := m.readOperand?_reading [] t
        rw [List.map_nil] at hr
        rw [hr]
        cases Reading.readOperand? [] t <;> rfl
  | within h s =>
      simp only [Phase.read?, phase, read?_reading, settle_result, kind_token]
      cases s.read? .body t with
      | some s' => rfl
      | none =>
          cases s.settle .body t with
          | error e => rfl
          | ok e =>
              simp only [Option.map_none, result, Except.map, Except.mapError]
              split
              · simp [map_rule, token]
              · rfl

theorem refusal_phase (p : Phase) (t : Token) :
    (m.phase p).refusal (m.token t) = m.error (p.refusal t) := by
  cases p with
  | name | equals => rfl
  | body h =>
      simp only [Phase.refusal, phase, kind_token]
      split <;> rfl
  | within h s =>
      simp only [Phase.refusal, phase, settle_result]
      cases s.settle .body t <;> rfl

theorem readRules_outcome (stop : Token) (p : Phase) (ts : List Token) :
    readRules (m.token stop) (m.phase p) (ts.map m.token) =
      m.outcome (List.map (Rule.map m.span)) (readRules stop p ts) := by
  induction ts generalizing p with
  | nil =>
      cases p with
      | name => rfl
      | _ => exact congrArg (Outcome.error · []) (m.refusal_phase _ stop)
  | cons t ts ih =>
      simp only [List.map_cons, readRules, read?_phase]
      cases p.read? t with
      | none => exact congrArg (Outcome.error · _) (m.refusal_phase p t)
      | some x =>
          cases x with
          | inl q => exact ih q
          | inr r =>
              have hname := ih .name
              simp only [phase] at hname
              simp only [Option.map_some, Sum.map_inr, hname]
              cases readRules stop .name ts <;> rfl

theorem ofRules?_map (rs : List (Rule Span)) :
    Grammar.ofRules? (rs.map (Rule.map m.span)) = (Grammar.ofRules? rs).map (Grammar.map m.span) := by
  cases rs with
  | nil => rfl
  | cons r rs =>
      have hlast : ((r :: rs).map (Rule.map m.span)).getLast (by simp) =
          ((r :: rs).getLast (by simp)).map m.span := List.getLast_map _
      have hplace := congrArg Rule.place hlast
      simp only [List.map_cons] at hplace
      simp only [List.map_cons, Grammar.ofRules?, Option.map_some, Grammar.map, span_hull, hplace]
      rfl

theorem readGrammar_outcome (stop : Token) (ts : List Token) :
    readGrammar (m.token stop) (ts.map m.token) = m.outcome (Grammar.map m.span) (readGrammar stop ts) := by
  have h := m.readRules_outcome stop .name ts
  simp only [phase] at h
  simp only [readGrammar, h]
  cases readRules stop .name ts with
  | error e rest => rfl
  | ok rs rest =>
      simp only [outcome, ofRules?_map]
      cases Grammar.ofRules? rs <;> rfl

theorem toExcept_outcome (f : α → β) (o : Outcome α) :
    (m.outcome f o).toExcept = m.result f o.toExcept := by
  cases o <;> rfl

theorem stay_expr (e : Expr Span) : e.map stay.span = e := by
  induction e <;> simp_all [Expr.map, span, stay]

theorem stay_rule (r : Rule Span) : r.map stay.span = r := by
  have hbody : r.body.map (Expr.map stay.span) = r.body := by
    rw [funext stay_expr]
    exact Option.map_id'
  simp only [Rule.map, hbody]
  rfl

theorem stay_error (e : ParseError) : stay.error e = e := by
  cases e <;> rfl

end Relocation

end Ebnf
