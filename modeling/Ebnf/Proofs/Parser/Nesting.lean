import Ebnf.Proofs.Parser.Progress

namespace Ebnf

/-- The open brackets behind a token, innermost first, each with the place where
it was opened. A bracket can only close the innermost one, and one of its own
kind. -/
def Token.nest (unclosed : List (Bracket × Location)) (t : Token) : Option (List (Bracket × Location)) :=
  match t.kind, unclosed with
  | .mark (.opening b), os => some ((b, t.location) :: os)
  | .mark (.closing b), (b', _) :: os => if b = b' then some os else none
  | .mark (.closing _), [] => none
  | _, os => some os

def Token.unclosed? (ts : List Token) : Option (List (Bracket × Location)) := ts.foldlM nest []

def Frame.bracket? : Frame → Option (Bracket × Location)
  | .inside b _ opened => some (b, opened)
  | _ => none

def Focus.brackets : Focus → List (Bracket × Location)
  | .opened b _ location => [(b, location)]
  | _ => []

namespace Reading

def brackets (s : Reading) : List (Bracket × Location) := s.focus.brackets ++ s.frames.filterMap Frame.bracket?

variable {goal : Goal} {t : Token}

theorem brackets_reduce (k : Nat) (e : Expr Span) (fs : List Frame) :
    (reduce k e fs).2.filterMap Frame.bracket? = fs.filterMap Frame.bracket? := by
  induction fs generalizing e with
  | nil => rfl
  | cons f fs ih =>
      cases f with
      | joined l c =>
          rw [reduce]
          split
          · rw [ih, List.filterMap_cons_none rfl]
          · rfl
      | counted n span => rw [reduce, ih, List.filterMap_cons_none rfl]
      | inside b span opened => rfl

theorem reduce_zero_frames (e : Expr Span) (fs : List Frame) :
    (∃ e', reduce 0 e fs = (e', [])) ∨
      ∃ e' b span opened fs', reduce 0 e fs = (e', .inside b span opened :: fs') := by
  induction fs generalizing e with
  | nil => exact .inl ⟨e, rfl⟩
  | cons f fs ih =>
      cases f with
      | joined l c =>
          rw [reduce, if_pos (Nat.zero_le _)]
          exact ih _
      | counted n span => exact ih _
      | inside b span opened => exact .inr ⟨e, b, span, opened, fs, rfl⟩

theorem brackets_of_room {s : Reading} {fs : List Frame} (hs : s.room? = some fs) :
    fs.filterMap Frame.bracket? = s.brackets := by
  obtain ⟨focus, gs⟩ := s
  cases focus with
  | count | complete => cases hs
  | operand | opened | excepted => cases hs; rfl

theorem brackets_of_pending {s : Reading} {p : Expr Span × List Frame} (hs : s.pending? = some p) :
    s.brackets = p.2.filterMap Frame.bracket? := by
  obtain ⟨focus, fs⟩ := s
  cases focus with
  | operand | count | opened => cases hs
  | excepted | complete => cases hs; rfl

theorem brackets_of_reduce {s : Reading} {p : Expr Span × List Frame} {k : Nat} {e : Expr Span} {fs : List Frame}
    (hs : s.pending? = some p) (hr : reduce k p.1 p.2 = (e, fs)) : s.brackets = fs.filterMap Frame.bracket? := by
  rw [brackets_of_pending hs, ← brackets_reduce k p.1 p.2, hr]

/-- What is unclosed is what the frames hold. -/
theorem nest_read? {s s' : Reading} (h : s.read? goal t = some s') : t.nest s.brackets = some s'.brackets := by
  cases step_of_read? h with
  | @atom _ fs a hs ht =>
      rw [← brackets_of_room hs]
      cases a <;> simp [Token.nest, ht, Atom.kind, brackets, Focus.brackets]
  | integer hs ht | opening hs ht =>
      rw [← brackets_of_room hs]
      simp [Token.nest, ht, brackets, Focus.brackets]
  | star ht | empty ht => simp [Token.nest, ht, brackets, Focus.brackets, List.filterMap_cons, Frame.bracket?]
  | minus hs ht hr | join hs ht _ hr | close hs ht hr =>
      rw [brackets_of_reduce hs hr]
      simp [Token.nest, ht, brackets, Focus.brackets, List.filterMap_cons, Frame.bracket?]

theorem settleOperand_eq (e : Expr Span) (fs : List Frame) (t : Token) :
    settleOperand .body e fs t =
      if t.kind = .mark (.operator .counting) then .error (.unexpectedAt t Expected.continuations)
      else match fs.filterMap Frame.bracket? with
        | (b, opened) :: _ => .error (.mismatchedAt t b opened)
        | [] => .ok (reduce 0 e fs).1 := by
  have hgoal : ¬ (Goal.body = .operand ∧ fs = []) := by simp [Goal.body]
  rw [settleOperand, if_neg hgoal, ← brackets_reduce 0 e fs]
  rcases reduce_zero_frames e fs with ⟨e', hr⟩ | ⟨e', b, span, opened, fs', hr⟩
  · rw [hr]
    rfl
  · rw [hr]
    rfl

theorem settleOperand_cases (e : Expr Span) (fs : List Frame) (t : Token) :
    (∃ e', settleOperand .body e fs t = .ok e' ∧ fs.filterMap Frame.bracket? = []) ∨
      (∃ expected, settleOperand .body e fs t = .error (.unexpectedAt t expected)) ∨
      ∃ b opened os, settleOperand .body e fs t = .error (.mismatchedAt t b opened) ∧
        fs.filterMap Frame.bracket? = (b, opened) :: os := by
  rw [settleOperand_eq]
  by_cases hk : t.kind = .mark (.operator .counting)
  · exact .inr (.inl ⟨_, if_pos hk⟩)
  · rw [if_neg hk]
    cases fs.filterMap Frame.bracket? with
    | nil => exact .inl ⟨_, rfl, rfl⟩
    | cons o os => exact .inr (.inr ⟨o.1, o.2, os, rfl, rfl⟩)

/-- The three ways to settle a reading, with the brackets that each leaves open. -/
theorem settle_cases (s : Reading) (t : Token) :
    (∃ e, s.settle .body t = .ok e ∧ s.brackets = []) ∨
      (∃ expected, s.settle .body t = .error (.unexpectedAt t expected)) ∨
      ∃ b opened os, s.settle .body t = .error (.mismatchedAt t b opened) ∧
        s.brackets = (b, opened) :: os := by
  obtain ⟨focus, fs⟩ := s
  cases focus with
  | operand | count => exact .inr (.inl ⟨_, rfl⟩)
  | opened b span opened => exact .inr (.inr ⟨b, opened, _, rfl, rfl⟩)
  | excepted left minus => exact settleOperand_cases (left.exceptNothing minus) fs t
  | complete e => exact settleOperand_cases e fs t

theorem brackets_of_settle_ok {s : Reading} {e : Expr Span} (h : s.settle .body t = .ok e) : s.brackets = [] := by
  rcases s.settle_cases t with ⟨-, -, hs⟩ | ⟨expected, he⟩ | ⟨b, opened, os, he, -⟩
  · exact hs
  · cases he.symm.trans h
  · cases he.symm.trans h

theorem brackets_of_settle_error {s : Reading} {location opened : Location} {b : Bracket} {found : Kind}
    (h : s.settle .body t = .error (.mismatchedBracket location b opened found)) :
    ∃ os, s.brackets = (b, opened) :: os := by
  rcases s.settle_cases t with ⟨e, he, -⟩ | ⟨expected, he⟩ | ⟨b', opened', os, he, hs⟩
  · cases he.symm.trans h
  · cases he.symm.trans h
  · cases he.symm.trans h
    exact ⟨os, hs⟩

end Reading

namespace Phase

def brackets : Phase → List (Bracket × Location)
  | .within _ s => s.brackets
  | _ => []

variable {p q : Phase} {t : Token} {us : List Token}

theorem nest_next? (h : p.next? t = some q) : t.nest p.brackets = some q.brackets := by
  obtain ⟨x, hx, rfl⟩ := Option.map_eq_some_iff.1 h
  cases step_of_read? hx with
  | name ht | equals ht | absent ht => simp [Token.nest, ht, brackets]
  | first hs | next hs => exact Reading.nest_read? hs
  | ended hs ht => simp [Token.nest, ht, brackets, Reading.brackets_of_settle_ok hs]

theorem nest_reach? (h : p.reach? us = some q) : us.foldlM Token.nest p.brackets = some q.brackets := by
  induction us generalizing p with
  | nil =>
      obtain rfl := Option.some.inj h
      rfl
  | cons u us ih =>
      rw [reach?_cons] at h
      obtain ⟨p', hp, h⟩ := Option.bind_eq_some_iff.1 h
      rw [List.foldlM_cons, nest_next? hp]
      exact ih h

theorem brackets_of_refusal {location opened : Location} {b : Bracket} {found : Kind}
    (h : p.refusal t = .mismatchedBracket location b opened found) : ∃ os, p.brackets = (b, opened) :: os := by
  cases p with
  | name | equals => cases h
  | body hd =>
      simp only [refusal] at h
      split at h <;> cases h
  | within hd s =>
      simp only [refusal] at h
      split at h
      · next e he =>
          rw [h] at he
          exact Reading.brackets_of_settle_error he
      · cases h

end Phase

end Ebnf
