import Ebnf.Proofs.Parser.FirstImpossible

namespace Ebnf

/-- What a reader does with a token: it reads it and goes on, it is done with
it, or it leaves it unread. -/
inductive Move (σ α : Type)
  | on (s : σ)
  | done (a : α)
  | leave (r : Except ParseError α)

namespace Move

variable {σ τ α : Type} {f : σ → τ} {m : Move σ α}

def map (f : σ → τ) : Move σ α → Move τ α
  | .on s => .on (f s)
  | .done a => .done a
  | .leave r => .leave r

theorem map_eq_done {a : α} : m.map f = .done a ↔ m = .done a := by
  cases m <;> simp [map]

theorem map_eq_leave {r : Except ParseError α} : m.map f = .leave r ↔ m = .leave r := by
  cases m <;> simp [map]

end Move

/-- A reader that sees one token at a time. It leaves the end unread, an error
blames the token that was left, and from a state on it needs the `least` tokens
of this state, or more, to have a value. -/
structure Reader (σ α : Type) where
  start : σ
  move : σ → Token → Move σ α
  least : σ → Nat
  leave_eof : ∀ {s t}, t.kind = .eof → ∃ r, move s t = .leave r
  blames : ∀ {s t e location}, move s t = .leave (.error e) → e.location? = some location → e.Blames t
  least_on : ∀ {s t s'}, move s t = .on s' → least s ≤ least s' + 1
  least_done : ∀ {s t a}, move s t = .done a → least s ≤ 1
  least_leave : ∀ {s t a}, move s t = .leave (.ok a) → least s = 0

namespace Reader

variable {σ α : Type} {R : Reader σ α} {ts : List Token} {s : σ} {i j : Nat}

/-- Reading by index, with the index behind the last token read. Every access is
checked: outside of the list there is no result. -/
def visit? (R : Reader σ α) (ts : List Token) (s : σ) (i : Nat) : Option (Except ParseError α × Nat) :=
  match _h : ts[i]? with
  | none => none
  | some t => match R.move s t with
      | .on s' => R.visit? ts s' (i + 1)
      | .done a => some (.ok a, i + 1)
      | .leave r => some (r, i)
termination_by ts.length - i
decreasing_by
  have := (List.getElem?_eq_some_iff.1 _h).1
  omega

theorem visit?_of_getElem? {t : Token} (h : ts[i]? = some t) : R.visit? ts s i = match R.move s t with
    | .on s' => R.visit? ts s' (i + 1)
    | .done a => some (.ok a, i + 1)
    | .leave r => some (r, i) := by
  rw [visit?]
  split
  · next h' => rw [h] at h'; cases h'
  · next t' h' =>
      rw [h] at h'
      cases h'
      rfl

structure Visited (R : Reader σ α) (ts : List Token) (s : σ) (i : Nat) (r : Except ParseError α) (j : Nat) :
    Prop where
  forward : i ≤ j
  blamed : ∀ e location, r = .error e → e.location? = some location → ∃ t, ts[j]? = some t ∧ e.Blames t
  advance : ∀ a, r = .ok a → i + R.least s ≤ j

theorem visited {r : Except ParseError α} (h : R.visit? ts s i = some (r, j)) : R.Visited ts s i r j := by
  fun_induction R.visit? ts s i with
  | case1 => cases h
  | case2 s i t ht s' hm ih =>
      obtain ⟨hforward, hblamed, hadvance⟩ := ih h
      have hleast := R.least_on hm
      exact ⟨by omega, hblamed, fun a ha => by have := hadvance a ha; omega⟩
  | case3 s i t ht a hm =>
      cases h
      have hleast := R.least_done hm
      exact ⟨by omega, by simp, fun _ _ => by omega⟩
  | case4 s i t ht r hm =>
      cases h
      refine ⟨Nat.le_refl _, ?_, ?_⟩
      · rintro e location rfl hl
        exact ⟨t, ht, R.blames hm hl⟩
      · rintro a rfl
        exact Nat.le_of_eq (congrArg (j + ·) (R.least_leave hm))

/-- Reading a list by its tokens, with the end token `stop` behind them, moves
as the reader does. -/
structure Models (R : Reader σ α) (read : Token → σ → List Token → Outcome α) : Prop where
  nil : ∀ stop s, stop.kind = .eof → ∃ r, R.move s stop = .leave r ∧ read stop s [] = .ofExcept [] r
  cons : ∀ stop s t ts, t.kind ≠ .eof → read stop s (t :: ts) = match R.move s t with
    | .on s' => read stop s' ts
    | .done a => .ok a ts
    | .leave r => .ofExcept (t :: ts) r

end Reader

theorem Outcome.toExcept_ofExcept {α : Type} (ts : List Token) (r : Except ParseError α) :
    (Outcome.ofExcept ts r).toExcept = r := by
  cases r <;> rfl

theorem Outcome.rest_ofExcept {α : Type} (ts : List Token) (r : Except ParseError α) :
    (Outcome.ofExcept ts r).rest = ts := by
  cases r <;> rfl

/-- Reading by index never leaves a list with an end token, and what it gives
depends on nothing behind this token. -/
theorem Reader.Models.visit?_eq {σ α : Type} {R : Reader σ α} {read : Token → σ → List Token → Outcome α}
    (h : R.Models read) {stop : Token} (hstop : stop.kind = .eof) {us : List Token}
    (hus : ∀ u ∈ us, u.kind ≠ .eof) (front : List Token) (s : σ) :
    ∃ vs, vs ++ (read stop s us).rest = us ∧ ∀ behind,
      R.visit? (front ++ us ++ stop :: behind) s front.length =
        some ((read stop s us).toExcept, front.length + vs.length) := by
  -- What has been read goes to the front, whose length is the index.
  induction us generalizing front s with
  | nil =>
      obtain ⟨r, hm, hr⟩ := h.nil stop s hstop
      refine ⟨[], by rw [hr, Outcome.rest_ofExcept]; rfl, fun behind => ?_⟩
      rw [visit?_of_getElem? (t := stop) (by simp), hm, hr, Outcome.toExcept_ofExcept]
      rfl
  | cons u us ih =>
      obtain ⟨hu, hus⟩ := List.forall_mem_cons.1 hus
      have hget (behind : List Token) : (front ++ u :: us ++ stop :: behind)[front.length]? = some u := by simp
      have hread := h.cons stop s u us hu
      cases hm : R.move s u with
      | on s' =>
          rw [hm] at hread
          obtain ⟨vs, hvs, hvisit⟩ := ih hus (front ++ [u]) s'
          refine ⟨u :: vs, by rw [hread, List.cons_append, hvs], fun behind => ?_⟩
          have := hvisit behind
          rw [visit?_of_getElem? (hget behind), hm, hread]
          simp only [List.append_assoc, List.cons_append, List.nil_append, List.length_append, List.length_cons,
            List.length_nil] at this ⊢
          rw [this, Nat.add_assoc, Nat.add_comm vs.length]
      | done a =>
          rw [hm] at hread
          refine ⟨[u], by rw [hread]; rfl, fun behind => ?_⟩
          rw [visit?_of_getElem? (hget behind), hm, hread]
          rfl
      | leave r =>
          rw [hm] at hread
          refine ⟨[], by rw [hread, Outcome.rest_ofExcept]; rfl, fun behind => ?_⟩
          rw [visit?_of_getElem? (hget behind), hm, hread, Outcome.toExcept_ofExcept]
          rfl

namespace Reading

variable {goal : Goal} {s : Reading} {t : Token}

def move (goal : Goal) (s : Reading) (t : Token) : Move Reading (Expr Span) :=
  match s.read? goal t with
  | some s' => .on s'
  | none => .leave (s.settle goal t)

theorem move_eq_leave {r : Except ParseError (Expr Span)} :
    s.move goal t = .leave r ↔ s.read? goal t = none ∧ s.settle goal t = r := by
  rw [move]
  cases s.read? goal t <;> simp

theorem move_ne_done {a : Expr Span} : s.move goal t ≠ .done a := by
  rw [move]
  cases s.read? goal t <;> simp

theorem move_eof (s : Reading) (ht : t.kind = .eof) : s.move goal t = .leave (s.settle goal t) :=
  move_eq_leave.2 ⟨s.read?_eof ht, rfl⟩

def moveOperand : Option Reading → Token → Move (Option Reading) (Expr Span)
  | some s, t => (s.move .operand t).map some
  | none, t => match t.kind with
      | .integer _ => .leave (start.settle .operand t)
      | _ => (start.move .operand t).map some

theorem moveOperand_eq_leave {s : Option Reading} {r : Except ParseError (Expr Span)}
    (h : moveOperand s t = .leave r) : (s.getD start).settle .operand t = r := by
  cases s with
  | some s => exact (move_eq_leave.1 (Move.map_eq_leave.1 h)).2
  | none =>
      rw [moveOperand] at h
      split at h
      · exact Move.leave.inj h
      · exact (move_eq_leave.1 (Move.map_eq_leave.1 h)).2

theorem moveOperand_ne_done {s : Option Reading} {a : Expr Span} : moveOperand s t ≠ .done a := by
  intro h
  cases s with
  | some s => exact move_ne_done (Move.map_eq_done.1 h)
  | none =>
      rw [moveOperand] at h
      split at h
      · cases h
      · exact move_ne_done (Move.map_eq_done.1 h)

theorem moveOperand_eof (s : Option Reading) (ht : t.kind = .eof) :
    moveOperand s t = .leave ((s.getD start).settle .operand t) := by
  cases s with
  | some s => exact Move.map_eq_leave.2 (s.move_eof ht)
  | none =>
      rw [moveOperand, ht]
      exact Move.map_eq_leave.2 (start.move_eof ht)

def least (s : Reading) : Nat := if s.pending?.isSome then 0 else 1

theorem least_le (s : Reading) : s.least ≤ 1 := by
  rw [least]
  split <;> omega

theorem least_eq_zero {e : Expr Span} (h : s.settle goal t = .ok e) : s.least = 0 := by
  obtain ⟨p, hp⟩ := pending_of_settle h
  rw [least, hp]
  rfl

end Reading

namespace Reader

def expression (goal : Goal) : Reader Reading (Expr Span) where
  start := .start
  move := Reading.move goal
  least := Reading.least
  leave_eof ht := ⟨_, Reading.move_eof _ ht⟩
  blames h _ := Reading.settle_blames (Reading.move_eq_leave.1 h).2
  least_on _ := Nat.le_trans (Reading.least_le _) (Nat.le_add_left _ _)
  least_done h := (Reading.move_ne_done h).elim
  least_leave h := Reading.least_eq_zero (Reading.move_eq_leave.1 h).2

theorem expression_models (goal : Goal) : (expression goal).Models (readExpr goal) where
  nil _ _ hstop := ⟨_, Reading.move_eof _ hstop, rfl⟩
  cons _ s t _ _ := by
    simp only [readExpr, expression, Reading.move]
    cases s.read? goal t <;> rfl

def operand : Reader (Option Reading) (Expr Span) where
  start := none
  move := Reading.moveOperand
  least s := (s.getD .start).least
  leave_eof ht := ⟨_, Reading.moveOperand_eof _ ht⟩
  blames h _ := Reading.settle_blames (Reading.moveOperand_eq_leave h)
  least_on _ := Nat.le_trans (Reading.least_le _) (Nat.le_add_left _ _)
  least_done h := (Reading.moveOperand_ne_done h).elim
  least_leave h := Reading.least_eq_zero (Reading.moveOperand_eq_leave h)

theorem operand_models : operand.Models fun stop s ts => match s with
    | none => readAtom stop ts
    | some s => readExpr .operand stop s ts where
  nil _ s hstop := by
    refine ⟨_, Reading.moveOperand_eof s hstop, ?_⟩
    cases s <;> rfl
  cons _ s t _ _ := by
    cases s with
    | some s =>
        simp only [operand, readExpr, Reading.moveOperand, Reading.move]
        cases s.read? .operand t <;> rfl
    | none =>
        have hread : Reading.start.read? .operand t = Reading.readOperand? [] t := rfl
        simp only [operand, readAtom, Reading.moveOperand, Reading.move, hread]
        cases t.kind <;> cases Reading.readOperand? [] t <;> rfl

end Reader

namespace Phase

variable {p : Phase} {t : Token}

def move (p : Phase) (t : Token) : Move Phase (Rule Span) :=
  match p.read? t with
  | some (.inl q) => .on q
  | some (.inr r) => .done r
  | none => .leave (.error (p.refusal t))

def least : Phase → Nat
  | .name => 3
  | .equals _ => 2
  | .body _ | .within _ _ => 1

theorem least_on {q : Phase} (h : p.read? t = some (.inl q)) : p.least ≤ q.least + 1 := by
  cases p with
  | body | within => exact Nat.le_add_left _ _
  | name | equals =>
      rw [read?] at h
      split at h
      · cases h
        exact Nat.le_refl _
      · cases h

theorem least_done {r : Rule Span} (h : p.read? t = some (.inr r)) : p.least = 1 := by
  cases p with
  | body | within => rfl
  | name | equals =>
      rw [read?] at h
      split at h <;> cases h

theorem move_eq_on {q : Phase} : p.move t = .on q ↔ p.read? t = some (.inl q) := by
  rw [move]
  split <;> simp [*]

theorem move_eq_done {r : Rule Span} : p.move t = .done r ↔ p.read? t = some (.inr r) := by
  rw [move]
  split <;> simp [*]

theorem move_eq_leave {r : Except ParseError (Rule Span)} (h : p.move t = .leave r) : r = .error (p.refusal t) := by
  rw [move] at h
  split at h
  · cases h
  · cases h
  · exact (Move.leave.inj h).symm

theorem move_eof (p : Phase) (ht : t.kind = .eof) : p.move t = .leave (.error (p.refusal t)) := by
  rw [move, p.read?_eof ht]

end Phase

namespace Reader

def rule : Reader Phase (Rule Span) where
  start := .name
  move := Phase.move
  least := Phase.least
  leave_eof ht := ⟨_, Phase.move_eof _ ht⟩
  blames {s t e location} h _ := by
    cases Phase.move_eq_leave h
    exact s.refusal_blames t
  least_on h := Phase.least_on (Phase.move_eq_on.1 h)
  least_done h := Nat.le_of_eq (Phase.least_done (Phase.move_eq_done.1 h))
  least_leave h := by cases Phase.move_eq_leave h

theorem rule_models : rule.Models readRule where
  nil _ _ hstop := ⟨_, Phase.move_eof _ hstop, rfl⟩
  cons _ p t _ _ := by
    simp only [readRule, rule, Phase.move]
    cases p.read? t with
    | none => rfl
    | some x => cases x <;> rfl

end Reader

def Grammar.conclude (rs : List (Rule Span)) : Except ParseError (Grammar Span) :=
  match Grammar.ofRules? rs with
  | some g => .ok g
  | none => .error .noRules

theorem Grammar.conclude_eq_error {rs : List (Rule Span)} {e : ParseError} (h : conclude rs = .error e) :
    e = .noRules := by
  rw [conclude] at h
  split at h <;> cases h
  rfl

namespace Phase

variable {rs : List (Rule Span)} {p : Phase} {t : Token}

def moveRules : List (Rule Span) × Phase → Token → Move (List (Rule Span) × Phase) (Grammar Span)
  | (rs, p), t =>
      if t.kind = .eof ∧ p = .name then .leave (Grammar.conclude rs)
      else match p.read? t with
        | some (.inl q) => .on (rs, q)
        | some (.inr r) => .on (rs ++ [r], .name)
        | none => .leave (.error (p.refusal t))

theorem moveRules_eq_on {x : List (Rule Span) × Phase} (h : moveRules (rs, p) t = .on x) :
    (∃ q, p.read? t = some (.inl q) ∧ x = (rs, q)) ∨ ∃ r, p.read? t = some (.inr r) ∧ x = (rs ++ [r], .name) := by
  rw [moveRules] at h
  split at h
  · cases h
  split at h
  · next q hq => exact .inl ⟨q, hq, (Move.on.inj h).symm⟩
  · next r hr => exact .inr ⟨r, hr, (Move.on.inj h).symm⟩
  · cases h

theorem moveRules_ne_done {g : Grammar Span} : moveRules (rs, p) t ≠ .done g := by
  intro h
  rw [moveRules] at h
  split at h
  · cases h
  split at h <;> cases h

theorem moveRules_eq_leave {r : Except ParseError (Grammar Span)} (h : moveRules (rs, p) t = .leave r) :
    r = Grammar.conclude rs ∨ r = .error (p.refusal t) := by
  rw [moveRules] at h
  split at h
  · exact .inl (Move.leave.inj h).symm
  split at h
  · cases h
  · cases h
  · exact .inr (Move.leave.inj h).symm

theorem moveRules_eof (rs : List (Rule Span)) (p : Phase) (ht : t.kind = .eof) :
    moveRules (rs, p) t = .leave (if p = .name then Grammar.conclude rs else .error (p.refusal t)) := by
  rw [moveRules, p.read?_eof ht]
  by_cases hp : p = .name <;> simp [ht, hp]

def leastRules : List (Rule Span) × Phase → Nat
  | ([], p) => p.least
  | (_ :: _, _) => 0

theorem leastRules_on {x y : List (Rule Span) × Phase} (h : moveRules x t = .on y) :
    leastRules x ≤ leastRules y + 1 := by
  obtain ⟨rs, p⟩ := x
  cases rs with
  | cons => exact Nat.zero_le _
  | nil =>
      rcases moveRules_eq_on h with ⟨q, hq, rfl⟩ | ⟨r, hr, rfl⟩
      · exact least_on hq
      · exact Nat.le_of_eq (least_done hr)

theorem leastRules_leave {x : List (Rule Span) × Phase} {g : Grammar Span} (h : moveRules x t = .leave (.ok g)) :
    leastRules x = 0 := by
  obtain ⟨rs, p⟩ := x
  cases rs with
  | cons => rfl
  | nil => rcases moveRules_eq_leave h with h | h <;> cases h

end Phase

def Outcome.conclude : Outcome (List (Rule Span)) → Outcome (Grammar Span)
  | .ok rs rest => .ofExcept rest (Grammar.conclude rs)
  | .error e rest => .error e rest

theorem readGrammar_eq (stop : Token) (ts : List Token) :
    readGrammar stop ts = ((readRules stop .name ts).map ([] ++ ·)).conclude := by
  rw [readGrammar]
  cases readRules stop .name ts with
  | error => rfl
  | ok rs rest =>
      simp only [Outcome.map, Outcome.conclude, List.nil_append, Grammar.conclude]
      cases Grammar.ofRules? rs <;> rfl

namespace Reader

def grammar : Reader (List (Rule Span) × Phase) (Grammar Span) where
  start := ([], .name)
  move := Phase.moveRules
  least := Phase.leastRules
  leave_eof ht := ⟨_, Phase.moveRules_eof _ _ ht⟩
  blames {s t e location} h hl := by
    rcases Phase.moveRules_eq_leave h with h | h
    · cases Grammar.conclude_eq_error h.symm
      cases hl
    · cases h
      exact s.2.refusal_blames t
  least_on := Phase.leastRules_on
  least_done h := (Phase.moveRules_ne_done h).elim
  least_leave := Phase.leastRules_leave

theorem grammar_models :
    grammar.Models fun stop s ts => ((readRules stop s.2 ts).map (s.1 ++ ·)).conclude where
  nil _ s hstop := by
    refine ⟨_, Phase.moveRules_eof s.1 s.2 hstop, ?_⟩
    cases s.2 with
    | name => simp [readRules, Outcome.map, Outcome.conclude]
    | equals | body | within => rfl
  cons _ s t _ ht := by
    simp only [readRules, grammar, Phase.moveRules, ht, false_and, if_false]
    cases s.2.read? t with
    | none => rfl
    | some x =>
        cases x with
        | inl q => rfl
        | inr r => simp [Outcome.map_map]

end Reader

end Ebnf
