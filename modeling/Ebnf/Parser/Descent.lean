import Ebnf.Parser.Cursor

namespace Ebnf

def Outcome.Leaves {α : Type} (n : Nat) : Outcome α → Prop
  | .ok _ rest => rest.length ≤ n
  | .error _ _ => True

theorem Outcome.Leaves.mono {α : Type} {o : Outcome α} {m n : Nat} (ho : o.Leaves m) (h : m ≤ n) : o.Leaves n := by
  cases o with
  | ok a rest => exact Nat.le_trans ho h
  | error => trivial

/-- Reading an expression by recursion. If there is one, at most `n` tokens are
left behind it. -/
abbrev Descent (n : Nat) := { o : Outcome (Expr Span) // o.Leaves n }

namespace Descent

variable {m n : Nat}

def ok (e : Expr Span) (rest : List Token) (h : rest.length ≤ n) : Descent n := ⟨.ok e rest, h⟩

def error (e : ParseError) (rest : List Token) : Descent n := ⟨.error e rest, trivial⟩

def bind (d : Descent m) (f : Expr Span → (rest : List Token) → rest.length ≤ m → Descent n) : Descent n :=
  match d with
  | ⟨.ok e rest, h⟩ => f e rest h
  | ⟨.error e rest, _⟩ => error e rest

def weaken (d : Descent m) (h : m ≤ n) : Descent n := ⟨d.1, d.2.mono h⟩

theorem le_of_le_pred (h : m ≤ n - 1) : m ≤ n := Nat.le_trans h (Nat.sub_le n 1)

def starts (ts : List Token) : Bool := ts.head?.any (·.kind.startsExpression)

def close (stop : Token) (b : Bracket) (opening : Token) (inner : Option (Expr Span)) (ts : List Token) :
    Descent ts.length :=
  let t := ts.headD stop
  let place := opening.span.hull t.span
  if t.kind = .mark (.closing b) then
    ok (inner.elim (.empty b place) (.group b · place)) ts.tail (by rw [List.length_tail]; exact Nat.sub_le _ _)
  else error (.mismatchedAt t b opening.location) ts

mutual

/-- An expression whose operators bind at least as strongly as `least`. -/
def expression (stop : Token) (least : Nat) (ts : List Token) : Descent (ts.length - 1) :=
  (operand stop ts).bind fun left rest h => (climb stop least left rest).weaken h
termination_by (ts.length, 3)
decreasing_by
  · exact .right _ (by decide)
  · exact .right' _ (le_of_le_pred h) (by decide)

def climb (stop : Token) (least : Nat) (left : Expr Span) (ts : List Token) : Descent ts.length :=
  match ts with
  | [] => ok left [] (Nat.le_refl _)
  | t :: ts => match t.kind with
      | .mark (.operator .counting) => error (.unexpectedAt t Expected.continuations) (t :: ts)
      | .mark (.operator (.joining c)) =>
          if c.strength < least then ok left (t :: ts) (Nat.le_refl _)
          else if c = .exception ∧ ¬ starts ts then
            (climb stop least (left.exceptNothing t.span) ts).weaken (Nat.le_succ _)
          else (expression stop (c.strength + 1) ts).bind fun right rest h =>
            (climb stop least (left.join c right) rest).weaken (Nat.le_succ_of_le (le_of_le_pred h))
      | _ => ok left (t :: ts) (Nat.le_refl _)
termination_by (ts.length, 0)
decreasing_by
  · exact .left _ _ (Nat.lt_succ_self _)
  · exact .left _ _ (Nat.lt_succ_self _)
  · exact .left _ _ (Nat.lt_succ_of_le (le_of_le_pred h))

def operand (stop : Token) (ts : List Token) : Descent (ts.length - 1) :=
  match ts with
  | ⟨.integer n, span, _, _⟩ :: ⟨.mark (.operator .counting), _, _, _⟩ :: ts =>
      (expression stop (Operator.counting.strength + 1) ts).bind fun e rest h =>
        ok (.counted n span e (span.hull e.place)) rest (Nat.le_succ_of_le (le_of_le_pred h))
  | ⟨.integer _, _, _, _⟩ :: ts => error (.unexpectedAt (ts.headD stop) [.countMark]) ts
  | ts => atom stop ts
termination_by (ts.length, 2)
decreasing_by
  · exact .left _ _ (Nat.lt_succ_of_lt (Nat.lt_succ_self _))
  · exact .right _ (by decide)

def atom (stop : Token) (ts : List Token) : Descent (ts.length - 1) :=
  match ts with
  | ⟨.identifier name, span, _, _⟩ :: ts => ok (.atom (.identifier name) span) ts (Nat.le_refl _)
  | ⟨.terminal text quote, span, _, _⟩ :: ts => ok (.atom (.terminal text quote) span) ts (Nat.le_refl _)
  | ⟨.special text, span, _, _⟩ :: ts => ok (.atom (.special text) span) ts (Nat.le_refl _)
  | t@⟨.mark (.opening b), _, _, _⟩ :: ts => group stop b t ts
  | ts => error (.unexpectedAt (ts.headD stop) Expected.starts) ts
termination_by (ts.length, 1)
decreasing_by exact .left _ _ (Nat.lt_succ_self _)

def group (stop : Token) (b : Bracket) (opening : Token) (ts : List Token) : Descent ts.length :=
  if starts ts then (expression stop 1 ts).bind fun e rest h =>
    (close stop b opening (some e) rest).weaken (le_of_le_pred h)
  else close stop b opening none ts
termination_by (ts.length, 4)
decreasing_by exact .right _ (by decide)

end

def finish (stop : Token) (h : Head) (body : Option (Expr Span)) (ts : List Token) : Outcome (Rule Span) :=
  let t := ts.headD stop
  if t.kind = .mark .semicolon then .ok (h.rule body t.span) ts.tail
  else if body = none ∧ t.kind ≠ .eof then .error (.unexpectedAt t (Expected.starts ++ [.mark .semicolon])) ts
  else .error (.malformedAt t .semicolon) ts

def rule (stop : Token) : List Token → Outcome (Rule Span)
  | ⟨.identifier name, span, _, _⟩ :: ⟨.mark .equals, _, _, _⟩ :: ts =>
      if starts ts then match (expression stop 1 ts).1 with
        | .ok e rest => finish stop ⟨name, span⟩ (some e) rest
        | .error e rest => .error e rest
      else finish stop ⟨name, span⟩ none ts
  | ⟨.identifier _, _, _, _⟩ :: ts => .error (.malformedAt (ts.headD stop) .equals) ts
  | ts => .error (.malformedAt (ts.headD stop) .name) ts

theorem leaves_finish (stop : Token) (h : Head) (body : Option (Expr Span)) (ts : List Token) :
    (finish stop h body ts).Leaves ts.length := by
  rw [finish]
  split
  · show ts.tail.length ≤ ts.length
    rw [List.length_tail]
    exact Nat.sub_le _ _
  · split <;> trivial

theorem leaves_rule (stop : Token) (ts : List Token) : (rule stop ts).Leaves (ts.length - 1) := by
  rw [rule.eq_def]
  split
  · next name span _ _ _ _ _ ts =>
      split
      · split
        · next e rest he =>
            have hrest := (expression stop 1 ts).2
            rw [he] at hrest
            have hle : rest.length ≤ ts.length - 1 := hrest
            exact (leaves_finish _ _ _ _).mono (by simp only [List.length_cons]; omega)
        · trivial
      · exact (leaves_finish _ _ _ _).mono (by simp)
  · trivial
  · trivial

def rules (stop : Token) : List Token → Outcome (List (Rule Span))
  | [] => .ok [] []
  | t :: ts => match _h : rule stop (t :: ts) with
      | .ok r rest => (rules stop rest).map (r :: ·)
      | .error e rest => .error e rest
termination_by ts => ts.length
decreasing_by
  have hrest := leaves_rule stop (t :: ts)
  rw [_h] at hrest
  exact Nat.lt_succ_of_le hrest

end Descent

end Ebnf
