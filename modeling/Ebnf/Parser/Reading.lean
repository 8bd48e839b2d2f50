import Ebnf.Grammar.Tree
import Ebnf.Parser.Error

namespace Ebnf

/-- A piece of an expression that still waits for the operand behind it. -/
inductive Frame
  | joined (left : Expr Span) (c : Connective)
  | counted (count : Nat) (span : Span)
  | inside (b : Bracket) (span : Span) (opened : Location)
deriving DecidableEq, Repr

/-- What has been read last, and so what may come next. -/
inductive Focus
  | operand
  | count (value : Nat) (span : Span)
  | opened (b : Bracket) (span : Span) (location : Location)
  | excepted (left : Expr Span) (minus : Span)
  | complete (e : Expr Span)
deriving DecidableEq, Repr

/-- How far an expression has been read: the last piece, and the unfinished
ones around it, innermost first. -/
structure Reading where
  focus : Focus
  frames : List Frame
deriving DecidableEq, Repr

/-- A single operand, or an expression whose operators bind at least as
strongly as `least`. -/
inductive Goal
  | operand
  | expression (least : Nat)
deriving DecidableEq, Repr

def Goal.admits : Goal → Connective → Bool
  | .operand, _ => false
  | .expression least, c => least ≤ c.strength

def Expr.join (left : Expr Span) (c : Connective) (right : Expr Span) : Expr Span :=
  .binary c left right ⟨left.place.start, right.place.stop⟩

def Expr.exceptNothing (left : Expr Span) (minus : Span) : Expr Span :=
  .without left ⟨left.place.start, minus.stop⟩

namespace Reading

def start : Reading := ⟨.operand, []⟩

/-- Give a finished operand to the frames that bind at least as strongly as
`strength`. No connective reaches across a bracket, and a count binds tighter
than all of them. -/
def reduce (strength : Nat) (e : Expr Span) : List Frame → Expr Span × List Frame
  | .joined left c :: fs => if strength ≤ c.strength then reduce strength (left.join c e) fs else (e, .joined left c :: fs)
  | .counted n span :: fs => reduce strength (.counted n span e (span.hull e.place)) fs
  | fs => (e, fs)

def readOperand? (frames : List Frame) (t : Token) : Option Reading :=
  match t.kind with
  | .identifier name => some ⟨.complete (.atom (.identifier name) t.span), frames⟩
  | .terminal text quote => some ⟨.complete (.atom (.terminal text quote) t.span), frames⟩
  | .special text => some ⟨.complete (.atom (.special text) t.span), frames⟩
  | .integer value => some ⟨.count value t.span, frames⟩
  | .mark (.opening b) => some ⟨.opened b t.span t.location, frames⟩
  | _ => none

def join? (goal : Goal) (c : Connective) (minus : Span) : Expr Span × List Frame → Option Reading
  | (e, fs) =>
      if fs.isEmpty && !goal.admits c then none
      else if c = .exception then some ⟨.excepted e minus, fs⟩
      else some ⟨.operand, .joined e c :: fs⟩

def close? (b : Bracket) (closer : Span) : Expr Span × List Frame → Option Reading
  | (e, .inside b' span _ :: fs) => if b = b' then some ⟨.complete (.group b e (span.hull closer)), fs⟩ else none
  | _ => none

def readBehind? (goal : Goal) (e : Expr Span) (frames : List Frame) (t : Token) : Option Reading :=
  match t.kind with
  | .mark (.operator (.joining c)) => join? goal c t.span (reduce c.strength e frames)
  | .mark (.closing b) => close? b t.span (reduce 0 e frames)
  | _ => none

/-- The state behind `t`, if the expression goes on with it. -/
def read? (goal : Goal) (s : Reading) (t : Token) : Option Reading :=
  match s.focus with
  | .operand => readOperand? s.frames t
  | .count value span =>
      if t.kind = .mark (.operator .counting) then some ⟨.operand, .counted value span :: s.frames⟩ else none
  | .opened b span location =>
      if t.kind = .mark (.closing b) then some ⟨.complete (.empty b (span.hull t.span)), s.frames⟩
      else readOperand? (.inside b span location :: s.frames) t
  | .excepted left minus =>
      if t.kind.startsExpression then readOperand? (.joined left .exception :: s.frames) t
      else readBehind? goal (left.exceptNothing minus) s.frames t
  | .complete e => readBehind? goal e s.frames t

def settleOperand (goal : Goal) (e : Expr Span) (frames : List Frame) (t : Token) :
    Except ParseError (Expr Span) :=
  if goal = .operand ∧ frames = [] then .ok e
  else if t.kind = .mark (.operator .counting) then .error (.unexpectedAt t Expected.continuations)
  else match reduce 0 e frames with
    | (_, .inside b _ opened :: _) => .error (.mismatchedAt t b opened)
    | (e, _) => .ok e

/-- The expression that ends in front of `t`, or what is wrong with `t`. Meant
for a token that cannot be read. -/
def settle (goal : Goal) (s : Reading) (t : Token) : Except ParseError (Expr Span) :=
  match s.focus with
  | .operand => .error (.unexpectedAt t Expected.starts)
  | .count _ _ => .error (.unexpectedAt t [.countMark])
  | .opened b _ opened => .error (.mismatchedAt t b opened)
  | .excepted left minus => settleOperand goal (left.exceptNothing minus) s.frames t
  | .complete e => settleOperand goal e s.frames t

end Reading

end Ebnf
