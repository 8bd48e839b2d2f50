import Ebnf.Parser.Phase

namespace Ebnf

/-- What reading gives, and the tokens from where it stopped: those behind the
value, or the one at fault and all behind it. -/
inductive Outcome (α : Type)
  | ok (value : α) (rest : List Token)
  | error (e : ParseError) (rest : List Token)
deriving DecidableEq, Repr

namespace Outcome

variable {α β : Type}

def map (f : α → β) : Outcome α → Outcome β
  | .ok a rest => .ok (f a) rest
  | .error e rest => .error e rest

def rest : Outcome α → List Token
  | .ok _ rest | .error _ rest => rest

def toExcept : Outcome α → Except ParseError α
  | .ok a _ => .ok a
  | .error e _ => .error e

def ofExcept (rest : List Token) : Except ParseError α → Outcome α
  | .ok a => .ok a rest
  | .error e => .error e rest

end Outcome

/-- In these, `stop` is the end token behind the list. -/
def readExpr (goal : Goal) (stop : Token) : Reading → List Token → Outcome (Expr Span)
  | s, [] => .ofExcept [] (s.settle goal stop)
  | s, t :: ts => match s.read? goal t with
      | some s' => readExpr goal stop s' ts
      | none => .ofExcept (t :: ts) (s.settle goal t)

/-- A count cannot begin a single operand. -/
def readAtom (stop : Token) : List Token → Outcome (Expr Span)
  | [] => .ofExcept [] (Reading.start.settle .operand stop)
  | t :: ts => match t.kind, Reading.readOperand? [] t with
      | .integer _, _ | _, none => .ofExcept (t :: ts) (Reading.start.settle .operand t)
      | _, some s => readExpr .operand stop s ts

def readRule (stop : Token) : Phase → List Token → Outcome (Rule Span)
  | p, [] => .error (p.refusal stop) []
  | p, t :: ts => match p.read? t with
      | some (.inl q) => readRule stop q ts
      | some (.inr r) => .ok r ts
      | none => .error (p.refusal t) (t :: ts)

def readRules (stop : Token) : Phase → List Token → Outcome (List (Rule Span))
  | .name, [] => .ok [] []
  | p, [] => .error (p.refusal stop) []
  | p, t :: ts => match p.read? t with
      | some (.inl q) => readRules stop q ts
      | some (.inr r) => (readRules stop .name ts).map (r :: ·)
      | none => .error (p.refusal t) (t :: ts)

def Grammar.ofRules? : List (Rule Span) → Option (Grammar Span)
  | [] => none
  | r :: rs => some ⟨r :: rs, r.place.hull ((r :: rs).getLast (by simp)).place⟩

def readGrammar (stop : Token) (ts : List Token) : Outcome (Grammar Span) :=
  match readRules stop .name ts with
  | .error e rest => .error e rest
  | .ok rules rest => match Grammar.ofRules? rules with
      | some g => .ok g rest
      | none => .error .noRules rest

/-- A place in a token list. Reading never goes beyond the first end token,
which is `stop`; `ahead` holds what is left in front of it. -/
structure Cursor where
  tokens : List Token
  ahead : List Token
  stop : Token
deriving DecidableEq, Repr

namespace Cursor

/-- The end token for a list that lacks one. It lies behind the last token but
has that token's line and column. -/
def endOf (ts : List Token) : Token :=
  match ts.getLast? with
  | some t => ⟨.eof, ⟨t.span.stop, t.span.stop⟩, ⟨t.span.stop, t.location.line, t.location.column⟩, []⟩
  | none => ⟨.eof, ⟨0, 0⟩, ⟨0, 0, 0⟩, []⟩

def closed (ts : List Token) : List Token :=
  if ts.getLast?.any (·.kind = .eof) then ts else ts ++ [endOf ts]

def ofTokens (ts : List Token) : Cursor :=
  let all := closed ts
  ⟨all, all.takeWhile (·.kind ≠ .eof), (all.find? (·.kind = .eof)).getD (endOf ts)⟩

def ofSource (source : Text) : Except LexError Cursor := (tokenize source).map ofTokens

variable {α : Type}

def run (read : Token → List Token → Outcome α) (c : Cursor) : Except ParseError α × Cursor :=
  let o := read c.stop c.ahead
  (o.toExcept, { c with ahead := o.rest })

def atom : Cursor → Except ParseError (Expr Span) × Cursor := run readAtom

def expression (least : Nat) : Cursor → Except ParseError (Expr Span) × Cursor :=
  run fun stop => readExpr (.expression least) stop .start

def rule : Cursor → Except ParseError (Rule Span) × Cursor := run fun stop => readRule stop .name

def grammar : Cursor → Except ParseError (Grammar Span) × Cursor := run readGrammar

end Cursor

end Ebnf
