import Ebnf.Token.Kind

namespace Ebnf

/-- A smallest piece of a grammar's text, without its place. -/
inductive Lexeme
  | gap (run : Text)
  | comment (body : Text)
  | identifier (name : Text)
  | terminal (text : Text) (quote : Quote)
  | special (text : Text)
  | integer (digits : Text)
  | mark (m : Mark)
deriving DecidableEq, Repr

inductive Delimited
  | terminal
  | comment
  | special
deriving DecidableEq, Repr

namespace Delimited

def all : List Delimited := [.terminal, .comment, .special]

def name : Delimited → String
  | .terminal => "terminal string"
  | .comment => "comment"
  | .special => "special sequence"

end Delimited

inductive Fault
  | unrecognized (found : Char)
  | unterminated (what : Delimited)
  | integerTooLarge (digits : Text)
deriving DecidableEq, Repr

namespace Lexeme

def spelling : Lexeme → Text
  | .gap run => run
  | .comment body => '(' :: '*' :: body ++ ['*', ')']
  | .identifier name => name
  | .terminal text quote => quote.char :: text ++ [quote.char]
  | .special text => '?' :: text ++ ['?']
  | .integer digits => digits
  | .mark m => [m.char]

def isGap (c : Char) : Bool := c == ' ' || c == '\t' || c == '\r' || c == '\n'

def isNamePart (c : Char) : Bool := c.isAlphanum || c == '_'

/-- Integers are words of 64 bits. -/
def integerBound : Nat := UInt64.size

def untilChar (close : Char) : Text → Option (Text × Text)
  | [] => none
  | c :: t => if c = close then some ([], t) else (untilChar close t).map fun p => (c :: p.1, p.2)

def untilCommentEnd : Text → Option (Text × Text)
  | [] => none
  | '*' :: ')' :: t => some ([], t)
  | c :: t => (untilCommentEnd t).map fun p => (c :: p.1, p.2)

def delimited (what : Delimited) (lexeme : Text → Lexeme) : Option (Text × Text) → Except Fault (Lexeme × Text)
  | some (body, rest) => .ok (lexeme body, rest)
  | none => .error (.unterminated what)

/-- The first lexeme of a text that begins with `c`, and the text behind it.
Runs are as long as they can be. -/
def scan (c : Char) (t : Text) : Except Fault (Lexeme × Text) :=
  if isGap c then .ok (.gap (c :: t.takeWhile isGap), t.dropWhile isGap)
  else if c.isAlpha then .ok (.identifier (c :: t.takeWhile isNamePart), t.dropWhile isNamePart)
  else if c.isDigit then
    let digits := c :: t.takeWhile Char.isDigit
    if Decimal.value digits < integerBound then .ok (.integer digits, t.dropWhile Char.isDigit)
    else .error (.integerTooLarge digits)
  else if c = '?' then delimited .special .special (untilChar '?' t)
  else if c = '\'' then delimited .terminal (.terminal · .single) (untilChar '\'' t)
  else if c = '"' then delimited .terminal (.terminal · .double) (untilChar '"' t)
  else if c = '(' ∧ t.head? = some '*' then delimited .comment .comment (untilCommentEnd t.tail)
  else match Mark.ofChar? c with
    | some m => .ok (.mark m, t)
    | none => .error (.unrecognized c)

theorem untilChar_append {close : Char} {t body rest : Text} (h : untilChar close t = some (body, rest)) :
    body ++ close :: rest = t := by
  induction t generalizing body with
  | nil => simp [untilChar] at h
  | cons c t ih =>
      rw [untilChar] at h
      split at h
      · next hc => simp_all
      · obtain ⟨⟨b, r⟩, hb, he⟩ := Option.map_eq_some_iff.1 h
        obtain ⟨rfl, rfl⟩ := Prod.mk.inj he
        simp [ih hb]

theorem untilCommentEnd_append {t body rest : Text} (h : untilCommentEnd t = some (body, rest)) :
    body ++ '*' :: ')' :: rest = t := by
  induction t using untilCommentEnd.induct generalizing body with
  | case1 => simp [untilCommentEnd] at h
  | case2 t => simp_all [untilCommentEnd]
  | case3 c t hc ih =>
      rw [untilCommentEnd] at h
      · obtain ⟨⟨b, r⟩, hb, he⟩ := Option.map_eq_some_iff.1 h
        obtain ⟨rfl, rfl⟩ := Prod.mk.inj he
        simp [ih hb]
      · exact hc

theorem delimited_ok {what : Delimited} {lexeme : Text → Lexeme} {p : Option (Text × Text)}
    {l : Lexeme} {rest : Text} (h : delimited what lexeme p = .ok (l, rest)) :
    ∃ body, p = some (body, rest) ∧ l = lexeme body := by
  rcases p with _ | ⟨body, r⟩
  · simp [delimited] at h
  · simp only [delimited, Except.ok.injEq, Prod.mk.injEq] at h
    exact ⟨body, by rw [h.2], h.1.symm⟩

/-- Nothing is lost: the lexeme is spelled from the first character on, and
its spelling and the rest make up the text. -/
theorem scan_ok {c : Char} {t : Text} {l : Lexeme} {rest : Text} (h : scan c t = .ok (l, rest)) :
    ∃ s, l.spelling = c :: s ∧ s ++ rest = t := by
  unfold scan at h
  split at h
  · obtain ⟨rfl, rfl⟩ := Prod.mk.inj (Except.ok.inj h)
    exact ⟨_, rfl, List.takeWhile_append_dropWhile⟩
  split at h
  · obtain ⟨rfl, rfl⟩ := Prod.mk.inj (Except.ok.inj h)
    exact ⟨_, rfl, List.takeWhile_append_dropWhile⟩
  split at h
  · dsimp only at h
    split at h
    · obtain ⟨rfl, rfl⟩ := Prod.mk.inj (Except.ok.inj h)
      exact ⟨_, rfl, List.takeWhile_append_dropWhile⟩
    · simp at h
  split at h
  · next hc =>
      obtain ⟨body, hb, rfl⟩ := delimited_ok h
      exact ⟨body ++ ['?'], by simp [spelling, hc], by simpa using untilChar_append hb⟩
  split at h
  · next hc =>
      obtain ⟨body, hb, rfl⟩ := delimited_ok h
      exact ⟨body ++ ['\''], by simp [spelling, Quote.char, hc], by simpa using untilChar_append hb⟩
  split at h
  · next hc =>
      obtain ⟨body, hb, rfl⟩ := delimited_ok h
      exact ⟨body ++ ['"'], by simp [spelling, Quote.char, hc], by simpa using untilChar_append hb⟩
  split at h
  · next hc =>
      obtain ⟨body, hb, rfl⟩ := delimited_ok h
      obtain ⟨rfl, ht⟩ := hc
      cases t with
      | nil => simp at ht
      | cons d t =>
          obtain rfl : d = '*' := by simpa using ht
          exact ⟨'*' :: body ++ ['*', ')'], by simp [spelling], by simpa using untilCommentEnd_append hb⟩
  split at h
  · next m hm =>
      obtain ⟨rfl, rfl⟩ := Prod.mk.inj (Except.ok.inj h)
      exact ⟨[], by simpa [spelling] using List.find?_some hm, rfl⟩
  · simp at h

theorem scan_length {c : Char} {t : Text} {l : Lexeme} {rest : Text} (h : scan c t = .ok (l, rest)) :
    rest.length ≤ t.length := by
  obtain ⟨s, -, rfl⟩ := scan_ok h
  rw [List.length_append]
  omega

def split : Text → List Lexeme × Option Fault
  | [] => ([], none)
  | c :: t => match h : scan c t with
      | .error f => ([], some f)
      | .ok (l, rest) =>
          have := scan_length h
          let s := split rest
          (l :: s.1, s.2)
termination_by t => t.length
decreasing_by exact Nat.lt_succ_of_le this

end Lexeme

end Ebnf
