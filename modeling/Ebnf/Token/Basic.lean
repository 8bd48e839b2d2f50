import Ebnf.Source.Location
import Ebnf.Source.Span
import Ebnf.Text.Visible
import Ebnf.Token.Lexeme

namespace Ebnf

inductive Trivia
  | gap (span : Span)
  | comment (body : Text) (span : Span)
deriving DecidableEq, Repr

structure Comment where
  text : Text
  span : Span
deriving DecidableEq, Repr

def Trivia.comment? : Trivia → Option Comment
  | .gap _ => none
  | .comment body span => some ⟨body, span⟩

def Trivia.span : Trivia → Span
  | .gap span | .comment _ span => span

/-- A token at its place, with the trivia in front of it. -/
structure Token where
  kind : Kind
  span : Span
  location : Location
  trivia : List Trivia
deriving DecidableEq, Repr, Inhabited

def Token.comments (t : Token) : List Comment := t.trivia.filterMap Trivia.comment?

structure LexError where
  fault : Fault
  location : Location
deriving DecidableEq, Repr

def LexError.message (e : LexError) : String :=
  s!"Lexer error at {e.location.message}: " ++ match e.fault with
    | .unrecognized c => "unrecognized character " ++ Visible.quoted c
    | .unterminated d => "unterminated " ++ d.name
    | .integerTooLarge ds => "integer " ++ String.ofList ds ++ " is too large"

def Lexeme.role : Lexeme → (Span → Trivia) ⊕ Kind
  | .gap _ => .inl .gap
  | .comment body => .inl (.comment body)
  | .identifier name => .inr (.identifier name)
  | .terminal text quote => .inr (.terminal text quote)
  | .special text => .inr (.special text)
  | .integer digits => .inr (.integer (Decimal.value digits))
  | .mark m => .inr (.mark m)

namespace Token

/-- Lay lexemes out one behind the other from `here` on. The trivia in
`before` waits for the next token, and the end of the text is a token too. -/
def place (here : Location) (before : List Trivia) : List Lexeme → List Token
  | [] => [⟨.eof, ⟨here.offset, here.offset⟩, here, before⟩]
  | l :: ls =>
      let next := here.after l.spelling
      let span : Span := ⟨here.offset, next.offset⟩
      match l.role with
      | .inl trivia => place next (before ++ [trivia span]) ls
      | .inr kind => ⟨kind, span, here, before⟩ :: place next [] ls

end Token

def tokenize (source : Text) : Except LexError (List Token) :=
  match Lexeme.split source with
  | (ls, none) => .ok (Token.place .start [] ls)
  | (ls, some fault) => .error ⟨fault, Location.start.after (ls.flatMap Lexeme.spelling)⟩

end Ebnf
