import Ebnf.Layout.Config
import Ebnf.Text.Control
import Ebnf.Token.Lexeme

namespace Ebnf.Command

inductive Switch
  | format
  | dump
  | check
  | crlf
deriving DecidableEq, Repr

inductive Parameter
  | file
  | lineWidth
  | quotes
  | switch (s : Switch)
deriving DecidableEq, Repr

inductive Notice
  | version
  | help
deriving DecidableEq, Repr

inductive Flag
  | parameter (p : Parameter)
  | notice (n : Notice)
deriving DecidableEq, Repr

def Flag.long : List (Text × Flag) :=
  [("fmt".toList, .parameter (.switch .format)), ("dump".toList, .parameter (.switch .dump)),
    ("check".toList, .parameter (.switch .check)), ("crlf".toList, .parameter (.switch .crlf)),
    ("line-width".toList, .parameter .lineWidth), ("quotes".toList, .parameter .quotes),
    ("version".toList, .notice .version), ("help".toList, .notice .help)]

def Flag.short : List (Char × Flag) := [('V', .notice .version), ('h', .notice .help)]

def Parameter.usage : Parameter → String
  | .file => "<FILE>"
  | .lineWidth => "--line-width <N>"
  | .quotes => "--quotes <QUOTES>"
  | .switch .format => "--fmt"
  | .switch .dump => "--dump"
  | .switch .check => "--check"
  | .switch .crlf => "--crlf"

def Parameter.excludes : Parameter → Parameter → Bool
  | .switch .crlf, _ | _, .switch .crlf => false
  | .switch s, .switch t => s ≠ t
  | _, _ => false

inductive NumberFault
  | empty
  | invalidDigit
  | tooLarge
deriving DecidableEq, Repr

def NumberFault.message : NumberFault → String
  | .empty => "cannot parse integer from empty string"
  | .invalidDigit => "invalid digit found in string"
  | .tooLarge => "number too large to fit in target type"

inductive UsageError
  | unexpectedArgument (argument : Text)
  | unexpectedValue (value name : Text)
  | missingValue (p : Parameter)
  | invalidNumber (value : Text) (p : Parameter) (fault : NumberFault)
  | invalidChoice (value : Text) (p : Parameter)
  | repeated (p : Parameter)
  | conflict (p : Parameter) (others : List Parameter)
  | missingFile
deriving DecidableEq, Repr

def quote (t : Text) : String := String.ofList ('\'' :: t ++ ['\''])

def shown (argument : Text) : String := quote (Control.plain argument)

def UsageError.message : UsageError → String
  | .unexpectedArgument argument => "error: unexpected argument " ++ shown argument ++ " found"
  | .unexpectedValue value name =>
      "error: unexpected value " ++ shown value ++ " for " ++ shown name ++ " found; no more were expected"
  | .missingValue p => s!"error: a value is required for '{p.usage}' but none was supplied"
  | .invalidNumber value p fault =>
      "error: invalid value " ++ shown value ++ s!" for '{p.usage}': {fault.message}"
  | .invalidChoice value p => "error: invalid value " ++ shown value ++ s!" for '{p.usage}'"
  | .repeated p => s!"error: the argument '{p.usage}' cannot be used multiple times"
  | .conflict p [q] => s!"error: the argument '{p.usage}' cannot be used with '{q.usage}'"
  | .conflict p _ => s!"error: the argument '{p.usage}' cannot be used with:"
  | .missingFile => "error: the following required arguments were not provided:"

/-- Digits behind the number `n`, read from the left. The first character at
which something is wrong decides what. -/
def readDigits (n : Nat) : Text → Except NumberFault Nat
  | [] => .ok n
  | c :: t =>
      if !c.isDigit then .error .invalidDigit
      else
        let next := 10 * n + (c.toNat - '0'.toNat)
        if next < Lexeme.integerBound then readDigits next t else .error .tooLarge

def readNumber : Text → Except NumberFault Nat
  | [] => .error .empty
  | ['+'] => .error .invalidDigit
  | '+' :: t => readDigits 0 t
  | t => readDigits 0 t

def quoteChoices : List (Text × Layout.QuoteStyle) :=
  [("preserve".toList, .preserve), ("single".toList, .prefer .single), ("double".toList, .prefer .double)]

structure Arguments where
  file : Text := []
  lineWidth : Nat := ({} : Layout.Config).lineWidth
  quotes : Layout.QuoteStyle := ({} : Layout.Config).quotes
  given : List Parameter := []
deriving DecidableEq, Repr

namespace Arguments

def has (a : Arguments) (s : Switch) : Bool := a.given.contains (.switch s)

def config (a : Arguments) : Layout.Config :=
  { lineWidth := a.lineWidth, quotes := a.quotes, newline := if a.has .crlf then .windows else .unix }

def setValue (a : Arguments) (p : Parameter) (value : Text) : Except UsageError Arguments :=
  match p with
  | .file => if value.isEmpty then .error (.missingValue .file) else .ok { a with file := value }
  | .lineWidth => match readNumber value with
      | .ok n => .ok { a with lineWidth := n }
      | .error fault => .error (.invalidNumber value .lineWidth fault)
  | .quotes => match quoteChoices.lookup value with
      | some style => .ok { a with quotes := style }
      | none => .error (if value.isEmpty then .missingValue .quotes else .invalidChoice value .quotes)
  | .switch _ => .ok a

/-- That a parameter is given twice is noticed before its second value is read. -/
def give (a : Arguments) (p : Parameter) (value : Text) : Except UsageError Arguments :=
  if a.given.contains p then .error (.repeated p)
  else (a.setValue p value).map fun a => { a with given := a.given ++ [p] }

end Arguments

/-- A parameter whose value is not read yet, and the value once it has come. -/
structure Pending where
  parameter : Parameter
  value : Option Text
deriving DecidableEq, Repr

/-- The arguments read so far. A value waits until the next flag comes, so an
unknown flag behind it is noticed first. -/
structure Intake where
  arguments : Arguments := {}
  pending : Option Pending := none
  fileSeen : Bool := false
  plain : Bool := false
deriving DecidableEq, Repr

inductive Stop
  | notice (n : Notice)
  | error (e : UsageError)
deriving DecidableEq, Repr

namespace Intake

def settle (i : Intake) : Except UsageError Arguments :=
  match i.pending with
  | none => .ok i.arguments
  | some ⟨p, none⟩ => .error (.missingValue p)
  | some ⟨p, some value⟩ => i.arguments.give p value

def settled (i : Intake) : Except Stop Intake :=
  (i.settle.map fun a => { i with arguments := a, pending := none }).mapError .error

def takeFile (i : Intake) (argument : Text) : Except Stop Intake :=
  if i.fileSeen then .error (.error (.unexpectedArgument argument))
  else i.settled.map fun i => { i with fileSeen := true, pending := some ⟨.file, some argument⟩ }

def takeFlag (i : Intake) (f : Flag) (name : Text) (value : Option Text) : Except Stop Intake :=
  match f, value with
  | .notice _, some v | .parameter (.switch _), some v => .error (.error (.unexpectedValue v name))
  | .notice n, none => i.settled.bind fun _ => .error (.notice n)
  | .parameter (.switch s), none => i.settled.bind fun i =>
      ((i.arguments.give (.switch s) []).map fun a => { i with arguments := a }).mapError .error
  | .parameter p, some v => i.settled.bind fun i =>
      ((i.arguments.give p v).map fun a => { i with arguments := a }).mapError .error
  | .parameter p, none => i.settled.map fun i => { i with pending := some ⟨p, none⟩ }

def takeLong (i : Intake) (name : Text) : Except Stop Intake :=
  let key := name.takeWhile (· ≠ '=')
  let value := if '=' ∈ name then some ((name.dropWhile (· ≠ '=')).drop 1) else none
  match Flag.long.lookup key with
  | some f => i.takeFlag f ("--".toList ++ key) value
  | none => .error (.error (.unexpectedArgument ("--".toList ++ key)))

def takeShort (i : Intake) (c : Char) : Except Stop Intake :=
  match Flag.short.lookup c with
  | some f => i.takeFlag f ['-', c] none
  | none => .error (.error (.unexpectedArgument ['-', c]))

def takeValue (i : Intake) (argument : Text) : Except Stop Intake :=
  match i.pending with
  | some ⟨p, none⟩ => .ok { i with pending := some ⟨p, some argument⟩ }
  | _ => i.takeFile argument

def take (i : Intake) (argument : Text) : Except Stop Intake :=
  if i.plain then i.takeFile argument
  else match argument with
    | ['-', '-'] => .ok { i with plain := true }
    | '-' :: '-' :: name => i.takeLong name
    | '-' :: c :: _ => i.takeShort c
    | _ => i.takeValue argument

end Intake

def conflict? (given : List Parameter) : Option UsageError :=
  given.findSome? fun p => match given.filter p.excludes with
    | [] => none
    | others => some (.conflict p others)

def Arguments.check (a : Arguments) : Except UsageError Arguments :=
  match conflict? a.given with
  | some e => .error e
  | none => if a.given.contains .file then .ok a else .error .missingFile

def Arguments.read (arguments : List Text) : Except Stop Arguments := do
  let i ← arguments.foldlM Intake.take {}
  (i.settle.bind Arguments.check).mapError .error

end Ebnf.Command
