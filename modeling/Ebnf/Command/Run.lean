import Ebnf.Command.Arguments
import Ebnf.Command.Directory
import Ebnf.Command.Report
import Ebnf.Explorer.State
import Ebnf.Layout.Page

namespace Ebnf.Command

structure Finish where
  exit : UInt8
  stdout : Text := []
  stderr : Text := []
deriving DecidableEq, Repr

inductive Result
  | finish (f : Finish)
  | explore (x : Explorer.State)
deriving DecidableEq, Repr

inductive Start
  | finish (f : Finish)
  | open (path : Text) (next : Except FileError ByteArray → Result)

def versionText : Text := "ebnftty 0.1.0\n".toList

def helpText : Text := "Usage: ebnftty [OPTIONS] <FILE>\n".toList

def checked (path : Text) (d : Document) : Text :=
  path ++ ": ".toList ++ Decimal.digits d.grammar.rules.length ++ " rule(s)\n".toList

def dumped (d : Document) : Text := d.grammar.rules.flatMap fun r => r.render ++ ['\n']

def runOn (a : Arguments) (source : Text) : Result :=
  match Document.ofSource source with
  | .error e => .finish { exit := 1, stderr := report a.file source e }
  | .ok d =>
      if a.has .check then .finish { exit := 0, stdout := checked a.file d }
      else if a.has .dump then .finish { exit := 0, stdout := dumped d }
      else if a.has .format then .finish { exit := 0, stdout := Layout.format a.config source d }
      else .explore (.start (.ofDocument d source ((fileName? a.file).getD a.file)))

def unreadable (path : Text) (e : FileError) : Finish :=
  { exit := 1, stderr := "error: cannot read ".toList ++ (quote path).toList ++ ": ".toList ++ e.message.toList ++ ['\n'] }

def decode (content : ByteArray) : Except FileError Text :=
  match String.fromUTF8? content with
  | some s => .ok s.toList
  | none => .error .notText

def start (arguments : List Text) : Start :=
  match Arguments.read arguments with
  | .error (.notice .version) => .finish { exit := 0, stdout := versionText }
  | .error (.notice .help) => .finish { exit := 0, stdout := helpText }
  | .error (.error e) => .finish { exit := 2, stderr := e.message.toList ++ ['\n'] }
  | .ok a => .open a.file fun content => match content.bind decode with
      | .error e => .finish (unreadable a.file e)
      | .ok source => runOn a source

def withoutTerminal : Finish := { exit := 1, stderr := "error: No such device or address (os error 6)\n".toList }

end Ebnf.Command
