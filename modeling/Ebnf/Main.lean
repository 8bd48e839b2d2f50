import Ebnf.Command.Run
import Ebnf.Explorer.View

namespace Ebnf.Command

def readContent (path : Text) : IO (Except FileError ByteArray) := do
  try
    return .ok (← IO.FS.readBinFile (String.ofList path))
  catch
    | .noFileOrDirectory .. => return .error .notFound
    | .inappropriateType _ 21 _ => return .error .isDirectory
    | .inappropriateType .. => return .error .notDirectory
    | .invalidArgument .. => return .error .nameTooLong
    | .permissionDenied .. => return .error .notPermitted
    | e => return .error (.other (toString e))

def finish (f : Finish) : IO UInt32 := do
  (← IO.getStdout).putStr (String.ofList f.stdout)
  (← IO.getStderr).putStr (String.ofList f.stderr)
  return f.exit.toUInt32

/-- One frame per line of input. A line holds the names of the keys to press,
with spaces between them. -/
partial def explore (x : Explorer.State) : IO UInt32 := do
  let (screen, x) := x.draw 80 24
  for row in screen do
    IO.println (String.ofList (row.toList.map (·.symbol)))
  let line ← (← IO.getStdin).getLine
  let keys := ((line.replace "\n" "").splitOn " ").filterMap Explorer.Key.ofName?
  let x := keys.foldl Explorer.State.press x
  if x.quit || line.isEmpty then return 0
  explore x

end Ebnf.Command

open Ebnf.Command in
def main (arguments : List String) : IO UInt32 := do
  match start (arguments.map String.toList) with
  | .finish f => finish f
  | .open path next => match next (← readContent path) with
      | .finish f => finish f
      | .explore x => explore x
