import Ebnf.Text.Basic

namespace Ebnf.Command

inductive FileError
  | notFound
  | notPermitted
  | notDirectory
  | isDirectory
  | nameTooLong
  | notText
  | other (message : String)
deriving DecidableEq, Repr

def FileError.message : FileError → String
  | .notFound => "No such file or directory (os error 2)"
  | .notPermitted => "Permission denied (os error 13)"
  | .notDirectory => "Not a directory (os error 20)"
  | .isDirectory => "Is a directory (os error 21)"
  | .nameTooLong => "File name too long (os error 36)"
  | .notText => "stream did not contain valid UTF-8"
  | .other message => message

def segments : Text → List Text
  | [] => [[]]
  | c :: t =>
      if c = '/' then [] :: segments t
      else match segments t with
        | s :: ss => (c :: s) :: ss
        | [] => [[c]]

def fileName? (path : Text) : Option Text :=
  match (segments path).reverse.dropWhile fun s => s = [] || s = ['.'] with
  | [] | ['.', '.'] :: _ => none
  | s :: _ => some s

def longestName : Nat := 255

def longestPath : Nat := 4095

/-- What lies under a directory: files, each with the path that leads to it, and
directories that need not hold one. -/
structure Directory where
  files : List (List Text × ByteArray)
  folders : List (List Text) := []
  isRoot : Bool := false

namespace Directory

def ofFiles (files : List (Text × ByteArray)) : Directory := { files := files.map fun p => (segments p.1, p.2) }

/-- What is known of the directory above all others: that some standard ones lie
there, and that the null device holds nothing. -/
def root : Directory :=
  { files := [(["dev".toList, "null".toList], .empty)],
    folders := ["bin", "etc", "home", "lib", "proc", "sys", "tmp", "usr", "var"].map fun s => [s.toList],
    isRoot := true }

def file? (d : Directory) (path : List Text) : Option ByteArray := d.files.lookup path

def hasDirectory (d : Directory) (path : List Text) : Bool :=
  path.isEmpty || d.folders.contains path || d.files.any fun p => path.isPrefixOf p.1 && p.1 ≠ path

def above? : Directory × List Text → Option (Directory × List Text)
  | (d, []) => if d.isRoot then some (d, []) else none
  | (d, path) => some (d, path.dropLast)

/-- Follow a path from a place. Where the place is not known, it is a directory
whose files are not known either. -/
def follow : Option (Directory × List Text) → List Text → Except FileError ByteArray
  | _, [] => .error .isDirectory
  | here, s :: ss =>
      if s = [] ∨ s = ['.'] then follow here ss
      else if s = ['.', '.'] then follow (here.bind above?) ss
      else if longestName < s.byteLength then .error .nameTooLong
      else match here with
        | none => .error .notFound
        | some (d, path) =>
            let next := path ++ [s]
            match d.file? next with
            | some content => if ss.isEmpty then .ok content else .error .notDirectory
            | none => if d.hasDirectory next then follow (some (d, next)) ss else .error .notFound

/-- The file that a path leads to, with `d` as the working directory. -/
def read (d : Directory) (path : Text) : Except FileError ByteArray :=
  if longestPath < path.byteLength then .error .nameTooLong
  else follow (some (if path.head? = some '/' then root else d, [])) (segments path)

end Directory

end Ebnf.Command
