/-!
Files and directories. A path is followed component by component; what it leads to is a file, a directory or an error.
A directory is walked depth first in the order of the names, which is the order of the paths below it when they are
compared component by component.
-/

namespace LinReal.Program

inductive FileError where
  | missing
  | notDirectory
  | isDirectory
  | nameTooLong
  | other (text : String)
deriving DecidableEq, Repr

namespace FileError

def message : FileError → String
  | missing => "No such file or directory (os error 2)"
  | notDirectory => "Not a directory (os error 20)"
  | isDirectory => "Is a directory (os error 21)"
  | nameTooLong => "File name too long (os error 36)"
  | other text => text

end FileError

inductive Found where
  | absent (e : FileError)
  | file (bytes : List UInt8)
  /-- A directory, with the files below it by their paths from there, in walking order. -/
  | dir (files : List (String × Except FileError (List UInt8)))

/-- Whether one list of names comes before another, component by component. -/
def namesBefore : List String → List String → Bool
  | [], _ => true
  | _ :: _, [] => false
  | a :: as, b :: bs => if a = b then namesBefore as bs else a < b

/-- Files and directories in memory, by the names that lead to them from the topmost directory. -/
structure Tree where
  files : List (List String × List UInt8)
  /-- Directories that are there even if no file is below them. -/
  dirs : List (List String)
  /-- The directory at which relative paths begin. -/
  current : List String

namespace Tree

/-- The length of the longest path, in bytes. -/
def pathLimit : Nat := 4095

/-- The length of the longest name, in bytes. -/
def nameLimit : Nat := 255

def hasDir (t : Tree) (names : List String) : Bool :=
  names.isEmpty || t.dirs.any names.isPrefixOf || t.files.any fun (path, _) => names.isPrefixOf path

def node (t : Tree) (names : List String) : Found :=
  match t.files.lookup names with
  | some bytes => .file bytes
  | none =>
    if t.hasDir names then
      let below := t.files.filter fun (path, _) => names.isPrefixOf path
      let sorted := below.mergeSort fun a b => namesBefore a.1 b.1
      .dir (sorted.map fun (path, bytes) => ("/".intercalate (path.drop names.length), .ok bytes))
    else .absent .missing

/-- Follows the components of a path from what is under `names`. Empty components and single dots lead nowhere else,
double dots lead upwards, and the topmost directory is above itself. -/
def follow (t : Tree) (names : List String) : List String → Found
  | [] => t.node names
  | c :: rest =>
    match t.node names with
    | .dir _ =>
      if c = "" || c = "." then follow t names rest
      else if c = ".." then follow t names.dropLast rest
      else if nameLimit < c.utf8ByteSize then .absent .nameTooLong
      else follow t (names ++ [c]) rest
    | .file _ => .absent .notDirectory
    | .absent e => .absent e

/-- What a path leads to. A path that begins with a slash begins at the topmost directory. -/
def find (t : Tree) (path : String) : Found :=
  if path = "" then .absent .missing
  else if pathLimit < path.utf8ByteSize then .absent .nameTooLong
  else
    let components := path.splitOn "/"
    if components.head? = some "" then t.follow [] components else t.follow t.current components

end Tree

end LinReal.Program
