import LinReal.Program.Report

/-!
The program: it reads what its path leads to, answers its arguments, and prints the report.
-/

namespace LinReal.Program

/-- Whether an error has the given number; the system reports it with either sign. -/
def hasNumber (code number : UInt32) : Bool := code = number || code + number = 0

def fileError : IO.Error → FileError
  | .noFileOrDirectory .. => .missing
  | .inappropriateType _ code _ => if hasNumber code 21 then .isDirectory else .notDirectory
  | .invalidArgument path code text =>
    if hasNumber code 36 then .nameTooLong else .other (toString (IO.Error.invalidArgument path code text))
  | e => .other (toString e)

def readBytes (path : String) : IO (Except FileError (List UInt8)) := do
  try return .ok (← IO.FS.readBinFile path).toList
  catch e => return .error (fileError e)

def isDirectory (path : String) : IO Bool := do
  try (← IO.FS.realPath path).isDir
  catch _ => return false

def isOrdinaryFile (path : String) : IO Bool := do
  try return (← (← IO.FS.realPath path).metadata).type matches .file
  catch _ => return false

/-- The files below a directory, depth first in the order of their names; `below` leads to it from where the walk
began. Links to directories are not followed, directories that cannot be read are passed over, and files that are no
scripts are not read. -/
partial def walk (dir below : String) : IO (List (String × Except FileError (List UInt8))) := do
  let entries ← try (← IO.FS.realPath dir).readDir catch _ => pure #[]
  let sorted := entries.toList.mergeSort fun a b => a.fileName ≤ b.fileName
  let files ← sorted.mapM fun entry => do
    let path := joinPath dir entry.fileName
    let isDir ← try pure ((← entry.path.symlinkMetadata).type matches .dir) catch _ => pure false
    if isDir then walk path (below ++ entry.fileName ++ "/")
    else if ← isOrdinaryFile path then
      return [(below ++ entry.fileName, ← if isScriptName entry.fileName then readBytes path else pure (.ok []))]
    else return []
  return files.flatten

/-- What a path leads to. A directory is walked only if its files are wanted. -/
def lookUp (path : String) (wanted : Bool) : IO Found := do
  if Tree.pathLimit < path.utf8ByteSize then return .absent .nameTooLong
  if ← isDirectory path then return .dir (← if wanted then walk path "" else pure [])
  match ← readBytes path with
  | .ok bytes => return .file bytes
  | .error e => return .absent e

end LinReal.Program

open LinReal.Program in
def main (arguments : List String) : IO UInt32 := do
  let request := readArguments arguments
  let found ← match pathOf request with
    | some path => lookUp path (wantsFiles request)
    | none => pure (.absent .missing)
  let report := answer request found
  for line in report.err do IO.eprintln line
  for line in report.out do IO.println line
  return report.exit.toUInt32
