import LinReal.Program.Arguments
import LinReal.Program.Tree
import LinReal.Script.Read
import LinReal.Script.Verify

/-!
What the program prints. A report has the lines of both outputs and the exit code: zero if all went well, one if
something could not be read or verified, two if the arguments are wrong.

The table of statistics has cells for figures that depend on the machine, such as times; they are not measured, and a
star stands in their place.
-/

namespace LinReal.Program

/-- The exit code and the two outputs, as the texts that are printed with a line end after each. -/
structure Report where
  exit : Nat
  out : List String
  err : List String
deriving DecidableEq, Repr

namespace Report

/-- The lines of an output. The texts may hold line ends of their own, since the names of files may. -/
def lines (printed : List String) : List String := printed.flatMap Text.printedLines

end Report

inductive Failure where
  | script (e : ScriptError)
  | file (e : FileError)
  | notDirectory (path : String)
  | fault (f : Fault)
deriving Repr

namespace Failure

def message : Failure → String
  | script e => e.message
  | file e => "I/O error: " ++ e.message
  | notDirectory path => "I/O error: not a directory: " ++ path
  | fault f => f.message

end Failure

/-! ### The table of statistics -/

def padRight (width : Nat) (s : String) : String := s ++ "".pushn ' ' (width - s.length)

def padLeft (width : Nat) (s : String) : String := "".pushn ' ' (width - s.length) ++ s

def countLine (label : String) (n : Nat) : String :=
  "|  " ++ padRight 28 label ++ " " ++ padLeft 18 (toString n) ++ "  |"

/-- A line with a count and its rate, which is not measured. -/
def rateLine (label : String) (n : Nat) : String :=
  "|  " ++ padRight 20 label ++ " " ++ padLeft 12 (toString n) ++ " (*/sec)  |"

/-- A line with a figure that is not measured. -/
def unmeasuredLine (label : String) : String := "|  " ++ label ++ " *"

def statistics (s : Script) (results : List CheckResult) (t : Tally) : List String :=
  let sat := (results.filter (·.isSat)).length
  ["", "=======================[ Problem Statistics ]=========================",
    unmeasuredLine "Parse time (s)",
    countLine "Variables" s.variableCount,
    countLine "Rows" s.rows.length,
    countLine "Bound literals" s.literals.size,
    countLine "Checks" results.length,
    "========================[ Search Statistics ]========================",
    rateLine "Pivots" t.pivots,
    rateLine "Updates" t.updates,
    countLine "Assert lower conflicts" t.lowerConflicts,
    countLine "Assert upper conflicts" t.upperConflicts,
    countLine "Assert equality conflicts" t.equalityConflicts,
    countLine "Update conflicts" t.updateConflicts,
    countLine "Early conflicts" t.earlyConflicts,
    countLine "Early conflict improvements" t.earlyImprovements,
    countLine "Pivots after conflict" t.pivotsAfterConflict,
    countLine "Checks with wasteful pivots" t.wastefulChecks,
    countLine "Bland's rule switches" t.antiCycleSwitches,
    unmeasuredLine "Memory usage (MiB)",
    unmeasuredLine "Resident memory (MiB)",
    unmeasuredLine "CPU time (s)",
    "=====================================================================",
    "", toString sat ++ " SATISFIABLE, " ++ toString (results.length - sat) ++ " UNSATISFIABLE"]

/-! ### Solving -/

/-- What has been printed, and whether every verification succeeded. -/
structure Progress where
  out : List String
  err : List String
  verified : Bool
deriving Repr

namespace Progress

def none : Progress := ⟨[], [], true⟩

def append (p q : Progress) : Progress := ⟨p.out ++ q.out, p.err ++ q.err, p.verified && q.verified⟩

instance : Append Progress := ⟨append⟩

end Progress

def settings (o : Options) : Settings := ⟨!o.noEarlyConflict, o.heuristicLimit, o.paranoid⟩

def resultLines (s : Script) (printModel : Bool) (i : Nat) (r : CheckResult) : Except Fault (List String) :=
  match r.verdict with
  | .sat m =>
    let values := (s.names.toList.zip m.values).map fun (name, v) => "  " ++ name ++ " = " ++ Numeral.write v
    .ok (("check " ++ toString i ++ ": SAT") :: if printModel then values else [])
  | .unsat c => do
    let literals ← c.tokens.mapM s.describe
    return ["check " ++ toString i ++ ": UNSAT (" ++ ", ".intercalate literals ++ ")"]

def verification (s : Script) (results : List CheckResult) : Except Fault Progress := do
  let verdicts ← results.mapM s.verify
  let failed := (verdicts.zipIdx.filter fun (ok, _) => !ok).map (·.2)
  let verified := failed.isEmpty
  return ⟨["Verified: " ++ if verified then "true" else "false"],
    failed.map fun i => "check " ++ toString i ++ " failed verification", verified⟩

/-- Runs a script and prints the results, after a line with its label. -/
def solveScript (o : Options) (label : Option String) (s : Script) : Except Failure Progress :=
  let solved : Except Fault Progress := do
    let (results, tally) ← s.run (settings o)
    let lines ← results.zipIdx.mapM fun (r, i) => resultLines s o.printModel i r
    let printed : Progress := ⟨(label.map ("Solving: " ++ ·)).toList ++ lines.flatten, [], true⟩
    let verified ← if o.verify then verification s results else .ok .none
    return printed ++ verified ++ ⟨if o.stats then statistics s results tally else [], [], true⟩
  solved.mapError .fault

/-- Solves a script that was given as an argument: in it, a backslash and the letter n stand for the end of a line. -/
def unescape : List Char → List Char
  | '\\' :: 'n' :: cs => '\n' :: unescape cs
  | c :: cs => c :: unescape cs
  | [] => []

def solveText (o : Options) (text : String) : Except Failure Progress :=
  match Script.read (String.ofList (unescape text.toList)) with
  | .ok s => solveScript o .none s
  | .error e => .error (.script e)

/-- Solves the script with the given bytes, which was found under the path. -/
def solveBytes (o : Options) (path : String) (bytes : List UInt8) : Except Failure Progress :=
  match Script.readBytes bytes with
  | .ok s => solveScript o (some path) s
  | .error e => .error (.script e)

/-- Solves what was found under the path, which must be a file. -/
def solveFile (o : Options) (path : String) : Found → Except Failure Progress
  | .file bytes => solveBytes o path bytes
  | .dir _ => .error (.file .isDirectory)
  | .absent e => .error (.file e)

/-- Whether the name of a file ends in `.lra` with something before it. -/
def isScriptName (path : String) : Bool :=
  match path.toList.reverse with
  | 'a' :: 'r' :: 'l' :: '.' :: c :: _ => c ≠ '/'
  | _ => false

def joinPath (dir below : String) : String := if dir.endsWith "/" then dir ++ below else dir ++ "/" ++ below

/-- Solves the scripts among the files below a directory, up to the first failure; other files are passed over. -/
def solveFiles (o : Options) (dir : String) :
    List (String × Except FileError (List UInt8)) → Progress × Option Failure
  | [] => (.none, none)
  | (below, content) :: rest =>
    let path := joinPath dir below
    if isScriptName below then
      match content with
      | .error e => (.none, some (.file e))
      | .ok bytes =>
        match solveBytes o path bytes with
        | .error e => (.none, some e)
        | .ok p =>
          let (q, failure) := solveFiles o dir rest
          (p ++ q, failure)
    else
      let (q, failure) := solveFiles o dir rest
      ((⟨[], ["Skipping non-problem file: " ++ path], true⟩ : Progress) ++ q, failure)

/-- Solves what was found under the path, which must be a directory. -/
def solveDir (o : Options) (path : String) : Found → Progress × Option Failure
  | .dir files => solveFiles o path files
  | _ => (.none, some (.notDirectory path))

def single : Except Failure Progress → Progress × Option Failure
  | .ok p => (p, none)
  | .error e => (.none, some e)

/-! ### Reports -/

def finish : Progress × Option Failure → Report
  | (p, some e) => ⟨1, p.out, p.err ++ ["Error: " ++ e.message]⟩
  | (p, none) => if p.verified then ⟨0, p.out, p.err⟩ else ⟨1, p.out, p.err ++ ["Verification failed"]⟩

def usageLines : List String :=
  ["Usage: lra [options] [path]", "       lra file --path <path> [options]", "       lra text --input <script> [options]",
    "       lra dir --path <path> [options]", "       lra completions <shell>", "       lra help [command]"]

def completionWords : List String :=
  ["file", "text", "dir", "completions", "help"] ++ commonSpellings.map fun sp => "--" ++ sp.long

/-- What the program is to look up before it can answer the arguments. -/
def pathOf : Except Stop Request → Option String
  | .ok ⟨.file path, _⟩ | .ok ⟨.dir path, _⟩ | .ok ⟨.path path, _⟩ => some path
  | _ => none

/-- Whether the files below a directory are needed to answer the arguments. -/
def wantsFiles : Except Stop Request → Bool
  | .ok ⟨.dir _, _⟩ | .ok ⟨.path _, _⟩ => true
  | _ => false

/-- The answer of the program, given what its path leads to. -/
def answer (r : Except Stop Request) (found : Found) : Report :=
  match r with
  | .error .usage => ⟨2, [], usageLines⟩
  | .error .help => ⟨0, usageLines, []⟩
  | .error .version => ⟨0, ["lra 0.1.0"], []⟩
  | .ok ⟨task, o⟩ =>
    match task with
    | .none => ⟨1, [], ["No command provided. Use --help for more information."]⟩
    | .completions => ⟨0, completionWords, []⟩
    | .text script => finish (single (solveText o script))
    | .file path => finish (single (solveFile o path found))
    | .dir path => finish (solveDir o path found)
    | .path path =>
      match found with
      | .dir _ => finish (solveDir o path found)
      | _ => finish (single (solveFile o path found))

end LinReal.Program
