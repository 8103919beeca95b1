/-!
The arguments of the program.

    [options] [path]
    file --path path [options]
    text --input script [options]
    dir --path path [options]
    completions shell
    help [command]

Arguments are read one after the other. An option that takes a value waits for it, and what waits is accepted, with
its value, only when the next option or operand comes or the arguments end; so an earlier mistake is found first, but a
request for help before it wins. The name of a command is recognised wherever no value is waited for; its own options
follow it, and those before it count for nothing.
-/

namespace LinReal.Program

inductive Opt where
  | debug
  | verbose
  | verify
  | stats
  | printModel
  | noEarlyConflict
  | heuristicLimit
  | paranoid
  | input
  | path
  | help
  | version
deriving DecidableEq, Repr

/-- What an option takes, and what becomes of it. -/
inductive Kind where
  | flag
  | repeatable
  | valued
  /-- Ends the reading with a text for the user. -/
  | informing
deriving DecidableEq, Repr

structure Spelling where
  opt : Opt
  kind : Kind
  long : String
  short : Option Char
deriving Repr

/-- Where arguments are read: before any command, or after one. -/
inductive Level where
  | top
  | file
  | text
  | dir
  | completions
deriving DecidableEq, Repr

namespace Level

def ofName? : String → Option Level
  | "file" => some file
  | "text" => some text
  | "dir" => some dir
  | "completions" => some completions
  | _ => none

end Level

/-- The options that say how to solve and what to print. -/
def commonSpellings : List Spelling :=
  [⟨.debug, .flag, "debug", some 'd'⟩, ⟨.verbose, .repeatable, "verbose", some 'v'⟩, ⟨.verify, .flag, "verify", none⟩,
    ⟨.stats, .flag, "stats", some 's'⟩, ⟨.printModel, .flag, "print-model", some 'p'⟩,
    ⟨.noEarlyConflict, .flag, "no-early-conflict", none⟩, ⟨.heuristicLimit, .valued, "heuristic-limit", none⟩,
    ⟨.paranoid, .flag, "paranoid", none⟩]

/-- The options of a level. -/
def spellings (level : Level) : List Spelling :=
  let help : Spelling := ⟨.help, .informing, "help", some 'h'⟩
  match level with
  | .top => commonSpellings ++ [help, ⟨.version, .informing, "version", some 'V'⟩]
  | .file | .dir => commonSpellings ++ [help, ⟨.path, .valued, "path", none⟩]
  | .text => commonSpellings ++ [help, ⟨.input, .valued, "input", some 'i'⟩]
  | .completions => [help]

/-- Why the reading ends without a request. -/
inductive Stop where
  | usage
  | help
  | version
deriving DecidableEq, Repr

structure Options where
  verify : Bool
  stats : Bool
  printModel : Bool
  noEarlyConflict : Bool
  heuristicLimit : Option Nat
  paranoid : Bool
deriving DecidableEq, Repr

inductive Task where
  | text (script : String)
  | file (path : String)
  | dir (path : String)
  /-- Solve a file, or every script below a directory, whichever the path leads to. -/
  | path (path : String)
  | completions
  | none
deriving DecidableEq, Repr

structure Request where
  task : Task
  options : Options
deriving DecidableEq, Repr

/-- What a value belongs to. -/
inductive Target where
  | option (o : Opt)
  | operand
deriving DecidableEq, Repr

structure Reading where
  level : Level
  /-- The options and operands that have been accepted, the latest first. -/
  accepted : List (Target × String)
  /-- What waits to be accepted, with its value if that has come. -/
  waiting : Option (Target × Option String)
  /-- Whether what follows can be operands only. -/
  operandsOnly : Bool
deriving DecidableEq, Repr

namespace Reading

def start (level : Level) : Reading := ⟨level, [], none, false⟩

/-- The accepted value of an option or of the operand. -/
def value? (r : Reading) (t : Target) : Option String := r.accepted.lookup t

def has (r : Reading) (o : Opt) : Bool := (r.value? (.option o)).isSome

def awaitsValue (r : Reading) : Bool :=
  match r.waiting with
  | some (_, none) => true
  | _ => false

end Reading

/-- The greatest number that can be given as a limit. -/
def greatestLimit : Nat := 18446744073709551615

/-- Reads a limit: digits, after a plus sign or not. -/
def limit? (s : String) : Option Nat :=
  let digits := match s.toList with
    | '+' :: cs => cs
    | cs => cs
  if digits.isEmpty || !digits.all Char.isDigit then none
  else
    let n := digits.foldl (fun n c => 10 * n + (c.toNat - '0'.toNat)) 0
    if n ≤ greatestLimit then some n else none

def shells : List String := ["bash", "elvish", "fish", "powershell", "zsh"]

def isValue (level : Level) (t : Target) (s : String) : Bool :=
  match t with
  | .option .heuristicLimit => (limit? s).isSome
  | .option .path => !s.isEmpty
  | .option _ => true
  | .operand =>
    match level with
    | .completions => shells.contains s
    | _ => !s.isEmpty

def accept (r : Reading) (t : Target) (s : String) : Except Stop Reading :=
  if isValue r.level t s && (r.value? t).isNone then .ok { r with accepted := (t, s) :: r.accepted }
  else .error .usage

def settle (r : Reading) : Except Stop Reading :=
  match r.waiting with
  | none => .ok r
  | some (t, some s) => accept { r with waiting := none } t s
  | some (_, none) => .error .usage

/-- Reads an option that takes no value. -/
def readFlag (r : Reading) (sp : Spelling) : Except Stop Reading := do
  let r ← settle r
  match sp.kind with
  | .informing => .error (if sp.opt = .version then .version else .help)
  | .repeatable => .ok { r with accepted := (.option sp.opt, "") :: r.accepted }
  | _ => accept r (.option sp.opt) ""

/-- Reads an option that takes a value, which may be attached to it. -/
def readValued (r : Reading) (sp : Spelling) (attached : Option String) : Except Stop Reading := do
  let r ← settle r
  match attached with
  | some s => accept r (.option sp.opt) s
  | none => .ok { r with waiting := some (.option sp.opt, none) }

/-- Reads the letters after a single dash. -/
def readShort (r : Reading) : List Char → Except Stop Reading
  | [] => .ok r
  | c :: cs =>
    match (spellings r.level).find? (·.short = some c) with
    | none => .error .usage
    | some sp =>
      if sp.kind = .valued then
        match cs with
        | [] => readValued r sp none
        | '=' :: value => readValued r sp (some (String.ofList value))
        | value => readValued r sp (some (String.ofList value))
      else do readShort (← readFlag r sp) cs

def splitValue : List Char → List Char × Option (List Char)
  | [] => ([], none)
  | c :: cs => if c = '=' then ([], some cs) else let (name, value) := splitValue cs; (c :: name, value)

/-- Reads what stands after two dashes. -/
def readLong (r : Reading) (word : List Char) : Except Stop Reading :=
  let (name, value) := splitValue word
  match (spellings r.level).find? (·.long = String.ofList name) with
  | none => .error .usage
  | some sp =>
    if sp.kind = .valued then readValued r sp (value.map String.ofList)
    else if value.isSome then .error .usage
    else readFlag r sp

/-- Reads an operand: the path, or the shell for completions. -/
def readOperand (r : Reading) (word : String) : Except Stop Reading := do
  let r' ← settle r
  if (r.level = .top || r.level = .completions) && (r'.value? .operand).isNone then
    .ok { r' with waiting := some (.operand, some word) }
  else .error .usage

/-- Reads a word that is not the name of a command. -/
def readWord (r : Reading) (word : String) : Except Stop Reading :=
  if r.operandsOnly then readOperand r word
  else
    match word.toList with
    | ['-', '-'] => .ok { r with operandsOnly := true }
    | '-' :: '-' :: cs => readLong r cs
    | '-' :: c :: cs => readShort r (c :: cs)
    | _ =>
      match r.waiting with
      | some (t, none) => .ok { r with waiting := some (t, some word) }
      | _ => readOperand r word

def readAll (r : Reading) (words : List String) : Except Stop Reading := do settle (← words.foldlM readWord r)

def options (r : Reading) : Options where
  verify := r.has .verify
  stats := r.has .stats
  printModel := r.has .printModel
  noEarlyConflict := r.has .noEarlyConflict
  heuristicLimit := (r.value? (.option .heuristicLimit)).bind limit?
  paranoid := r.has .paranoid

/-- A task that needs a value. -/
def requireValue (r : Reading) (t : Target) (task : String → Task) : Except Stop Request :=
  match r.value? t with
  | some s => .ok ⟨task s, options r⟩
  | none => .error .usage

/-- The request of a command, once all its words are read. -/
def request (r : Reading) : Except Stop Request :=
  match r.level with
  | .top => .ok ⟨((r.value? .operand).map Task.path).getD .none, options r⟩
  | .file => requireValue r (.option .path) .file
  | .dir => requireValue r (.option .path) .dir
  | .text => requireValue r (.option .input) .text
  | .completions => requireValue r .operand fun _ => .completions

/-- Reads the words after `help`: at most the name of a command. -/
def readHelp : List String → Stop
  | [] => .help
  | [name] => if (Level.ofName? name).isSome || name = "help" then .help else .usage
  | _ => .usage

/-- Reads the arguments of the program, given what has been read of them. -/
def readFrom (r : Reading) : List String → Except Stop Request
  | [] => do request (← settle r)
  | word :: rest =>
    if r.operandsOnly || r.awaitsValue then do readFrom (← readWord r word) rest
    else if word = "help" then .error (readHelp rest)
    else
      match Level.ofName? word with
      | some level => do
        let sub ← request (← readAll (.start level) rest)
        let _ ← settle r
        return sub
      | none => do readFrom (← readWord r word) rest

def readArguments (arguments : List String) : Except Stop Request := readFrom (.start .top) arguments

end LinReal.Program
