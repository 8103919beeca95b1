import LinReal.Script.Basic
import LinReal.Text.Words

/-!
Reading scripts. A script is read line by line; the first word of a line says what it is.

    c                        a comment
    v name ...               declares variables
    r name (name number)...  defines the first variable by a row
    b name relation number   asserts a bound
    push, pop, check         the other commands

The first mistake ends the reading. A row may define a variable only if no row has defined or used it before, so the
rows of a script that was read define their variables one after the other.
-/

namespace LinReal

inductive Mistake where
  | unknownCommand (word : String)
  | popWithoutPush
  | rowWithoutVariable
  | rowWithoutPairs
  | boundWithoutParts
  | unknownRelation (word : String)
  | invalidNumber (word : String)
  | unknownVariable (name : String)
  | declaredTwice (name : String)
  /-- A row for a variable that some row has defined or used, or that occurs in its own definition. -/
  | undefinable (name : String)
deriving DecidableEq, Repr

namespace Mistake

def message : Mistake → String
  | unknownCommand word => s!"unknown command `{word}`"
  | popWithoutPush => "`pop` without a matching `push`"
  | rowWithoutVariable => "`r` needs a variable to define"
  | rowWithoutPairs => "`r` needs `variable coefficient` pairs"
  | boundWithoutParts => "`b` needs `variable relation constant`"
  | unknownRelation word => s!"unknown relation `{word}`"
  | invalidNumber word => s!"invalid number `{word}`"
  | unknownVariable name => s!"unknown variable `{name}`"
  | declaredTwice name => s!"variable `{name}` declared twice"
  | undefinable name => s!"`{name}` cannot be defined by a row here"

end Mistake

inductive ScriptError where
  /-- The line with this number, counted from one, has a mistake. -/
  | mistake (line : Nat) (m : Mistake)
  /-- A line is not UTF-8. -/
  | notText
deriving DecidableEq, Repr

namespace ScriptError

def message : ScriptError → String
  | mistake line m => s!"line {line}: " ++ m.message
  | notText => "I/O error: stream did not contain valid UTF-8"

end ScriptError

/-- The lines that have been read. -/
structure Reader where
  script : Script
  /-- The variables that rows have defined. -/
  defined : List Var
  /-- The variables that occur in the definitions of rows. -/
  used : List Var
  depth : Nat
deriving DecidableEq, Repr

namespace Reader

def start : Reader := ⟨.empty, [], [], 0⟩

instance : Inhabited Reader := ⟨start⟩

def command (r : Reader) (c : Command) : Reader :=
  { r with script := { r.script with commands := r.script.commands.push c } }

/-- Declares the next variable, under a name that is not taken yet. -/
def declare (r : Reader) (name : String) : Except Mistake Reader :=
  if r.script.index.contains name then .error (.declaredTwice name)
  else .ok { r with script := r.script.withVariable name }

def lookUp (r : Reader) (name : String) : Except Mistake Var :=
  match r.script.varNamed? name with
  | some x => .ok x
  | none => .error (.unknownVariable name)

def number (word : String) : Except Mistake Rat :=
  match Numeral.read? word with
  | some q => .ok q
  | none => .error (.invalidNumber word)

/-- Reads the terms of the definition of `basic`, which is called `name`. -/
def terms (r : Reader) (basic : Var) (name : String) : List String → Except Mistake LinearForm
  | x :: a :: rest => do
    let x ← r.lookUp x
    if x = basic then .error (.undefinable name)
    else do
      let a ← number a
      return (x, a) :: (← terms r basic name rest)
  | _ => .ok []

def row (r : Reader) : List String → Except Mistake Reader
  | [] => .error .rowWithoutVariable
  | name :: words =>
    if words.isEmpty || words.length % 2 ≠ 0 then .error .rowWithoutPairs
    else do
      let basic ← r.lookUp name
      if basic ∈ r.defined ∨ basic ∈ r.used then .error (.undefinable name)
      else do
        let definition ← r.terms basic name words
        return { r.command (.row basic definition) with
          defined := basic :: r.defined
          used := definition.vars ++ r.used }

def bound (r : Reader) : List String → Except Mistake Reader
  | [name, relation, constant] => do
    let x ← r.lookUp name
    match Relation.read? relation with
    | none => .error (.unknownRelation relation)
    | some relation =>
      let constant ← number constant
      let ordinal := r.script.literals.size
      let r := { r with script := { r.script with literals := r.script.literals.push ⟨x, relation, constant⟩ } }
      return r.command (.bound ordinal)
  | _ => .error .boundWithoutParts

def line (r : Reader) : List String → Except Mistake Reader
  | [] => .ok r
  | "c" :: _ => .ok r
  | "v" :: names => names.foldlM declare r
  | "r" :: words => r.row words
  | "b" :: words => r.bound words
  | "push" :: _ => .ok { r.command .push with depth := r.depth + 1 }
  | "pop" :: _ => if r.depth = 0 then .error .popWithoutPush else .ok { r.command .pop with depth := r.depth - 1 }
  | "check" :: _ => .ok (r.command .check)
  | word :: _ => .error (.unknownCommand word)

/-- Reads lines, the first of which has the given number. -/
def lines (r : Reader) (number : Nat) : List (Option String) → Except ScriptError Reader
  | [] => .ok r
  | none :: _ => .error .notText
  | some text :: rest =>
    match r.line (Text.words text) with
    | .ok r => lines r (number + 1) rest
    | .error m => .error (.mistake number m)

end Reader

namespace Script

/-- Reads a script from its lines. -/
def ofLines (lines : List (Option String)) : Except ScriptError Script := (Reader.start.lines 1 lines).map (·.script)

def read (text : String) : Except ScriptError Script := ofLines ((Text.lines text).map some)

/-- Reads a script from the bytes of a file. -/
def readBytes (bytes : List UInt8) : Except ScriptError Script := ofLines (Text.byteLines bytes)

end Script

end LinReal
