import LinReal.LinearForm
import LinReal.Numeral
import Std.Data.ExtTreeMap

/-!
Scripts: what they consist of, and how a bound is written. A script declares variables and runs commands, which define
variables by rows, assert bounds, open and close scopes, and check whether the bounds in force can hold together. The
token of a bound is its ordinal, its position among the bounds of the script.
-/

namespace LinReal

inductive Relation where
  | ge
  | gt
  | le
  | lt
  | eq
deriving DecidableEq, Repr

namespace Relation

/-- Whether `a` stands in the relation to `b`. -/
def holds : Relation → (a b : Rat) → Bool
  | ge, a, b => b ≤ a
  | gt, a, b => b < a
  | le, a, b => a ≤ b
  | lt, a, b => a < b
  | eq, a, b => a = b

def text : Relation → String
  | ge => ">="
  | gt => ">"
  | le => "<="
  | lt => "<"
  | eq => "="

/-- Reads a sign; equality may be doubled. -/
def read? : String → Option Relation
  | ">=" => some ge
  | ">" => some gt
  | "<=" => some le
  | "<" => some lt
  | "=" => some eq
  | "==" => some eq
  | _ => none

@[simp] theorem read?_text (r : Relation) : read? r.text = some r := by cases r <;> rfl

end Relation

structure Literal where
  var : Var
  relation : Relation
  constant : Rat
deriving DecidableEq, Repr

namespace Literal

/-- The limit that the bound sets, its strictness folded into the infinitesimal part. -/
def limit (l : Literal) : DeltaRat :=
  match l.relation with
  | .gt => .strictlyAbove l.constant
  | .lt => .strictlyBelow l.constant
  | .ge | .le | .eq => .ofRat l.constant

/-- Whether the bound holds when variables have these values. -/
def holds (l : Literal) (v : Var → Rat) : Prop := l.relation.holds (v l.var) l.constant = true

end Literal

inductive Command where
  | row (basic : Var) (definition : LinearForm)
  /-- Asserts the bound with this ordinal. -/
  | bound (ordinal : Nat)
  | push
  | pop
  /-- Asks whether the bounds in force can hold together. -/
  | check
deriving DecidableEq, Repr

/-- A script: the names of its variables, its bounds, and its commands. -/
structure Script where
  names : Array String
  /-- The variables by their names. -/
  index : Std.ExtTreeMap String Var
  literals : Array Literal
  commands : Array Command
deriving DecidableEq, Repr

namespace Script

def empty : Script := ⟨#[], ∅, #[], #[]⟩

instance : Inhabited Script := ⟨empty⟩

def variableCount (s : Script) : Nat := s.names.size

/-- The script with one more variable, which the index has under its name. -/
def withVariable (s : Script) (name : String) : Script :=
  { s with names := s.names.push name, index := s.index.insert name s.names.size }

/-- The variable that was declared under a name. -/
def varNamed? (s : Script) (name : String) : Option Var := s.index[name]?

/-- The bound with an ordinal, which must exist. -/
def literal (s : Script) (ordinal : Nat) : Except Fault Literal :=
  match s.literals[ordinal]? with
  | some l => .ok l
  | none => .error .outOfRange

def rows (s : Script) : List (Var × LinearForm) :=
  s.commands.toList.filterMap fun
    | .row x d => some (x, d)
    | _ => none

/-- The bound with an ordinal, as it is written in a script. -/
def describe (s : Script) (ordinal : Nat) : Except Fault String := do
  let l ← s.literal ordinal
  match s.names[l.var]? with
  | some name => return name ++ " " ++ l.relation.text ++ " " ++ Numeral.write l.constant
  | none => .error .outOfRange

end Script

end LinReal
