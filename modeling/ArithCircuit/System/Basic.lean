import ArithCircuit.Constraint.Basic
import ArithCircuit.Hint.Binding

/-!
# Constraint systems

The result of compiling a circuit. The numbering of the wires and the order of the constraints are
part of its identity.
-/

namespace ArithCircuit

structure System (F : PrimeField) where
  roles : List Role
  publicInputs : List Input
  secretInputs : List Input
  constraints : Constraints F
  hints : List HintBinding
deriving DecidableEq

/-- The size of a system. -/
structure Stats where
  constraints : Nat
  wires : Nat
  publicInputs : Nat
  secretInputs : Nat
  internal : Nat
  hints : Nat
deriving DecidableEq

variable {F : PrimeField}

namespace System

def backend (system : System F) : Backend := system.constraints.backend

def wireCount (system : System F) : Nat := system.roles.length

def constraintCount (system : System F) : Nat := system.constraints.size

def stats (system : System F) : Stats where
  constraints := system.constraintCount
  wires := system.wireCount
  publicInputs := system.publicInputs.length
  secretInputs := system.secretInputs.length
  internal := system.roles.count .internal
  hints := system.hints.length

/-- The wires that some constraint or hint binding mentions. -/
def mentioned (system : System F) : List Wire :=
  system.constraints.toList.flatMap (·.wires) ++ system.hints.flatMap (·.wires)

/-! ## Satisfaction -/

/-- Every constraint holds. -/
def Satisfied (system : System F) (value : Wire → F.Elem) : Prop :=
  ∀ c ∈ system.constraints.toList, c.Holds value

/-- For each constraint, the values under which it fails. -/
def violations (system : System F) (value : Wire → F.Elem) : List (Option (Violation F)) :=
  system.constraints.toList.map (·.violation? value)

/-- The first constraint that fails. -/
def firstViolation? (system : System F) (value : Wire → F.Elem) : Option (Nat × Violation F) :=
  (system.violations value).zipIdx.findSome? fun (violation, index) => violation.map (index, ·)

/-- Whether so many values are enough for the wires of all constraints. -/
def coveredBy (system : System F) (count : Nat) : Bool :=
  system.constraints.toList.all fun c => c.wires.all (·.index < count)

/-- For each constraint how it fails under the values; `none` if a needed value is missing. -/
def violations? (system : System F) (values : Array F.Elem) :
    Option (List (Option (Violation F))) :=
  if system.coveredBy values.size then
    some (system.violations (Wire.valueIn values))
  else none

end System

end ArithCircuit
