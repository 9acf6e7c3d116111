import ArithCircuit.Hint.Name
import ArithCircuit.Linear.Combination
import ArithCircuit.System.Basic

/-!
# Drafts of constraint systems

A draft is the system that a circuit has put together so far. A synthesis step changes the draft and
gives a result or an error; an error keeps the draft as it was when the error arose.
-/

namespace ArithCircuit

/-- What a circuit asks for that no constraint system can express. -/
inductive Malformation where
  | nonBooleanCondition
  | decompositionWidth (width numBits : Nat)
  | constantTooWide (width : Nat)
  | missingOutput
  | nonBooleanConstant
  | distinctConstants
deriving DecidableEq

def Malformation.message : Malformation → String
  | .nonBooleanCondition => "select condition is a non-boolean constant"
  | .decompositionWidth width numBits =>
    s!"cannot decompose into {width} bits (field has {numBits})"
  | .constantTooWide width => s!"constant does not fit in {width} bits"
  | .missingOutput => "hint produced no output"
  | .nonBooleanConstant => "boolean assertion on a non-boolean constant"
  | .distinctConstants => "equality between two distinct constants"

/-- Each error names the number of constraints before it. -/
inductive SynthesisError where
  | divisionByZero (constraint : Nat)
  | malformed (constraint : Nat) (reason : Malformation)
deriving DecidableEq

def SynthesisError.message : SynthesisError → String
  | .divisionByZero constraint => s!"division by the constant zero (at constraint {constraint})"
  | .malformed constraint reason =>
    s!"malformed circuit (at constraint {constraint}): " ++ reason.message

/-- A system in the making, with constraints of type `κ`. -/
structure Draft (F : PrimeField) (κ : Type) where
  wires : WireTable := {}
  constraints : Array κ := #[]
  hints : Array HintBinding := #[]
  /-- Whether known constants are folded and share one wire for each value. -/
  sharesConstants : Bool
  /-- The wires already constrained to be zero or one. -/
  booleans : List Wire := []
  /-- The wires pinned to constants; empty unless constants are shared. -/
  constants : List (F.Elem × Wire) := []

abbrev Synthesis (F : PrimeField) (κ α : Type) := EStateM SynthesisError (Draft F κ) α

namespace Draft

variable {F : PrimeField} {κ : Type}

def constantWire? (draft : Draft F κ) (value : F.Elem) : Option Wire :=
  draft.constants.lookup value

def toSystem (draft : Draft F κ) (form : List κ → Constraints F) : System F where
  roles := draft.wires.roles.toList
  publicInputs := draft.wires.publicInputs.toList
  secretInputs := draft.wires.secretInputs.toList
  constraints := form draft.constraints.toList
  hints := draft.hints.toList

end Draft

namespace Synthesis

variable {F : PrimeField} {κ : Type}

/-- Fails at the current number of constraints. -/
def fail {α : Type} (error : Nat → SynthesisError) : Synthesis F κ α := do
  throw (error (← get).constraints.size)

def emit (constraint : κ) : Synthesis F κ Unit :=
  modify fun draft => { draft with constraints := draft.constraints.push constraint }

def freshWire : Synthesis F κ Wire :=
  modifyGet fun draft =>
    let (wire, wires) := draft.wires.allocate .internal
    (wire, { draft with wires })

def input (role : Role) (name : String) : Synthesis F κ (LinearCombination F) :=
  modifyGet fun draft =>
    let (wire, wires) := draft.wires.allocateInput role name
    (.ofWire wire, { draft with wires })

def publicInput (name : String) : Synthesis F κ (LinearCombination F) := input .publicInput name

def secretInput (name : String) : Synthesis F κ (LinearCombination F) := input .secretInput name

/-- Remembers the wire of a constant, if constants are shared. -/
def rememberConstant (value : F.Elem) (wire : Wire) : Synthesis F κ Unit :=
  modify fun draft =>
    if draft.sharesConstants then { draft with constants := (value, wire) :: draft.constants }
    else draft

def markBoolean (wire : Wire) : Synthesis F κ Unit :=
  modify fun draft => { draft with booleans := wire :: draft.booleans }

/-- So many fresh wires, in order. -/
def freshWires : Nat → Synthesis F κ (List Wire)
  | 0 => return []
  | n + 1 => return (← freshWire) :: (← freshWires n)

/-- Binds fresh wires to the outputs of a hint on the given wires, after the constraints so far. -/
def bindHint (name : String) (inputs : List Wire) (outputs : Nat) : Synthesis F κ (List Wire) := do
  let outputs ← freshWires outputs
  modify fun draft =>
    let binding := {
      name := canonicalName name, inputs, outputs, position := draft.constraints.size }
    { draft with hints := draft.hints.push binding }
  return outputs

end Synthesis

end ArithCircuit
