import ArithCircuit.Hint.Binding
import ArithCircuit.Hint.Name
import ArithCircuit.Text.Quoted

/-!
# The hint registry

A registry maps canonical names to handlers. The first registration of a name stays, and a hint
runs only on as many inputs and outputs as it was registered for.
-/

namespace ArithCircuit

inductive Arity where
  | exactly (count : Nat)
  | any
deriving DecidableEq

/-- Why a handler gives no values: it refuses its inputs, or its arithmetic is undefined on them (a
difference below zero, a remainder by zero). -/
inductive HandlerFailure where
  | refused (reason : String)
  | undefinedArithmetic
deriving DecidableEq

/-- From a modulus, the inputs and the number of outputs to the outputs. Outputs left out are zero,
and surplus ones are dropped. -/
abbrev Handler := (modulus : Nat) → (inputs : List Nat) → (outputs : Nat) →
  Except HandlerFailure (List Nat)

inductive HintSide where
  | inputs
  | outputs
deriving DecidableEq

def HintSide.name : HintSide → String
  | .inputs => "inputs"
  | .outputs => "outputs"

inductive HintError where
  | unknown (name : String)
  | arityMismatch (name : String) (side : HintSide) (expected got : Nat)
  | failed (name : String) (inputs : List Nat) (reason : String)
  | undefinedArithmetic (name : String)
deriving DecidableEq

def HintError.message : HintError → String
  | .unknown name => s!"unknown hint `{name}`"
  | .arityMismatch name side expected got =>
    s!"hint `{name}` expects {expected} " ++ side.name ++ s!", got {got}"
  | .failed name inputs reason =>
    s!"hint `{name}` failed on inputs " ++ Text.quoteList (inputs.map toString) ++ ": " ++ reason
  | .undefinedArithmetic name => s!"hint `{name}` computes with undefined numbers"

structure RegisteredHint where
  name : String
  inputs : Arity
  outputs : Arity
  handler : Handler

/-- The hints in increasing order of their canonical names. -/
structure HintRegistry where
  hints : List RegisteredHint := []

/-- The canonical name is taken already. -/
structure DuplicateHint where
  name : String
deriving DecidableEq

def DuplicateHint.message (error : DuplicateHint) : String :=
  s!"hint `{error.name}` is already registered"

/-- Puts a hint before the first one with a greater name. -/
def insertHint (hint : RegisteredHint) : List RegisteredHint → List RegisteredHint
  | [] => [hint]
  | other :: rest =>
    if hint.name < other.name then hint :: other :: rest else other :: insertHint hint rest

namespace HintRegistry

def empty : HintRegistry := {}

def names (registry : HintRegistry) : List String := registry.hints.map (·.name)

/-- The hint with this canonical name. -/
def find? (registry : HintRegistry) (canonical : String) : Option RegisteredHint :=
  registry.hints.find? (·.name = canonical)

def contains (registry : HintRegistry) (name : String) : Bool :=
  (registry.find? (canonicalName name)).isSome

def register (registry : HintRegistry) (name : String) (inputs outputs : Arity)
    (handler : Handler) : Except DuplicateHint HintRegistry :=
  let canonical := canonicalName name
  if registry.contains name then .error ⟨canonical⟩
  else .ok ⟨insertHint ⟨canonical, inputs, outputs, handler⟩ registry.hints⟩

def checkArity (name : String) (side : HintSide) (arity : Arity) (got : Nat) : Except HintError Unit :=
  match arity with
  | .exactly expected =>
    if expected = got then .ok () else .error (.arityMismatch name side expected got)
  | .any => .ok ()

/-- The hint of this name, if it takes so many inputs and gives so many outputs. -/
def lookup (registry : HintRegistry) (name : String) (inputs outputs : Nat) :
    Except HintError RegisteredHint := do
  let canonical := canonicalName name
  match registry.find? canonical with
  | none => .error (.unknown canonical)
  | some hint =>
    checkArity canonical .inputs hint.inputs inputs
    checkArity canonical .outputs hint.outputs outputs
    return hint

/-- Whether the binding names a hint of its shape. -/
def check (registry : HintRegistry) (binding : HintBinding) : Except HintError Unit := do
  discard <| registry.lookup binding.name binding.inputs.length binding.outputs.length

/-- Exactly `outputs` values, each reduced by the modulus. -/
def reduceOutputs (modulus outputs : Nat) (values : List Nat) : List Nat :=
  (List.range outputs).map fun i => values.getD i 0 % modulus

/-- Runs a hint. Reducing its outputs by a modulus of zero is undefined. -/
def invoke (registry : HintRegistry) (name : String) (modulus : Nat) (inputs : List Nat)
    (outputs : Nat) : Except HintError (List Nat) := do
  let hint ← registry.lookup name inputs.length outputs
  match hint.handler modulus inputs outputs with
  | .error (.refused reason) => .error (.failed hint.name inputs reason)
  | .error .undefinedArithmetic => .error (.undefinedArithmetic hint.name)
  | .ok values =>
    if modulus = 0 ∧ outputs ≠ 0 then .error (.undefinedArithmetic hint.name)
    else .ok (reduceOutputs modulus outputs values)

/-- The registry with the quoted names of its hints. -/
def describe (registry : HintRegistry) : String :=
  "HintRegistry \x7b hints: " ++ Text.quoteList registry.names ++ " \x7d"

end HintRegistry

end ArithCircuit
