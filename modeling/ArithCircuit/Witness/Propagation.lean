import ArithCircuit.Hint.Registry
import ArithCircuit.System.Basic
import ArithCircuit.Witness.Isolation

/-!
# Propagation of known values

Running hints and solving constraints are tasks, scheduled in the order of the constraints with each
hint at its position. A pass tries every task that is not done. A task that is done is dropped, so
there are at most as many passes with progress as there are tasks.
-/

namespace ArithCircuit

inductive SolveError (F : PrimeField) where
  | missingInput (role : Role) (index : Nat) (name : String)
  | extraInput (role : Role) (expected got : Nat)
  | underdetermined (wire : Nat)
  | violated (index : Nat) (violation : Violation F)
  | hint (error : HintError)
  /-- A constraint or hint binding mentions a wire that the system does not have. -/
  | wireOutOfRange
deriving DecidableEq

variable {F : PrimeField}

def SolveError.message : SolveError F → String
  | .missingInput role index name =>
    "missing value for " ++ role.name ++ s!" input #{index} `{name}`"
  | .extraInput role expected got =>
    s!"{got} " ++ role.name ++ s!" values supplied but only {expected} inputs are declared"
  | .underdetermined wire => s!"underdetermined system: variable {wire} cannot be solved"
  | .violated index violation => s!"constraint #{index} is not satisfied: " ++ violation.message
  | .hint error => error.message
  | .wireOutOfRange => "a wire is out of range"

inductive Task (F : PrimeField) where
  | hint (binding : HintBinding)
  | constraint (index : Nat) (c : Constraint F)
deriving DecidableEq

/-- The hints bound at a position, in binding order. -/
def hintTasks (bindings : List HintBinding) (position : Nat) : List (Task F) :=
  (bindings.filter (·.position = position)).map .hint

/-- The tasks of constraints from an index on, each after the hints bound at its index, and the
hints bound after the last constraint. -/
def schedule (bindings : List HintBinding) : Nat → List (Constraint F) → List (Task F)
  | index, [] => hintTasks bindings index
  | index, c :: rest =>
    hintTasks bindings index ++ .constraint index c :: schedule bindings (index + 1) rest

/-- The outcome of trying a task. -/
inductive Attempt (F : PrimeField) where
  /-- The task has to wait for more values. -/
  | waiting
  /-- The task is done and taught nothing. -/
  | settled
  /-- The task is done, and more may be known now. -/
  | learned (known : Knowledge F)

/-- Solves a constraint for its only unknown wire. A constraint that is not linear in it has to wait. -/
def Constraint.isolate (known : Knowledge F) (unknown : Wire) (c : Constraint F) : Attempt F :=
  match c.isolate? known unknown with
  | some value => .learned (known.learn unknown value)
  | none => .waiting

/-- The set of wires marked in an array. -/
def markWires (count : Nat) (wires : List Wire) : Array Bool :=
  wires.foldl (fun marks wire => marks.setIfInBounds wire.index true) (Array.replicate count false)

/-- What stays the same while a system is solved. -/
structure SolvingContext (F : PrimeField) where
  registry : HintRegistry
  /-- The wires that only their hint may give a value. -/
  hintOwned : Array Bool
  /-- The wires that need a value. -/
  mentioned : Array Bool

namespace SolvingContext

def ofSystem (registry : HintRegistry) (system : System F) : SolvingContext F where
  registry
  hintOwned := markWires system.wireCount (system.hints.flatMap (·.outputs))
  mentioned := markWires system.wireCount system.mentioned

/-- Runs a hint once all of its inputs are known. -/
def fire (context : SolvingContext F) (binding : HintBinding) (known : Knowledge F) :
    Except (SolveError F) (Attempt F) :=
  match known.getAll? binding.inputs with
  | none => .ok .waiting
  | some inputs =>
    match context.registry.invoke binding.name F.modulus (inputs.map PrimeField.toNumber)
        binding.outputs.length with
    | .error error => .error (.hint error)
    | .ok outputs => .ok (.learned (known.learnAll binding.outputs (outputs.map F.ofNumber)))

/-- Solves a constraint for its unknown wire, if it has a single one that no hint owns, and checks
it if it has none. -/
def resolve (context : SolvingContext F) (index : Nat) (c : Constraint F) (known : Knowledge F) :
    Except (SolveError F) (Attempt F) :=
  match c.wires.filter fun wire => (known.get? wire).isNone with
  | [] =>
    match c.violation? known.valueOrZero with
    | some violation => .error (.violated index violation)
    | none => .ok .settled
  | unknown :: others =>
    if others.all (· = unknown) && !context.hintOwned.getD unknown.index false then
      .ok (c.isolate known unknown)
    else .ok .waiting

def attempt (context : SolvingContext F) (known : Knowledge F) : Task F →
    Except (SolveError F) (Attempt F)
  | .hint binding => context.fire binding known
  | .constraint index c => context.resolve index c known

/-- The state after a pass: the tasks still to do and whether some task taught something. -/
structure Pass (F : PrimeField) where
  known : Knowledge F
  pending : List (Task F)
  progress : Bool
  error? : Option (SolveError F)

/-- Tries the tasks in order until one fails. -/
def pass (context : SolvingContext F) : List (Task F) → Knowledge F → Pass F
  | [], known => ⟨known, [], false, none⟩
  | task :: rest, known =>
    match context.attempt known task with
    | .error error => ⟨known, task :: rest, false, some error⟩
    | .ok .waiting =>
      let after := context.pass rest known
      { after with pending := task :: after.pending }
    | .ok .settled => context.pass rest known
    | .ok (.learned known) => { context.pass rest known with progress := true }

/-- The least wire that needs a value and has none. -/
def leastUnknown? (context : SolvingContext F) (known : Knowledge F) : Option Nat :=
  (List.range context.mentioned.size).find? fun index =>
    context.mentioned.getD index false && (known.get? ⟨index⟩).isNone

/-- The state after the last pass. -/
structure Propagation (F : PrimeField) where
  known : Knowledge F
  passes : Nat
  error? : Option (SolveError F)

/-- Passes over the pending tasks until no needed value is missing, a task fails, or a pass makes no
progress; `fuel` bounds the number of further passes. -/
def propagate (context : SolvingContext F) :
    (fuel : Nat) → (passes : Nat) → List (Task F) → Knowledge F → Propagation F
  | 0, passes, _, known => ⟨known, passes, none⟩
  | fuel + 1, passes, pending, known =>
    match context.leastUnknown? known with
    | none => ⟨known, passes, none⟩
    | some wire =>
      let after := context.pass pending known
      match after.error? with
      | some error => ⟨after.known, passes + 1, some error⟩
      | none =>
        if after.progress then context.propagate fuel (passes + 1) after.pending after.known
        else ⟨after.known, passes + 1, some (.underdetermined wire)⟩

end SolvingContext

end ArithCircuit
