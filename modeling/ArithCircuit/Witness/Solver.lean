import ArithCircuit.Witness.Propagation

/-!
# Solving a system

A solver checks the shape of every hint binding, seeds the inputs, propagates values and verifies
the result. It keeps what the last run learned, whatever its outcome.
-/

namespace ArithCircuit

/-- What to do with more input values than declared inputs. -/
inductive SurplusInputs where
  | reject
  | ignore
deriving DecidableEq

def SurplusInputs.name : SurplusInputs → String
  | .reject => "Reject"
  | .ignore => "Ignore"

/-- A value for every wire of a system. -/
structure Witness (F : PrimeField) where
  values : Array F.Elem
  publicWires : List Wire
  secretWires : List Wire
deriving DecidableEq

structure Solver (F : PrimeField) where
  system : System F
  registry : HintRegistry
  surplus : SurplusInputs := .reject
  /-- What the last run learned. -/
  known : Knowledge F := {}
  /-- The passes of the last run that came to its first pass. -/
  passes : Nat := 0

variable {F : PrimeField}

namespace Witness

def value (witness : Witness F) (wire : Wire) : F.Elem := wire.valueIn witness.values

def publicValues (witness : Witness F) : List F.Elem := witness.publicWires.map witness.value

def secretValues (witness : Witness F) : List F.Elem := witness.secretWires.map witness.value

end Witness

/-- Gives declared inputs their values in order. -/
def seedInputs (surplus : SurplusInputs) (role : Role) (declared : List Input)
    (supplied : List F.Elem) (known : Knowledge F) : Except (SolveError F) (Knowledge F) :=
  match declared[supplied.length]? with
  | some input => .error (.missingInput role supplied.length input.name)
  | none =>
    if declared.length < supplied.length ∧ surplus = .reject then
      .error (.extraInput role declared.length supplied.length)
    else .ok (known.learnAll (declared.map (·.wire)) supplied)

/-- The first binding that does not fit the registry. -/
def System.hintError? (system : System F) (registry : HintRegistry) : Option HintError :=
  system.hints.findSome? fun binding =>
    match registry.check binding with
    | .error error => some error
    | .ok () => none

namespace Solver

/-- Propagates from the seeded inputs and verifies the outcome, with zero for wires that nothing
mentions. -/
def complete (solver : Solver F) (known : Knowledge F) :
    Except (SolveError F) (Witness F) × Solver F :=
  let system := solver.system
  let tasks := schedule system.hints 0 system.constraints.toList
  let context := SolvingContext.ofSystem solver.registry system
  let run := context.propagate (tasks.length + 1) 0 tasks known
  let after := { solver with known := run.known, passes := run.passes }
  match run.error? with
  | some error => (.error error, after)
  | none =>
    match system.firstViolation? run.known.valueOrZero with
    | some (index, violation) => (.error (.violated index violation), after)
    | none =>
      (.ok {
        values := run.known.values.map (·.getD 0)
        publicWires := system.publicInputs.map (·.wire)
        secretWires := system.secretInputs.map (·.wire) }, after)

/-- Solves the system for the given inputs. -/
def solve (solver : Solver F) (publicValues secretValues : List F.Elem) :
    Except (SolveError F) (Witness F) × Solver F :=
  let system := solver.system
  let blank : Knowledge F := .blank system.wireCount
  match system.hintError? solver.registry with
  | some error => (.error (.hint error), { solver with known := blank })
  | none =>
    match seedInputs solver.surplus .publicInput system.publicInputs publicValues blank with
    | .error error => (.error error, { solver with known := blank })
    | .ok withPublic =>
      match seedInputs solver.surplus .secretInput system.secretInputs secretValues withPublic with
      | .error error => (.error error, { solver with known := withPublic })
      | .ok seeded =>
        if system.mentioned.all (·.index < system.wireCount) then solver.complete seeded
        else (.error .wireOutOfRange, { solver with known := seeded })

/-- The outcome of a fresh solver. -/
def solveOnce (system : System F) (registry : HintRegistry)
    (publicValues secretValues : List F.Elem) : Except (SolveError F) (Witness F) :=
  (({ system, registry } : Solver F).solve publicValues secretValues).1

end Solver

end ArithCircuit
