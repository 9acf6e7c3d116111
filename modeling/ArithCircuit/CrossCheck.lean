import ArithCircuit.ByteForm.Reader
import ArithCircuit.Circuit.Compile
import ArithCircuit.Witness.Solver

/-!
# Checking a circuit under all configurations

A circuit is compiled for both backends, with and without the folding of constants. Each system has
to come back unchanged from its byte form, and solving all of them has to end as expected.
-/

namespace ArithCircuit

/-- Which hints and backends a circuit is checked with. -/
structure CrossCheck where
  registry : HintRegistry := .builtin
  backends : List Backend := [.rank1, .gate]

/-- What goes against the expectations, and under which options. -/
inductive CrossCheckFailure (F : PrimeField) where
  | compilation (options : CompileOptions) (error : CompileError)
  | reading (options : CompileOptions) (error : FormatError)
  | changed (options : CompileOptions)
  | solving (options : CompileOptions) (error : SolveError F)
  | solved (options : CompileOptions)

variable {F : PrimeField}

def CrossCheckFailure.message : CrossCheckFailure F → String
  | .compilation options error =>
    "compilation failed (" ++ options.describe ++ "): " ++ error.message
  | .reading options error =>
    "deserialization failed (" ++ options.describe ++ "): " ++ error.message
  | .changed options => "round trip changed the system (" ++ options.describe ++ ")"
  | .solving options error => "solving failed (" ++ options.describe ++ "): " ++ error.message
  | .solved options => "solving succeeded unexpectedly (" ++ options.describe ++ ")"

namespace CrossCheck

/-- Every backend, with the folding of constants before without. -/
def allConfigurations : List CompileOptions :=
  [.rank1, .gate].flatMap fun backend =>
    [true, false].map fun eliminateConstantWires =>
      { backend, eliminateConstantWires, checkDeterminism := true }

def configurations (check : CrossCheck) : List CompileOptions :=
  allConfigurations.filter fun options => options.backend ∈ check.backends

/-- Compiles the definition of the given number and reads the system back from its byte form. -/
def compileAs (options : CompileOptions) (circuit : Circuit F) (number : Nat) :
    Except (CrossCheckFailure F) (System F) :=
  match (circuit.compile options number).result with
  | .error error => .error (.compilation options error)
  | .ok system =>
    match System.ofBytes F system.toBytes with
    | .error error => .error (.reading options error)
    | .ok read => if read = system then .ok system else .error (.changed options)

/-- The systems with their options. Each configuration takes two definitions of the circuit. -/
def compile (check : CrossCheck) (circuit : Circuit F) :
    Except (CrossCheckFailure F) (List (CompileOptions × System F)) :=
  check.configurations.zipIdx.mapM fun (options, index) =>
    (options, ·) <$> compileAs options circuit (2 * index)

/-- The outcome of a fresh solver for each configuration, given that all of them compile. -/
def solve (check : CrossCheck) (circuit : Circuit F) (publicValues secretValues : List F.Elem) :
    Except (CrossCheckFailure F) (List (CompileOptions × Except (SolveError F) (Witness F))) := do
  return (← check.compile circuit).map fun (options, system) =>
    (options, Solver.solveOnce system check.registry publicValues secretValues)

/-- The witnesses, where every configuration is expected to have one. -/
def expectSolved (check : CrossCheck) (circuit : Circuit F)
    (publicValues secretValues : List F.Elem) :
    Except (CrossCheckFailure F) (List (Witness F)) := do
  (← check.solve circuit publicValues secretValues).mapM fun (options, outcome) =>
    match outcome with
    | .ok witness => .ok witness
    | .error error => .error (.solving options error)

/-- The errors, where every configuration is expected to have one. -/
def expectFailed (check : CrossCheck) (circuit : Circuit F)
    (publicValues secretValues : List F.Elem) :
    Except (CrossCheckFailure F) (List (SolveError F)) := do
  (← check.solve circuit publicValues secretValues).mapM fun (options, outcome) =>
    match outcome with
    | .ok _ => .error (.solved options)
    | .error error => .ok error

end CrossCheck

end ArithCircuit
