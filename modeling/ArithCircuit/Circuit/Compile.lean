import ArithCircuit.Circuit.Definition
import ArithCircuit.Circuit.Options
import ArithCircuit.Synthesis.Gate
import ArithCircuit.Synthesis.Rank1
import ArithCircuit.System.Difference

/-!
# Compiling a circuit
-/

namespace ArithCircuit

inductive CompileError where
  | synthesis (error : SynthesisError)
  /-- Two definitions of the circuit gave different systems. -/
  | nonDeterministic (difference : Difference)
deriving DecidableEq

def CompileError.message : CompileError → String
  | .synthesis error => error.message
  | .nonDeterministic difference => "compilation is not deterministic: " ++ difference.message

/-- The system or the error, and the transcript of the definition it came from. -/
structure Compilation (F : PrimeField) where
  transcript : List (StepRecord F)
  result : Except CompileError (System F)

variable {F : PrimeField}

namespace Definition

variable {κ : Type} [ConstraintForm F κ]

/-- The finished system, unless an error ended the definition. -/
def compilation (definition : Definition F κ) : Compilation F where
  transcript := definition.transcript
  result := match definition.error? with
    | some error => .error (.synthesis error)
    | none => .ok (definition.draft.toSystem ConstraintForm.collect)

end Definition

namespace Circuit

/-- The definition of the given number, compiled. -/
def compileOnce (options : CompileOptions) (circuit : Circuit F) (number : Nat) : Compilation F :=
  match options.backend with
  | .rank1 => (circuit.define (Triple F) options.eliminateConstantWires number).compilation
  | .gate => (circuit.define (Gate F) options.eliminateConstantWires number).compilation

/-- Compares a compiled system with that of the next definition. -/
def confirm (options : CompileOptions) (circuit : Circuit F) (number : Nat) (system : System F) :
    Except CompileError (System F) := do
  let again ← (circuit.compileOnce options number).result
  match system.difference again false with
  | .equal => return system
  | difference => throw (.nonDeterministic difference)

/-- Compiles the definition of the given number, and the next one to check that nothing changes. -/
def compile (options : CompileOptions) (circuit : Circuit F) (number : Nat) : Compilation F :=
  let first := circuit.compileOnce options number
  if options.checkDeterminism then
    { first with result := first.result.bind (circuit.confirm options (number + 1)) }
  else first

end Circuit

end ArithCircuit
