import ArithCircuit.Proofs.Circuit.Reached
import ArithCircuit.Proofs.Synthesis.Declarations

/-!
# Steady circuits

A circuit is steady if every step takes part in every definition. Then all definitions are the same, so
none is found not to be deterministic.
-/

namespace ArithCircuit

variable {F : PrimeField} {κ : Type}

namespace Circuit

def Steady (circuit : Circuit F) : Prop := ∀ step ∈ circuit.steps, step.onlyIn = none

variable {circuit : Circuit F}

section Runs

variable [ConstraintForm F κ]

theorem runSteps_steady {steps : List (Step F)} (steady : ∀ step ∈ steps, step.onlyIn = none) (keepsGoing : Bool)
    (number number' : Nat) (registers : Registers F) (d : Draft F κ) :
    runSteps keepsGoing number steps registers d = runSteps keepsGoing number' steps registers d := by
  induction steps generalizing registers d with
  | nil => rfl
  | cons step rest ih =>
      obtain ⟨hstep, hrest⟩ := List.forall_mem_cons.mp steady
      simp only [runSteps, hstep, Option.any_none, Bool.false_eq_true, ↓reduceIte, ih hrest]

theorem define_steady (steady : circuit.Steady) (sharesConstants : Bool) (number number' : Nat) :
    circuit.define κ sharesConstants number = circuit.define κ sharesConstants number' :=
  runSteps_steady steady _ _ _ _ _

/-- If all steps give results, the inputs are those that the steps declare, in order. -/
theorem declares_runSteps {steps : List (Step F)} {number : Nat} {registers : Registers F} {d : Draft F κ}
    {publicNames secretNames : Step F → List String} (steady : ∀ step ∈ steps, step.onlyIn = none)
    (declares : ∀ step ∈ steps, ∀ registers,
      (step.operation.synthesize registers : Synthesis F κ _).Declares (publicNames step) (secretNames step))
    (ended : (runSteps false number steps registers d).error? = none) :
    d.Declares (runSteps false number steps registers d).draft (steps.flatMap publicNames)
      (steps.flatMap secretNames) := by
  induction steps generalizing registers d with
  | nil => exact .refl d
  | cons step rest ih =>
      obtain ⟨hstep, hrest⟩ := List.forall_mem_cons.mp steady
      obtain ⟨own, others⟩ := List.forall_mem_cons.mp declares
      cases hrun : (step.operation.synthesize registers : Synthesis F κ _).run d with
      | error e d' => simp [runSteps, hstep, hrun] at ended
      | ok results d' =>
          simp only [runSteps, hstep, hrun, Option.any_none, Bool.false_eq_true, ↓reduceIte] at ended ⊢
          exact (own registers d results d' hrun).trans (ih hrest others ended)

end Runs

/-- A steady circuit is compiled if its first definition comes to its end. -/
theorem compile_steady (steady : circuit.Steady) (options : CompileOptions) (number : Nat)
    (ended : (circuit.define (options.backend.Form F) options.eliminateConstantWires number).error? = none) :
    (circuit.compile options number).result = .ok ((circuit.define (options.backend.Form F)
      options.eliminateConstantWires number).draft.toSystem ConstraintForm.collect) := by
  have once (other : Nat) : (circuit.compileOnce options other).result = .ok ((circuit.define (options.backend.Form F)
      options.eliminateConstantWires number).draft.toSystem ConstraintForm.collect) := by
    rw [compileOnce_eq, define_steady steady _ other number, Definition.compilation, ended]
  by_cases checks : options.checkDeterminism = true
  · rw [result_compile_of_checks checks, once number, Except.bind, confirm_eq (once (number + 1)), if_pos rfl]
  · rw [compile_of_plain checks, once number]

end Circuit

end ArithCircuit
