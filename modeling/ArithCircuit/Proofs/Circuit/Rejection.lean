import ArithCircuit.Proofs.Circuit.Compiled

/-!
# Rejected circuits have no solution

A circuit is rejected while it is compiled only if its evaluation stops for all inputs. So where another
configuration compiles it, by leaving to a constraint or a hint what the first one has folded, no inputs
solve the system.
-/

namespace ArithCircuit

variable {F : PrimeField} {solver : Solver F} {publicValues secretValues : List F.Elem}

/-! ## Solved systems -/

namespace Solver

/-- The same solver, but hints that are asked for no outputs do not fail. -/
def lenient (solver : Solver F) : Solver F := { solver with registry := solver.registry.lenient }

theorem checked_lenient (checked : solver.system.hintError? solver.registry = none) :
    solver.lenient.system.hintError? solver.lenient.registry = none :=
  System.hintError?_eq_none.mpr fun b hb =>
    HintRegistry.check_lenient (System.hintError?_eq_none.mp checked b hb)

/-- A witness is a solution as far as hints give any outputs. Those that give none may fail unnoticed. -/
theorem solution_of_solve (prime : F.modulus.Prime) (inRange : solver.system.InRange)
    (single : solver.system.SingleSource) {witness : Witness F}
    (solved : (solver.solve publicValues secretValues).1 = .ok witness) :
    solver.lenient.system.Solution solver.lenient.registry
      (publicValues.take solver.system.publicInputs.length)
      (secretValues.take solver.system.secretInputs.length) witness.value := by
  have justified := justified_of_solve prime inRange single solved
  have checked := System.hintError?_eq_none.mp (checked_lenient (of_solve_ok solved).1)
  obtain ⟨moment, -, rfl, -⟩ := exists_last witness solved
  refine { publicInputs := ?_, secretInputs := ?_, satisfied := justified.satisfied, hintsAgree := fun b hb => ?_ }
  · rw [← justified.publicValues, Witness.publicValues, witnessOf, List.map_map]
    rfl
  · rw [← justified.secretValues, Witness.secretValues, witnessOf, List.map_map]
    rfl
  · by_cases none : b.outputs = []
    · obtain ⟨known, found⟩ := HintRegistry.check_eq_ok.mp (checked b hb)
      rw [none] at found ⊢
      rw [← List.length_map fun wire => ((solver.witnessOf moment.known).value wire).val] at found
      exact solver.registry.isLenient_lenient _ _ _ known found
    · rw [lenient, HintRegistry.invoke_lenient _ _ _ (mt List.length_eq_zero_iff.mp none)]
      exact justified.hints b hb none

end Solver

/-! ## Rejections -/

namespace Circuit

variable {circuit : Circuit F} {number : Nat}

theorem error?_runSteps_of_keepsGoing {κ : Type} [ConstraintForm F κ] (number : Nat) (steps : List (Step F))
    (registers : Registers F) (d : Draft F κ) : (runSteps true number steps registers d).error? = none := by
  induction steps generalizing registers d with
  | nil => rfl
  | cons step rest ih =>
      unfold runSteps
      split
      · exact ih registers d
      · split
        · exact ih _ _
        · exact ih registers _

theorem stops_of_compilation {κ : Type} [ConstraintForm F κ] {sharesConstants : Bool} {error : CompileError}
    (rejected : (circuit.define κ sharesConstants number).compilation.result = .error error) :
    circuit.keepsGoing = false ∧ (circuit.define κ sharesConstants number).error? ≠ none := by
  have ended : (circuit.define κ sharesConstants number).error? ≠ none := by
    intro ended
    simp [Definition.compilation, ended] at rejected
  refine ⟨Bool.eq_false_iff.mpr fun keeps => ended ?_, ended⟩
  rw [define, keeps]
  exact error?_runSteps_of_keepsGoing _ _ _ _

/-- A circuit whose system is solved is evaluated to its end for the inputs. -/
theorem define_evaluates (κ : Type) [ConstraintForm F κ] [LawfulForm F κ] (prime : F.modulus.Prime)
    (closed : circuit.Closed) (plain : circuit.keepsGoing = false) {sharesConstants : Bool}
    (compiled : (circuit.define κ sharesConstants number).compilation.result = .ok solver.system)
    (built : HintRegistry.FromBuiltin solver.registry) {witness : Witness F}
    (solved : (solver.solve publicValues secretValues).1 = .ok witness) :
    ∃ supply results, circuit.evaluate solver.lenient.registry number supply = .ok results := by
  obtain ⟨straight, single⟩ := define_straight κ prime closed compiled
  have solution := Solver.solution_of_solve prime straight.inRange single solved
  have checked := Solver.checked_lenient (Solver.of_solve_ok solved).1
  let supply : Supply F := ⟨publicValues.take solver.system.publicInputs.length,
    secretValues.take solver.system.secretInputs.length⟩
  have lengths : supply.publicValues.length = solver.lenient.system.publicInputs.length ∧
    supply.secretValues.length = solver.lenient.system.secretInputs.length := solution.lengths
  have leniently : (circuit.define κ sharesConstants number).compilation.result = .ok solver.lenient.system := compiled
  have straight : solver.lenient.system.Straight := straight
  obtain ⟨again, solvedAgain, -⟩ := Solver.solve_straight prime straight checked solution
  have same := (define_solves κ prime closed (fun _ _ => .inr solver.registry.isLenient_lenient) leniently
    (fun keeps => absurd (plain.symm.trans keeps) Bool.false_ne_true) built.answers.lenient checked lengths.1
    lengths.2).1
  cases evaluated : circuit.evaluate solver.lenient.registry number supply with
  | ok results => exact ⟨supply, results, evaluated⟩
  | error stop =>
      rw [solvedAgain, evaluated] at same
      cases same with
      | stops reported => cases reported

/-- The definition of a circuit that is evaluated to its end comes to its end in every form. -/
theorem error?_define_of_evaluates (κ : Type) [ConstraintForm F κ] [LawfulForm F κ] (prime : F.modulus.Prime)
    (closed : circuit.Closed) {registry : HintRegistry} (answers : registry.AnswersBuiltin)
    (lenient : registry.IsLenient)
    (fits : ∀ step ∈ circuit.steps, ¬ step.onlyIn.any (· ≠ number) = true → step.operation.fitsField)
    {supply : Supply F} {results : List (List F.Elem)}
    (evaluates : circuit.evaluate registry number supply = .ok results) (sharesConstants : Bool) :
    (circuit.define κ sharesConstants number).error? = none := by
  let s : Stage registry supply κ := .start sharesConstants
  cases run : (evaluateSteps registry number circuit.steps []).run s.rest with
  | error stop =>
      have stops : circuit.evaluate registry number supply = .error stop := congrArg (Functor.map Prod.fst) run
      rw [stops] at evaluates
      cases evaluates
  | ok after => exact error?_of_evaluates prime answers closed (fun _ _ => .inr lenient) fits .nil run

theorem compileOnce_rejected (prime : F.modulus.Prime) (closed : circuit.Closed) {options options' : CompileOptions}
    {error : CompileError} (rejected : (circuit.compileOnce options number).result = .error error)
    (compiled : (circuit.compileOnce options' number).result = .ok solver.system)
    (built : HintRegistry.FromBuiltin solver.registry) (witness : Witness F) :
    (solver.solve publicValues secretValues).1 ≠ .ok witness := by
  intro solved
  obtain ⟨κ, _, _, compilation⟩ := exists_compilation options circuit number
  obtain ⟨κ', _, _, compilation'⟩ := exists_compilation options' circuit number
  rw [compilation] at rejected
  rw [compilation'] at compiled
  obtain ⟨plain, stops⟩ := stops_of_compilation rejected
  obtain ⟨supply, results, evaluates⟩ := define_evaluates κ' prime closed plain compiled built solved
  -- a width that the field does not have is refused in every form, so here all widths are fine
  have fits := fitsField_of_runSteps (define_succeeded compiled plain)
  exact stops (error?_define_of_evaluates κ prime closed built.answers.lenient
    solver.registry.isLenient_lenient fits evaluates _)

theorem of_confirm_rejected {options : CompileOptions} {system : System F} {error : SynthesisError}
    (rejected : circuit.confirm options number system = .error (.synthesis error)) :
    (circuit.compileOnce options number).result = .error (.synthesis error) := by
  cases again : (circuit.compileOnce options number).result with
  | error error =>
      simp only [confirm, again, bind, Except.bind] at rejected
      exact rejected ▸ rfl
  | ok other =>
      rw [confirm_eq again] at rejected
      split at rejected <;> cases rejected

/-- A circuit is rejected by its definition, or by the next one, which was to confirm it. -/
theorem of_compile_rejected {options : CompileOptions} {error : SynthesisError}
    (rejected : (circuit.compile options number).result = .error (.synthesis error)) :
    (circuit.compileOnce options number).result = .error (.synthesis error) ∨
      options.checkDeterminism = true ∧
        (circuit.compileOnce options (number + 1)).result = .error (.synthesis error) := by
  by_cases checks : options.checkDeterminism = true
  · rw [result_compile_of_checks checks] at rejected
    cases first : (circuit.compileOnce options number).result with
    | error error =>
        rw [first] at rejected
        exact .inl rejected
    | ok system =>
        simp only [first, Except.bind] at rejected
        exact .inr ⟨checks, of_confirm_rejected rejected⟩
  · rw [compile_of_plain checks] at rejected
    exact .inl rejected

/-- A circuit that one configuration rejects is rejected by every other, or no inputs solve what the other makes of
it: for every registry that has the built-in hints, and for all values, the solver gives an error. -/
theorem solve_of_rejected (prime : F.modulus.Prime) (closed : circuit.Closed) {options : CompileOptions}
    {error : SynthesisError} (rejected : (circuit.compile options number).result = .error (.synthesis error))
    {backend : Backend} {eliminates : Bool}
    (compiled : (circuit.compile { options with backend, eliminateConstantWires := eliminates } number).result
      = .ok solver.system)
    (built : HintRegistry.FromBuiltin solver.registry) (publicValues secretValues : List F.Elem) :
    ∃ reason, (solver.solve publicValues secretValues).1 = .error reason := by
  obtain ⟨compiledOnce, confirmed⟩ := compile_ok compiled
  cases solved : (solver.solve publicValues secretValues).1 with
  | error reason => exact ⟨reason, rfl⟩
  | ok witness =>
      rcases of_compile_rejected rejected with rejected | ⟨checks, rejected⟩
      · exact absurd solved (compileOnce_rejected prime closed rejected compiledOnce built witness)
      · exact absurd solved (compileOnce_rejected prime closed rejected (confirmed checks) built witness)

/-- A circuit for examples: a quotient by a choice that comes out as zero. Folded, the choice is a constant; else it
is a sum of wires. -/
def quotientByChoice : Circuit .seven where
  steps := [
    { operation := .secretInput "x", out := some "x" },
    { operation := .select (.literal (.ofConstant 1)) (.literal .zero) (.register "x"), out := some "c" },
    { operation := .div (.register "x") (.register "c"), out := some "q" }]

theorem quotientByChoice_unsolved : (quotientByChoice.compile {} 0).result = .error (.synthesis (.divisionByZero 0)) ∧
    ∃ solver : Solver .seven,
      (quotientByChoice.compile { backend := .gate, eliminateConstantWires := false } 0).result = .ok solver.system ∧
        ∃ reason, (solver.solve [] [3]).1 = .error reason := by
  have rejected : (quotientByChoice.compile {} 0).result = .error (.synthesis (.divisionByZero 0)) := rfl
  obtain ⟨system, compiled⟩ : ∃ system,
      (quotientByChoice.compile { backend := .gate, eliminateConstantWires := false } 0).result = .ok system :=
    ⟨_, rfl⟩
  exact ⟨rejected, { system, registry := .builtin }, compiled,
    solve_of_rejected PrimeField.prime_seven (by decide) rejected compiled .builtin [] [3]⟩

end Circuit

end ArithCircuit
