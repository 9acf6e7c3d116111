import ArithCircuit.Proofs.Circuit.Soundness

/-!
# The digits that a circuit asks for

A decomposition constrains its results to be digits that add up to the operand modulo the modulus. Below
the width of the modulus that makes them the digits of the operand's residue. At that width they may be
those of the residue plus the modulus, where this number is no wider.
-/

namespace ArithCircuit

open scoped Fin.CommRing

open PrimeField (IsDecomposition Spells)

variable {F : PrimeField} {circuit : Circuit F} {options : CompileOptions} {number : Nat} {system : System F}
  {step : Step F} {read : Registers F} {results : List (LinearCombination F)}

/-! ## Steps that gave results -/

/-- In a run of the definition of the given number over these steps, from these registers and with this
transcript, the step found the registers `read` and gave the results. -/
inductive Gave (number : Nat) (step : Step F) (read : Registers F) (results : List (LinearCombination F)) :
    List (Step F) → Registers F → List (StepRecord F) → Prop
  | here {rest : List (Step F)} {constraints : Nat} {records : List (StepRecord F)} :
      ¬ step.onlyIn.any (· ≠ number) →
      Gave number step read results (step :: rest) read (⟨constraints, .ok results⟩ :: records)
  | skipped {other : Step F} {rest : List (Step F)} {registers : Registers F} {records : List (StepRecord F)} :
      other.onlyIn.any (· ≠ number) → Gave number step read results rest registers records →
      Gave number step read results (other :: rest) registers records
  | later {other : Step F} {rest : List (Step F)} {registers : Registers F} {constraints : Nat}
      {given : List (LinearCombination F)} {records : List (StepRecord F)} : ¬ other.onlyIn.any (· ≠ number) →
      Gave number step read results rest (registers.store other given) records →
      Gave number step read results (other :: rest) registers (⟨constraints, .ok given⟩ :: records)
  | failed {other : Step F} {rest : List (Step F)} {registers : Registers F} {constraints : Nat}
      {error : SynthesisError} {records : List (StepRecord F)} : ¬ other.onlyIn.any (· ≠ number) →
      Gave number step read results rest registers records →
      Gave number step read results (other :: rest) registers (⟨constraints, .error error⟩ :: records)

theorem Gave.ne_nil {steps : List (Step F)} {registers : Registers F} {records : List (StepRecord F)}
    (gave : Gave number step read results steps registers records) : records ≠ [] := by
  induction gave with
  | here | later | failed => exact List.cons_ne_nil _ _
  | skipped _ _ ih => exact ih

namespace Circuit

section Runs

variable {κ : Type} [ConstraintForm F κ] [LawfulForm F κ]

/-- A step that gave results ran on a draft that came before the last one. -/
theorem run_of_gave {keepsGoing : Bool} {steps : List (Step F)} {registers : Registers F}
    {records : List (StepRecord F)} (gave : Gave number step read results steps registers records) {d : Draft F κ}
    (transcript : (runSteps keepsGoing number steps registers d).transcript = records) :
    ∃ d₁ d₂ : Draft F κ, d.Evolves d₁ ∧ (step.operation.synthesize read).run d₁ = .ok results d₂ ∧
      d₂.Grows (runSteps keepsGoing number steps registers d).draft := by
  induction gave generalizing d with
  | @here rest constraints records takesPart =>
      simp only [runSteps, takesPart, Bool.false_eq_true, ↓reduceIte] at transcript ⊢
      cases hrun : (step.operation.synthesize read : Synthesis F κ _).run d with
      | ok given d' =>
          simp only [hrun, Definition.prepend, List.cons.injEq, StepRecord.mk.injEq, Except.ok.injEq] at transcript ⊢
          obtain ⟨⟨-, rfl⟩, -⟩ := transcript
          exact ⟨d, d', .refl d, hrun, grows_runSteps keepsGoing number rest _ d'⟩
      | error e d' => cases keepsGoing <;> simp [hrun, Definition.prepend] at transcript
  | skipped skips _ ih =>
      simp only [runSteps, skips, ↓reduceIte] at transcript ⊢
      exact ih transcript
  | @later other rest registers constraints given records takesPart _ ih =>
      simp only [runSteps, takesPart, Bool.false_eq_true, ↓reduceIte] at transcript ⊢
      cases hrun : (other.operation.synthesize registers : Synthesis F κ _).run d with
      | ok given' d' =>
          simp only [hrun, Definition.prepend, List.cons.injEq, StepRecord.mk.injEq, Except.ok.injEq] at transcript ⊢
          obtain ⟨⟨-, rfl⟩, behind⟩ := transcript
          obtain ⟨d₁, d₂, evolves, ran, grows⟩ := ih behind
          exact ⟨d₁, d₂, (Synthesis.evolves_of_ok hrun).trans evolves, ran, grows⟩
      | error e d' => cases keepsGoing <;> simp [hrun, Definition.prepend] at transcript
  | @failed other rest registers constraints error records takesPart gave ih =>
      simp only [runSteps, takesPart, Bool.false_eq_true, ↓reduceIte] at transcript ⊢
      cases hrun : (other.operation.synthesize registers : Synthesis F κ _).run d with
      | ok given d' => simp [hrun, Definition.prepend] at transcript
      | error e d' =>
          cases keepsGoing with
          | true =>
              simp only [hrun, Definition.prepend, List.cons.injEq, ↓reduceIte] at transcript ⊢
              obtain ⟨d₁, d₂, evolves, ran, grows⟩ := ih transcript.2
              exact ⟨d₁, d₂, (Synthesis.evolves_of_error hrun).trans evolves, ran, grows⟩
          | false =>
              -- the run ended here, so nothing was given behind
              simp only [hrun, List.cons.injEq, Bool.false_eq_true, ↓reduceIte] at transcript
              exact absurd transcript.2.symm gave.ne_nil

theorem define_toBits_forces (prime : F.modulus.Prime) {sharesConstants : Bool}
    (compiled : (circuit.define κ sharesConstants number).compilation.result = .ok system)
    (gave : Gave number step read results circuit.steps [] (circuit.define κ sharesConstants number).transcript)
    {a : Operand F} {width : Nat} (decomposes : step.operation = .toBits a width) :
    (0 < width ∧ width ≤ F.numBits) ∧ results.length = width ∧
      (∀ value, system.Satisfied value →
        IsDecomposition ((read.read a).evalWith value) (results.map (·.evalWith value))) ∧
      (sharesConstants = true → (read.read a).asConstant?.isSome → ∀ value,
        Spells (results.map (·.evalWith value)) ((read.read a).evalWith value).val) := by
  obtain ⟨-, rfl⟩ := Definition.compilation_ok compiled
  obtain ⟨d₁, d₂, evolves, ran, grows⟩ := run_of_gave gave rfl
  rw [decomposes] at ran
  obtain ⟨fits, length, forces, folded⟩ :=
    Synthesis.toBits_forces prime (evolves.guarded (Draft.guarded_empty sharesConstants)) ran
  refine ⟨fits, length, fun value satisfied => forces value ?_, fun shares => folded ?_⟩
  · exact grows.accepts (Draft.satisfied_toSystem.mp satisfied)
  · exact evolves.grows.sharesConstants.trans shares

end Runs

/-- Digits of that width that add up to the expression can only be those of its residue: they are fewer than the
modulus has, or the expression is a constant that is folded, or the next number with that residue has more. -/
def Unambiguous (options : CompileOptions) (x : LinearCombination F) (width residue : Nat) : Prop :=
  width < F.numBits ∨ (options.eliminateConstantWires = true ∧ x.asConstant?.isSome) ∨
    2 ^ F.numBits ≤ residue + F.modulus

/-- Two assignments that satisfy the compiled system and agree on the operand of a decomposition agree on its
results, which are the digits of the operand's residue, wherever the decomposition is unambiguous. In any case the
results are the digits of the residue or of the residue plus the modulus. -/
theorem toBits_determined (prime : F.modulus.Prime) (compiled : (circuit.compile options number).result = .ok system)
    (gave : Gave number step read results circuit.steps [] (circuit.compile options number).transcript)
    {a : Operand F} {width : Nat} (decomposes : step.operation = .toBits a width) :
    (0 < width ∧ width ≤ F.numBits ∧ results.length = width) ∧
    (∀ value value', system.Satisfied value → system.Satisfied value' →
      (read.read a).evalWith value = (read.read a).evalWith value' →
      Unambiguous options (read.read a) width ((read.read a).evalWith value).val →
      results.map (·.evalWith value) = results.map (·.evalWith value') ∧
        Spells (results.map (·.evalWith value)) ((read.read a).evalWith value).val) ∧
    ∀ value, system.Satisfied value →
      Spells (results.map (·.evalWith value)) ((read.read a).evalWith value).val ∨
        Spells (results.map (·.evalWith value)) (((read.read a).evalWith value).val + F.modulus) := by
  obtain ⟨κ, _, _, same⟩ := exists_compilation options circuit number
  rw [transcript_compile, same] at gave
  obtain ⟨⟨positive, fits⟩, length, forces, folded⟩ :=
    define_toBits_forces prime (same ▸ (compile_ok compiled).1) gave decomposes
  have width_eq : ∀ value : Wire → F.Elem, (results.map (·.evalWith value)).length = width := fun value => by
    rw [List.length_map, length]
  have narrow : ∀ value : Wire → F.Elem, (results.map (·.evalWith value)).length ≤ F.numBits := fun value =>
    width_eq value ▸ fits
  have spells : ∀ value, system.Satisfied value →
      Unambiguous options (read.read a) width ((read.read a).evalWith value).val →
      Spells (results.map (·.evalWith value)) ((read.read a).evalWith value).val := by
    rintro value satisfied (fewer | ⟨eliminates, constant⟩ | tooWide)
    · apply (forces value satisfied).spells_val (narrow value)
      rw [width_eq]
      exact Nat.le_trans (PrimeField.two_pow_le_modulus fewer) (Nat.le_add_left _ _)
    · exact folded eliminates constant value
    · apply (forces value satisfied).spells_val (narrow value)
      rw [width_eq]
      exact Nat.le_trans (Nat.pow_le_pow_right Nat.zero_lt_two fits) tooWide
  refine ⟨⟨positive, fits, length⟩, fun value value' satisfied satisfied' agree unambiguous => ?_,
    fun value satisfied => (PrimeField.isDecomposition_iff (narrow value)).mp (forces value satisfied)⟩
  have first := spells value satisfied unambiguous
  have second := spells value' satisfied' (agree ▸ unambiguous)
  rw [← agree] at second
  exact ⟨first.unique second ((width_eq value).trans (width_eq value').symm), first⟩

/-- A circuit for examples: its input, and three digits of it. -/
def threeDigits : Circuit .seven where
  steps := [
    { operation := .secretInput "x", out := some "x" },
    { operation := .toBits (.register "x") 3, out := some "b" }]

/-- One and eight are the same input, but eight has four digits. -/
theorem threeDigits_determined : ∃ system results,
    (threeDigits.compile {} 0).result = .ok system ∧
    Gave 0 ⟨.toBits (.register "x") 3, some "b", none⟩ [("x", .ofWire ⟨0⟩)] results threeDigits.steps []
      (threeDigits.compile {} 0).transcript ∧
    system.Satisfied (fun wire => [1, 1, 0, 0].getD wire.index 0) ∧
    ∀ value, system.Satisfied value → value ⟨0⟩ = 1 → results.map (·.evalWith value) = [1, 0, 0] := by
  obtain ⟨system, compiled, gave, satisfied⟩ : ∃ system, (threeDigits.compile {} 0).result = .ok system ∧
      Gave 0 ⟨.toBits (.register "x") 3, some "b", none⟩ [("x", .ofWire ⟨0⟩)]
        [.ofWire ⟨1⟩, .ofWire ⟨2⟩, .ofWire ⟨3⟩] threeDigits.steps [] (threeDigits.compile {} 0).transcript ∧
      system.Satisfied (fun wire => [1, 1, 0, 0].getD wire.index 0) :=
    ⟨_, rfl, .later (by decide) (.here (by decide)), by decide +kernel⟩
  obtain ⟨-, determined, -⟩ := toBits_determined PrimeField.prime_seven compiled gave rfl
  refine ⟨system, _, compiled, gave, satisfied, fun value satisfied' one => ?_⟩
  have read : ∀ value : Wire → PrimeField.seven.Elem,
      (Registers.read [("x", .ofWire ⟨0⟩)] (.register "x")).evalWith value = value ⟨0⟩ :=
    fun _ => LinearCombination.evalWith_ofWire _
  have agree := (read (fun wire => [1, 1, 0, 0].getD wire.index 0)).trans (one.symm.trans (read value).symm)
  obtain ⟨same, -⟩ := determined _ value satisfied satisfied' agree (.inr (.inr (by decide +kernel)))
  rw [← same]
  decide +kernel

/-- Zero and seven are the same input, and both have three digits. -/
theorem threeDigits_ambiguous : ∃ system results value value',
    (threeDigits.compile {} 0).result = .ok system ∧
    Gave 0 ⟨.toBits (.register "x") 3, some "b", none⟩ [("x", .ofWire ⟨0⟩)] results threeDigits.steps []
      (threeDigits.compile {} 0).transcript ∧
    3 ≤ PrimeField.seven.numBits ∧ system.Satisfied value ∧ system.Satisfied value' ∧
    value ⟨0⟩ = value' ⟨0⟩ ∧ results.map (·.evalWith value) = [0, 0, 0] ∧
    results.map (·.evalWith value') = [1, 1, 1] := by
  refine ⟨_, [.ofWire ⟨1⟩, .ofWire ⟨2⟩, .ofWire ⟨3⟩], fun _ => 0, fun wire => [0, 1, 1, 1].getD wire.index 0, rfl,
    .later (by decide) (.here (by decide)), by decide, ?_, ?_, rfl, ?_, ?_⟩
  all_goals decide +kernel

end Circuit

end ArithCircuit
