import ArithCircuit.Circuit.Compile
import ArithCircuit.Proofs.Circuit.Registers
import ArithCircuit.Proofs.Synthesis.Gate
import ArithCircuit.Proofs.Synthesis.Rank1
import ArithCircuit.Proofs.Synthesis.Soundness
import ArithCircuit.Proofs.System.Difference

/-!
# Compiled constraints enforce the circuit

An assignment that satisfies a compiled system gives the results of every step values that its
operation relates to those of its operands.
-/

namespace ArithCircuit

open scoped Fin.CommRing

variable {F : PrimeField} {κ : Type} [ConstraintForm F κ] [LawfulForm F κ] {d : Draft F κ}

/-! ## Operations -/

namespace Synthesis

open PrimeField (IsEntry)

/-- A single result. -/
theorem Ensures.singleton {m : Synthesis F κ (LinearCombination F)} [Growing m]
    {P : (Wire → F.Elem) → F.Elem → Prop} {R : (Wire → F.Elem) → List F.Elem → Prop}
    (ensures : Ensures m d fun d' r => d'.Has r P) (hR : ∀ value v, P value v → R value [v]) :
    Ensures (List.singleton <$> m) d fun d' rs => d'.HasAll rs R :=
  ensures.map fun _ r _ hr => ⟨by simpa [List.singleton] using hr.below, fun value accepts =>
    hR value _ (hr.forces value accepts)⟩

/-- No result. -/
theorem Ensures.silent {m : Synthesis F κ Unit} [Growing m] {P : (Wire → F.Elem) → Prop}
    {R : (Wire → F.Elem) → List F.Elem → Prop} (ensures : Ensures m d fun d' _ => d'.Forces P)
    (hR : ∀ value, P value → R value []) :
    Ensures (do m; return []) d fun d' rs => d'.HasAll rs R :=
  ensures.bind fun _ _ _ coherent forces => ensures_pure coherent
    ⟨by simp, fun value accepts => hR value (forces value accepts)⟩

theorem ensures_return (coherent : d.Coherent) {x : LinearCombination F} (hx : x.Below d.size)
    {R : (Wire → F.Elem) → List F.Elem → Prop} (hR : ∀ value, R value [x.evalWith value]) :
    Ensures (return [x] : Synthesis F κ (List (LinearCombination F))) d fun d' rs => d'.HasAll rs R :=
  ensures_pure coherent ⟨by simpa using hx, fun value _ => hR value⟩

theorem ensures_synthesize (prime : F.modulus.Prime) (coherent : d.Coherent) {registers : Registers F}
    (below : registers.Below d.size) (operation : Operation F)
    (closed : ∀ x ∈ operation.operands, x.Closed) :
    Ensures (operation.synthesize registers : Synthesis F κ (List (LinearCombination F))) d
      fun d' rs => d'.HasAll rs fun value =>
        operation.Relates fun x => (registers.read x).evalWith value := by
  have read : ∀ x ∈ operation.operands, (registers.read x).Below d.size := fun x hx =>
    below.read (closed x hx)
  cases operation with
  | publicInput name =>
      exact (ensures_publicInput coherent name).map fun _ r _ hr =>
        ⟨by simpa [List.singleton] using hr, fun _ _ => rfl⟩
  | secretInput name =>
      exact (ensures_secretInput coherent name).map fun _ r _ hr =>
        ⟨by simpa [List.singleton] using hr, fun _ _ => rfl⟩
  | constant k =>
      exact ensures_return coherent (LinearCombination.below_ofConstant k) fun value => by
        simp [Operation.Relates]
  | add a b =>
      obtain ⟨ha, hb⟩ := forall_mem_pair.mp read
      exact ensures_return coherent (ha.add hb) fun value => by simp [Operation.Relates]
  | sub a b =>
      obtain ⟨ha, hb⟩ := forall_mem_pair.mp read
      exact ensures_return coherent (ha.sub hb) fun value => by simp [Operation.Relates]
  | neg a =>
      have ha := List.forall_mem_singleton.mp read
      exact ensures_return coherent ha.neg fun value => by simp [Operation.Relates]
  | scale a k =>
      have ha := List.forall_mem_singleton.mp read
      exact ensures_return coherent (ha.scale k) fun value => by simp [Operation.Relates]
  | ofBits bits =>
      have hbits : ∀ bit ∈ bits.map registers.read, bit.Below d.size := List.forall_mem_map.mpr read
      exact ensures_return coherent (LinearCombination.below_ofBits hbits) fun value => by
        simp [Operation.Relates, Function.comp_def]
  | toWire a =>
      have ha := List.forall_mem_singleton.mp read
      apply (ensures_toWire coherent ha).bind
      intro d₁ wire _ coherent₁ hwire
      exact ensures_pure coherent₁ ⟨by simpa using hwire.has.below, fun value accepts => by
        simpa [Operation.Relates] using hwire.forces value accepts⟩
  | mul a b =>
      obtain ⟨ha, hb⟩ := forall_mem_pair.mp read
      exact (ensures_mul coherent ha hb).singleton fun value v h => by rw [h]; rfl
  | div a b =>
      obtain ⟨ha, hb⟩ := forall_mem_pair.mp read
      exact (ensures_div prime coherent ha hb).singleton fun value v h => ⟨v, rfl, h⟩
  | inverse a =>
      have ha := List.forall_mem_singleton.mp read
      exact (ensures_inverse prime coherent ha).singleton fun value v h => ⟨v, rfl, h⟩
  | select c a b =>
      obtain ⟨hc, ha, hb⟩ := forall_mem_triple.mp read
      exact (ensures_select prime coherent hc ha hb).singleton fun value v h => ⟨v, rfl, h⟩
  | assertProduct a b c =>
      obtain ⟨ha, hb, hc⟩ := forall_mem_triple.mp read
      exact (ensures_assertProduct coherent ha hb hc).silent fun value h => ⟨rfl, h⟩
  | assertEqual a b =>
      obtain ⟨ha, hb⟩ := forall_mem_pair.mp read
      exact (ensures_assertEqual coherent ha hb).silent fun value h => ⟨rfl, h⟩
  | assertBoolean a =>
      have ha := List.forall_mem_singleton.mp read
      exact (ensures_assertBoolean prime coherent ha).silent fun value h => ⟨rfl, h⟩
  | toBits a width =>
      have ha := List.forall_mem_singleton.mp read
      exact ensures_toBits prime coherent ha width
  | hint name inputs outputs =>
      have hinputs : ∀ x ∈ inputs.map registers.read, x.Below d.size := List.forall_mem_map.mpr read
      exact (ensures_hint coherent hinputs name outputs).imp fun _ rs _ _ ⟨length, hrs⟩ =>
        ⟨hrs, fun value _ => by simpa [Operation.Relates] using length⟩
  | not a =>
      have ha := List.forall_mem_singleton.mp read
      exact ensures_return coherent ((LinearCombination.below_ofConstant 1).sub ha) fun value => by
        simp [Operation.Relates]
  | and a b =>
      obtain ⟨ha, hb⟩ := forall_mem_pair.mp read
      exact (ensures_and coherent ha hb).singleton fun value v h => by rw [h]; rfl
  | or a b =>
      obtain ⟨ha, hb⟩ := forall_mem_pair.mp read
      exact (ensures_or coherent ha hb).singleton fun value v h => by rw [h]; rfl
  | xor a b =>
      obtain ⟨ha, hb⟩ := forall_mem_pair.mp read
      exact (ensures_xor coherent ha hb).singleton fun value v h => by rw [h]; rfl
  | isZero a =>
      have ha := List.forall_mem_singleton.mp read
      exact (ensures_isZero prime coherent ha).singleton fun value v h => by rw [h]; rfl
  | isEqual a b =>
      obtain ⟨ha, hb⟩ := forall_mem_pair.mp read
      exact (ensures_isEqual prime coherent ha hb).singleton fun value v h => by rw [h]; rfl
  | assertNonZero a =>
      have ha := List.forall_mem_singleton.mp read
      exact (ensures_assertNonZero prime coherent ha).silent fun value h => ⟨rfl, h⟩
  | lookup2 b0 b1 t0 t1 t2 t3 =>
      simp only [Operation.operands, List.forall_mem_cons, List.not_mem_nil, false_imp_iff, implies_true,
        and_true] at read
      obtain ⟨hb0, hb1, ht0, ht1, ht2, ht3⟩ := read
      exact (ensures_lookup2 prime coherent hb0 hb1 ht0 ht1 ht2 ht3).singleton fun value v h => ⟨v, rfl, h⟩
  | packIntoInputs name bits =>
      have hbits : ∀ bit ∈ bits.map registers.read, bit.Below d.size := List.forall_mem_map.mpr read
      have packed := ensures_packIntoInputs (κ := κ) coherent name hbits
      simp only [List.map_map] at packed
      exact packed
  | packBits bits =>
      have hbits : ∀ bit ∈ bits.map registers.read, bit.Below d.size := List.forall_mem_map.mpr read
      have packed := ensures_packBits (κ := κ) coherent hbits
      simp only [List.map_map] at packed
      exact packed.singleton fun value v h => by rw [h]; rfl

end Synthesis

/-! ## Runs -/

/-- Every step of the transcript that gave results gave them values that its operation allows. The
registers hold what the steps before have stored. -/
def Enforces (value : Wire → F.Elem) (number : Nat) :
    List (Step F) → Registers F → List (StepRecord F) → Prop
  | [], _, _ => True
  | step :: rest, registers, records =>
    if step.onlyIn.any (· ≠ number) then Enforces value number rest registers records
    else match records with
      | [] => False
      | record :: records =>
        match record.outcome with
        | .ok results =>
          step.operation.Relates (fun x => (registers.read x).evalWith value)
              (results.map (·.evalWith value)) ∧
            Enforces value number rest (registers.store step results) records
        | .error _ => Enforces value number rest registers records

def StepRecord.Succeeded (record : StepRecord F) : Prop := ∃ results, record.outcome = .ok results

namespace Circuit

omit [LawfulForm F κ] in
/-- What each operation keeps, whether it fails or not, a run keeps. -/
theorem runSteps_keeps {P : Draft F κ → Prop}
    (keeps : ∀ (registers : Registers F) (operation : Operation F) (d : Draft F κ), P d →
      P (Synthesis.left (operation.synthesize registers) d))
    (keepsGoing : Bool) (number : Nat) (steps : List (Step F)) (registers : Registers F) {d : Draft F κ} (h : P d) :
    P (runSteps keepsGoing number steps registers d).draft := by
  induction steps generalizing registers d with
  | nil => exact h
  | cons step rest ih =>
      by_cases skipped : step.onlyIn.any (· ≠ number) = true
      · simp only [runSteps, skipped, ↓reduceIte]
        exact ih registers h
      · have after := keeps registers step.operation d h
        unfold Synthesis.left at after
        simp only [runSteps, skipped, Bool.false_eq_true, ↓reduceIte]
        cases hrun : (step.operation.synthesize registers : Synthesis F κ _).run d with
        | ok results d' =>
            rw [hrun] at after
            exact ih _ after
        | error e d' =>
            rw [hrun] at after
            cases keepsGoing with
            | true => exact ih _ after
            | false => exact after

theorem evolves_runSteps (keepsGoing : Bool) (number : Nat) (steps : List (Step F)) (registers : Registers F)
    (d : Draft F κ) : d.Evolves (runSteps keepsGoing number steps registers d).draft :=
  runSteps_keeps (fun _ _ d' evolves => evolves.trans (Synthesis.Evolving.evolves d')) keepsGoing number steps registers
    (.refl d)

theorem grows_runSteps (keepsGoing : Bool) (number : Nat) (steps : List (Step F)) (registers : Registers F)
    (d : Draft F κ) : d.Grows (runSteps keepsGoing number steps registers d).draft :=
  (evolves_runSteps keepsGoing number steps registers d).grows

/-- A run keeps its draft coherent, and if it comes to its end it enforces its steps. -/
theorem runSteps_enforces (prime : F.modulus.Prime) {keepsGoing : Bool} {number : Nat} {steps : List (Step F)}
    (closed : ∀ step ∈ steps, ∀ x ∈ step.operation.operands, x.Closed) {registers : Registers F}
    (coherent : d.Coherent) (below : registers.Below d.size) :
    (runSteps keepsGoing number steps registers d).draft.Coherent ∧
      ((runSteps keepsGoing number steps registers d).error? = none →
        (runSteps keepsGoing number steps registers d).draft.Forces fun value =>
          Enforces value number steps registers (runSteps keepsGoing number steps registers d).transcript) := by
  induction steps generalizing registers d with
  | nil => exact ⟨coherent, fun _ _ _ => trivial⟩
  | cons step rest ih =>
      obtain ⟨hstep, hrest⟩ := List.forall_mem_cons.mp closed
      by_cases skipped : step.onlyIn.any (· ≠ number) = true
      · simp only [runSteps, Enforces, skipped, ↓reduceIte]
        exact ih hrest coherent below
      · have ensures := Synthesis.ensures_synthesize (κ := κ) prime coherent below step.operation hstep
        simp only [runSteps, Enforces, skipped, Bool.false_eq_true, ↓reduceIte]
        cases hrun : (step.operation.synthesize registers : Synthesis F κ _).run d with
        | ok results d' =>
            have grows := Synthesis.grows_of_ok hrun
            obtain ⟨coherent', hresults⟩ := ensures.of_run hrun
            obtain ⟨coherent'', forces⟩ :=
              ih hrest coherent' ((below.mono grows.size_le).store step hresults.below)
            exact ⟨coherent'', fun ended value accepts => ⟨hresults.forces value
              ((grows_runSteps keepsGoing number rest _ d').accepts accepts), forces ended value accepts⟩⟩
        | error e d' =>
            have grows := Synthesis.grows_of_error hrun
            have coherent' := ensures.of_run_error hrun
            cases keepsGoing with
            | true => exact ih hrest coherent' (below.mono grows.size_le)
            | false => exact ⟨coherent', nofun⟩

omit [LawfulForm F κ] in
/-- A run that does not go on after errors comes to its end only if every step gives results. -/
theorem runSteps_succeeded {number : Nat} {steps : List (Step F)} {registers : Registers F} {d : Draft F κ}
    (ended : (runSteps false number steps registers d).error? = none) :
    ∀ record ∈ (runSteps false number steps registers d).transcript, record.Succeeded := by
  induction steps generalizing registers d with
  | nil => exact nofun
  | cons step rest ih =>
      by_cases skipped : step.onlyIn.any (· ≠ number) = true
      · simp only [runSteps, skipped, ↓reduceIte] at ended ⊢
        exact ih ended
      · simp only [runSteps, skipped, Bool.false_eq_true, ↓reduceIte] at ended ⊢
        cases hrun : (step.operation.synthesize registers : Synthesis F κ _).run d with
        | ok results d' =>
            simp only [hrun] at ended ⊢
            exact List.forall_mem_cons.mpr ⟨⟨results, rfl⟩, ih ended⟩
        | error e d' =>
            rw [hrun] at ended
            cases ended

end Circuit

/-! ## Compiled systems -/

theorem Draft.satisfied_toSystem {value : Wire → F.Elem} :
    (d.toSystem ConstraintForm.collect).Satisfied value ↔ d.Accepts value := by
  show (∀ c ∈ (ConstraintForm.collect d.constraints.toList).toList, c.Holds value) ↔ _
  rw [LawfulForm.toList_collect]
  exact List.forall_mem_map

omit [LawfulForm F κ] in
theorem Definition.compilation_ok {definition : Definition F κ} {system : System F}
    (compiled : definition.compilation.result = .ok system) :
    definition.error? = none ∧ system = definition.draft.toSystem ConstraintForm.collect := by
  unfold compilation at compiled
  cases herror : definition.error? with
  | some error => simp [herror] at compiled
  | none =>
      simp only [herror, Except.ok.injEq] at compiled
      exact ⟨rfl, compiled.symm⟩

namespace Circuit

theorem define_coherent (κ : Type) [ConstraintForm F κ] [LawfulForm F κ] (prime : F.modulus.Prime)
    {circuit : Circuit F} (closed : circuit.Closed) (sharesConstants : Bool) (number : Nat) :
    (circuit.define κ sharesConstants number).draft.Coherent :=
  (runSteps_enforces prime closed (Draft.coherent_empty sharesConstants) Registers.below_nil).1

theorem define_enforces (κ : Type) [ConstraintForm F κ] [LawfulForm F κ] (prime : F.modulus.Prime)
    {circuit : Circuit F} (closed : circuit.Closed) {sharesConstants : Bool} {number : Nat} {system : System F}
    (compiled : (circuit.define κ sharesConstants number).compilation.result = .ok system)
    {value : Wire → F.Elem} (satisfied : system.Satisfied value) :
    Enforces value number circuit.steps [] (circuit.define κ sharesConstants number).transcript := by
  obtain ⟨ended, rfl⟩ := Definition.compilation_ok compiled
  exact (runSteps_enforces prime closed (Draft.coherent_empty sharesConstants) Registers.below_nil).2 ended
    value (Draft.satisfied_toSystem.mp satisfied)

omit [LawfulForm F κ] in
theorem define_succeeded {circuit : Circuit F} {sharesConstants : Bool} {number : Nat} {system : System F}
    (compiled : (circuit.define κ sharesConstants number).compilation.result = .ok system)
    (plain : circuit.keepsGoing = false) :
    ∀ record ∈ (circuit.define κ sharesConstants number).transcript, record.Succeeded := by
  have ended := (Definition.compilation_ok compiled).1
  rw [define, plain] at ended ⊢
  exact runSteps_succeeded ended

/-- Whatever the backend, compiling is finishing a definition in constraints of a lawful form. -/
theorem exists_compilation (options : CompileOptions) (circuit : Circuit F) (number : Nat) :
    ∃ (κ : Type) (_ : ConstraintForm F κ) (_ : LawfulForm F κ),
      circuit.compileOnce options number
        = (circuit.define κ options.eliminateConstantWires number).compilation := by
  unfold compileOnce
  cases options.backend with
  | rank1 => exact ⟨Triple F, inferInstance, inferInstance, rfl⟩
  | gate => exact ⟨Gate F, inferInstance, inferInstance, rfl⟩

/-- Confirming compares the system with that of another definition. -/
theorem confirm_eq {circuit : Circuit F} {options : CompileOptions} {number : Nat} {other : System F}
    (again : (circuit.compileOnce options number).result = .ok other) (system : System F) :
    circuit.confirm options number system
      = if system = other then .ok system else .error (.nonDeterministic (system.difference other false)) := by
  simp only [confirm, again, bind, Except.bind]
  split
  · rename_i equal
    rw [if_pos (System.difference_eq_equal.mp equal)]
    rfl
  · rename_i differ
    rw [if_neg fun same => differ (System.difference_eq_equal.mpr same)]
    rfl

/-- A system is confirmed by a definition that gives the same. -/
theorem confirm_ok {circuit : Circuit F} {options : CompileOptions} {number : Nat} {system system' : System F}
    (confirmed : circuit.confirm options number system = .ok system') :
    system = system' ∧ (circuit.compileOnce options number).result = .ok system' := by
  cases again : (circuit.compileOnce options number).result with
  | error error => simp [confirm, again, bind, Except.bind] at confirmed
  | ok other =>
      rw [confirm_eq again] at confirmed
      split at confirmed
      · rename_i same
        obtain rfl := Except.ok.inj confirmed
        exact ⟨rfl, by rw [same]⟩
      · cases confirmed

theorem compile_of_plain {circuit : Circuit F} {options : CompileOptions} (plain : ¬ options.checkDeterminism = true)
    (number : Nat) : circuit.compile options number = circuit.compileOnce options number :=
  if_neg plain

theorem result_compile_of_checks {circuit : Circuit F} {options : CompileOptions}
    (checks : options.checkDeterminism = true) (number : Nat) : (circuit.compile options number).result
      = (circuit.compileOnce options number).result.bind (circuit.confirm options (number + 1)) := by
  rw [compile, if_pos checks]

theorem transcript_compile (circuit : Circuit F) (options : CompileOptions) (number : Nat) :
    (circuit.compile options number).transcript = (circuit.compileOnce options number).transcript := by
  unfold compile
  dsimp only
  split <;> rfl

theorem compile_ok {circuit : Circuit F} {options : CompileOptions} {number : Nat} {system : System F}
    (compiled : (circuit.compile options number).result = .ok system) :
    (circuit.compileOnce options number).result = .ok system ∧ (options.checkDeterminism = true →
      (circuit.compileOnce options (number + 1)).result = .ok system) := by
  by_cases checks : options.checkDeterminism = true
  · rw [result_compile_of_checks checks] at compiled
    cases first : (circuit.compileOnce options number).result with
    | error error =>
        rw [first] at compiled
        cases compiled
    | ok system' =>
        rw [first] at compiled
        obtain ⟨rfl, again⟩ := confirm_ok compiled
        exact ⟨rfl, fun _ => again⟩
  · rw [compile_of_plain checks] at compiled
    exact ⟨compiled, fun h => absurd h checks⟩

/-- Whatever an assignment gives to the outputs of hints, if it satisfies the compiled system then the results of
every step relate to its operands as its operation says. Only a circuit that goes on after errors has steps
without results. -/
theorem satisfied_enforces (prime : F.modulus.Prime) {circuit : Circuit F} (closed : circuit.Closed)
    {options : CompileOptions} {number : Nat} {system : System F}
    (compiled : (circuit.compile options number).result = .ok system) {value : Wire → F.Elem}
    (satisfied : system.Satisfied value) :
    Enforces value number circuit.steps [] (circuit.compile options number).transcript ∧
      (circuit.keepsGoing = false → ∀ record ∈ (circuit.compile options number).transcript, record.Succeeded) := by
  obtain ⟨κ, _, _, same⟩ := exists_compilation options circuit number
  have compiledOnce := (compile_ok compiled).1
  rw [same] at compiledOnce
  rw [transcript_compile, same]
  exact ⟨define_enforces κ prime closed compiledOnce satisfied, define_succeeded compiledOnce⟩

/-- The hint that offers an inverse of zero returns four here. -/
theorem fiveForZero_enforced : ∃ system, (fiveForZero.compile {} 0).result = .ok system ∧
    system.Satisfied (fun wire => [0, 4, 0, 5].getD wire.index 0) ∧ fiveForZero.keepsGoing = false ∧
    Enforces (fun wire => [0, 4, 0, 5].getD wire.index 0) 0 fiveForZero.steps []
      (fiveForZero.compile {} 0).transcript ∧
    ∀ record ∈ (fiveForZero.compile {} 0).transcript, record.Succeeded := by
  obtain ⟨system, compiled, satisfied⟩ : ∃ system, (fiveForZero.compile {} 0).result = .ok system ∧
      system.Satisfied (fun wire => [0, 4, 0, 5].getD wire.index 0) := ⟨_, rfl, by decide +kernel⟩
  obtain ⟨enforces, succeeded⟩ := satisfied_enforces PrimeField.prime_seven (by decide) compiled satisfied
  exact ⟨system, compiled, satisfied, rfl, enforces, succeeded rfl⟩

end Circuit

end ArithCircuit
