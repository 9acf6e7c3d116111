import ArithCircuit.Proofs.Circuit.Rejection
import ArithCircuit.Proofs.Circuit.Steady
import ArithCircuit.Proofs.Field.Packing
import ArithCircuit.Proofs.Text.Separation
import ArithCircuit.Proofs.Witness.Calls

/-!
# Bits packed into public inputs

The circuit that packs its secret bits into public inputs is solved by the native packing of the bits, and
by nothing else. No bit is lost, since no string of `capacity` bits reaches the modulus.
-/

namespace ArithCircuit

open scoped Fin.CommRing

open PrimeField (IsDigit ofBit ofDigits)

variable {F : PrimeField}

/-! ## The circuit -/

namespace Circuit

/-- Declares a secret input for a bit and constrains it, in the register of its number. -/
def declareBit (bitName : Nat → String) (i : Nat) : List (Step F) := [
  { operation := .secretInput (bitName i), out := some (Nat.repr i) },
  { operation := .assertBoolean (.register (Nat.repr i)) }]

def packStep (name : String) (count : Nat) : Step F :=
  { operation := .packIntoInputs name ((List.range count).map fun i => .register (Nat.repr i)) }

/-- Packs so many secret bits into public inputs. -/
def packing (name : String) (bitName : Nat → String) (count : Nat) : Circuit F where
  steps := (List.range count).flatMap (declareBit bitName) ++ [packStep name count]

variable {name : String} {bitName : Nat → String} {count : Nat}

theorem forall_mem_packing {P : Step F → Prop} (input : ∀ i, P ⟨.secretInput (bitName i), some (Nat.repr i), none⟩)
    (boolean : ∀ i, P ⟨.assertBoolean (.register (Nat.repr i)), none, none⟩) (pack : P (packStep name count)) :
    ∀ step ∈ (packing name bitName count : Circuit F).steps, P step := by
  intro step hstep
  rcases List.mem_append.mp hstep with hstep | hstep
  · obtain ⟨i, -, hstep⟩ := List.mem_flatMap.mp hstep
    rcases List.mem_pair.mp hstep with rfl | rfl
    · exact input i
    · exact boolean i
  · obtain rfl := List.mem_singleton.mp hstep
    exact pack

theorem packing_steady : (packing name bitName count : Circuit F).Steady :=
  forall_mem_packing (fun _ => rfl) (fun _ => rfl) rfl

theorem packing_closed : (packing name bitName count : Circuit F).Closed :=
  forall_mem_packing (by simp [Operation.operands]) (by simp [Operation.operands, Operand.Closed])
    (by simp [packStep, Operation.operands, Operand.Closed])

/-! ### Its inputs -/

/-- The names of the public inputs that a step of the packing circuit declares. -/
def packedNames (step : Step F) : List String :=
  match step.operation with
  | .packIntoInputs name bits => (List.range (bits.length ⌈/⌉ F.capacity)).map fun i => s!"{name}[{i}]"
  | _ => []

/-- The names of its secret inputs. -/
def bitNames (step : Step F) : List String :=
  match step.operation with
  | .secretInput name => [name]
  | _ => []

theorem packing_declares {κ : Type} [ConstraintForm F κ] [UniformForm F κ] :
    ∀ step ∈ (packing name bitName count : Circuit F).steps, ∀ registers,
      (step.operation.synthesize registers : Synthesis F κ _).Declares (packedNames step) (bitNames step) := by
  refine forall_mem_packing (fun i registers => ?_) (fun i registers => ?_) fun registers => ?_
  · rw [Operation.synthesize, map_eq_pure_bind]
    exact (Synthesis.declares_secretInput (bitName i)).bind_pure _
  · exact (Synthesis.declares_assertBoolean _).bind_pure _
  · have packed := Synthesis.declares_packChunks (κ := κ) name 0
      (chunks F.capacity (((List.range count).map fun i => Operand.register (Nat.repr i)).map registers.read))
    rw [length_chunks, List.length_map, ← List.range_eq_range'] at packed
    exact packed

theorem flatMap_packedNames : (packing name bitName count : Circuit F).steps.flatMap packedNames
    = (List.range (count ⌈/⌉ F.capacity)).map fun i => s!"{name}[{i}]" := by
  simp [packing, declareBit, packStep, packedNames, List.flatMap_assoc]

theorem flatMap_bitNames :
    (packing name bitName count : Circuit F).steps.flatMap bitNames = (List.range count).map bitName := by
  rw [List.map_eq_flatMap]
  simp [packing, declareBit, packStep, bitNames, List.flatMap_assoc]

/-! ### Its evaluation -/

section Evaluation

variable {registry : HintRegistry} {number : Nat} {publicValues : List F.Elem}

/-- The steps are evaluated to their end. -/
def Completes (registry : HintRegistry) (number : Nat) (steps : List (Step F)) (values : ValueRegisters F)
    (supply : Supply F) : Prop :=
  ∃ results, (evaluateSteps registry number steps values).run supply = .ok results

theorem exists_evaluate_iff {circuit : Circuit F} {supply : Supply F} :
    (∃ results, circuit.evaluate registry number supply = .ok results) ↔
      Completes registry number circuit.steps [] supply := by
  simp only [evaluate, Completes]
  cases (evaluateSteps registry number circuit.steps []).run supply <;> simp [Functor.map, Except.map]

theorem completes_cons {step : Step F} {rest : List (Step F)} {values : ValueRegisters F} {supply supply' : Supply F}
    {results : List F.Elem} (steady : step.onlyIn = none)
    (evaluated : (step.operation.evaluate registry values.read).run supply = .ok (results, supply')) :
    Completes registry number (step :: rest) values supply ↔
      Completes registry number rest (values.store step results) supply' := by
  rw [Completes, run_evaluateSteps (by simp [steady]), evaluated]
  simp only [Except.bind, Completes]
  cases (evaluateSteps registry number rest (values.store step results)).run supply' with
  | error stop => simp [Except.map]
  | ok after => simp [Except.map]

/-- The registers after bits were declared. -/
def storeBits : List Nat → List Bool → ValueRegisters F → ValueRegisters F
  | i :: rest, bit :: bits, values => storeBits rest bits ((Nat.repr i, ofBit bit) :: values)
  | _, _, values => values

theorem get_storeBits_of_not_mem {i : Nat} {indices : List Nat} (new : i ∉ indices) (bits : List Bool)
    (values : ValueRegisters F) : (storeBits indices bits values).get (Nat.repr i) = values.get (Nat.repr i) := by
  induction indices generalizing bits values with
  | nil => rfl
  | cons j rest ih =>
      obtain ⟨different, later⟩ := not_or.mp (mt List.mem_cons.mpr new)
      cases bits with
      | nil => rfl
      | cons bit bits =>
          have other : Nat.repr i ≠ Nat.repr j := fun same => different (Text.toString_injective same)
          rw [storeBits, ih later, ValueRegisters.get, ValueRegisters.get, List.lookup_cons, beq_false_of_ne other]

theorem read_storeBits {indices : List Nat} (distinct : indices.Nodup) {bits : List Bool}
    (length : bits.length = indices.length) (values : ValueRegisters F) :
    indices.map (fun i => (storeBits indices bits values).get (Nat.repr i)) = bits.map ofBit := by
  induction indices generalizing bits values with
  | nil => simp [List.length_eq_zero_iff.mp length]
  | cons i rest ih =>
      obtain ⟨new, distinct⟩ := List.nodup_cons.mp distinct
      cases bits with
      | nil => cases length
      | cons bit bits =>
          rw [List.map_cons, List.map_cons, storeBits, ih distinct (Nat.succ.inj length),
            get_storeBits_of_not_mem new, ValueRegisters.get]
          simp

/-- Bits are taken from the secret inputs and pass their assertions. -/
theorem completes_declareBits {indices : List Nat} {bits : List Bool} (length : bits.length = indices.length)
    (rest : List (Step F)) (values : ValueRegisters F) :
    Completes registry number (indices.flatMap (declareBit bitName) ++ rest) values
        ⟨publicValues, bits.map ofBit⟩ ↔
      Completes registry number rest (storeBits indices bits values) ⟨publicValues, []⟩ := by
  induction indices generalizing bits values with
  | nil =>
      rw [List.length_eq_zero_iff.mp length]
      rfl
  | cons i indices ih =>
      cases bits with
      | nil => cases length
      | cons bit bits =>
          have declared : ((Operation.secretInput (bitName i)).evaluate registry values.read).run
              ⟨publicValues, (bit :: bits).map ofBit⟩ = .ok ([ofBit bit], ⟨publicValues, bits.map ofBit⟩) := rfl
          have read : ValueRegisters.read ((Nat.repr i, ofBit bit) :: values) (.register (Nat.repr i))
              = (ofBit bit : F.Elem) := by
            simp [ValueRegisters.read, ValueRegisters.get]
          have asserted : ((Operation.assertBoolean (.register (Nat.repr i))).evaluate registry
              (ValueRegisters.read ((Nat.repr i, ofBit bit) :: values))).run
              ⟨publicValues, bits.map ofBit⟩ = .ok ([], ⟨publicValues, bits.map ofBit⟩) := by
            rw [Operation.evaluate, read, Evaluation.demand_of (PrimeField.ofBit_isDigit bit)]
            rfl
          rw [List.flatMap_cons, List.append_assoc, declareBit, List.cons_append, List.cons_append, List.nil_append,
            completes_cons rfl declared]
          exact (completes_cons rfl asserted).trans (ih (Nat.succ.inj length) _)

theorem run_pack (piece : List F.Elem) (rest : List (List F.Elem)) (v : F.Elem)
    (publicValues secretValues : List F.Elem) :
    (Evaluation.pack (piece :: rest)).run ⟨v :: publicValues, secretValues⟩
      = if ofDigits piece = v then
          ((Evaluation.pack rest).run ⟨publicValues, secretValues⟩).map fun (packed, supply) => (v :: packed, supply)
        else .error .violated := by
  have first : (Evaluation.pack (piece :: rest)).run ⟨v :: publicValues, secretValues⟩
      = (do Evaluation.demand (ofDigits piece = v); return v :: (← Evaluation.pack rest) : Evaluation F _).run
          ⟨publicValues, secretValues⟩ := rfl
  rw [first]
  split
  · rename_i equal
    rw [Evaluation.demand_of equal, pure_bind, StateT.run_bind]
    cases (Evaluation.pack rest).run ⟨publicValues, secretValues⟩ <;> rfl
  · rename_i different
    rw [Evaluation.demand_of_not different]
    rfl

/-- Public values pass for the chunks if they are what the chunks spell. -/
theorem pack_completes {pieces : List (List F.Elem)} {publicValues : List F.Elem} (secretValues : List F.Elem)
    (length : publicValues.length = pieces.length) :
    (∃ results, (Evaluation.pack pieces).run ⟨publicValues, secretValues⟩ = .ok results) ↔
      publicValues = pieces.map ofDigits := by
  induction pieces generalizing publicValues with
  | nil => exact iff_of_true ⟨_, rfl⟩ (List.length_eq_zero_iff.mp length)
  | cons piece rest ih =>
      cases publicValues with
      | nil => cases length
      | cons v publicValues =>
          rw [run_pack, List.map_cons, List.cons.injEq, ← ih (Nat.succ.inj length), @eq_comm _ v]
          split
          · rename_i equal
            cases (Evaluation.pack rest).run ⟨publicValues, secretValues⟩ <;> simp [equal, Except.map]
          · rename_i different
            simp [different]

/-- Packing is evaluated to its end for the native packing of the bits, and for no other public values. -/
theorem packing_evaluates {bits : List Bool} (length : bits.length = count)
    (publicLength : publicValues.length = count ⌈/⌉ F.capacity) :
    (∃ results, (packing name bitName count).evaluate registry number ⟨publicValues, bits.map ofBit⟩ = .ok results) ↔
      publicValues = F.multipack bits := by
  have read : ((List.range count).map fun i => Operand.register (Nat.repr i)).map
      (ValueRegisters.read (storeBits (List.range count) bits [])) = (bits.map ofBit : List F.Elem) := by
    rw [List.map_map]
    exact read_storeBits List.nodup_range (by rw [length, List.length_range]) []
  have enough : publicValues.length = (chunks F.capacity (bits.map (ofBit : Bool → F.Elem))).length := by
    rw [publicLength, length_chunks, List.length_map, length]
  rw [exists_evaluate_iff, packing, completes_declareBits (by rw [length, List.length_range]),
    PrimeField.multipack_eq, ← pack_completes (List.nil : List F.Elem) enough, Completes,
    run_evaluateSteps (by simp [packStep]), packStep, Operation.evaluate, read]
  cases (Evaluation.pack (chunks F.capacity (bits.map ofBit))).run ⟨publicValues, []⟩ with
  | error stop => simp [Except.bind]
  | ok after => exact iff_of_true ⟨_, rfl⟩ ⟨_, rfl⟩

end Evaluation

/-! ### Its system -/

section System

variable (options : CompileOptions) (number : Nat)

/-- No step fails, since there are bits for which the steps are evaluated to their end. -/
theorem error?_define_packing (prime : F.modulus.Prime) (name : String) (bitName : Nat → String) (count : Nat) :
    ((packing name bitName count : Circuit F).define (options.backend.Form F) options.eliminateConstantWires
      number).error? = none := by
  let bits := List.replicate count false
  have length : bits.length = count := List.length_replicate
  have publicLength : (F.multipack bits).length = count ⌈/⌉ F.capacity := by
    rw [PrimeField.length_multipack, length]
  obtain ⟨results, evaluates⟩ : ∃ results, (packing name bitName count).evaluate HintRegistry.builtin.lenient number
      ⟨F.multipack bits, bits.map ofBit⟩ = .ok results := (packing_evaluates length publicLength).mpr rfl
  have fits : ∀ step ∈ (packing name bitName count : Circuit F).steps,
      ¬ step.onlyIn.any (· ≠ number) = true → step.operation.fitsField :=
    forall_mem_packing (fun _ _ => rfl) (fun _ _ => rfl) fun _ => rfl
  exact error?_define_of_evaluates _ prime packing_closed HintRegistry.FromBuiltin.builtin.answers.lenient
    (HintRegistry.isLenient_lenient _) fits evaluates _

theorem packing_compiles (prime : F.modulus.Prime) (name : String) (bitName : Nat → String) (count : Nat) :
    ∃ system, ((packing name bitName count : Circuit F).compile options number).result = .ok system ∧
      ((packing name bitName count : Circuit F).define (options.backend.Form F) options.eliminateConstantWires
        number).compilation.result = .ok system ∧
      system.publicInputs.map Input.name = ((List.range (count ⌈/⌉ F.capacity)).map fun i => s!"{name}[{i}]") ∧
      system.secretInputs.map Input.name = (List.range count).map bitName ∧ system.hints = [] := by
  have ended := error?_define_packing options number prime name bitName count
  have declares := declares_runSteps packing_steady packing_declares ended
  rw [flatMap_packedNames, flatMap_bitNames] at declares
  refine ⟨_, compile_steady packing_steady options number ended, ?_, declares.publicInputs, declares.secretInputs,
    congrArg Array.toList declares.hints⟩
  rw [Definition.compilation, ended]

/-- A system that a packing circuit is compiled to is solved by the native packing of the bits alone. -/
theorem packing_solved (prime : F.modulus.Prime) {system : System F}
    (compiled : ((packing name bitName count : Circuit F).define (options.backend.Form F)
      options.eliminateConstantWires number).compilation.result = .ok system)
    (publicCount : system.publicInputs.length = count ⌈/⌉ F.capacity)
    (secretCount : system.secretInputs.length = count) (noHints : system.hints = []) {bits : List Bool}
    (length : bits.length = count) (registry : HintRegistry) (publicValues : List F.Elem) :
    (∃ witness, Solver.solveOnce system registry publicValues (bits.map ofBit) = .ok witness) ↔
      publicValues = F.multipack bits := by
  let solver : Solver F := { system, registry := .builtin }
  let supply : Supply F := ⟨publicValues, bits.map ofBit⟩
  have anyRegistry : Solver.solveOnce system registry publicValues (bits.map ofBit)
      = (solver.solve publicValues (bits.map ofBit)).1 := solver.solve_of_no_hints noHints registry
  have compiled : ((packing name bitName count : Circuit F).define (options.backend.Form F)
      options.eliminateConstantWires number).compilation.result = .ok solver.system := compiled
  have checked : solver.system.hintError? solver.registry = none := by simp [solver, System.hintError?, noHints]
  have secretLength : supply.secretValues.length = solver.system.secretInputs.length := by
    rw [List.length_map, length]
    exact secretCount.symm
  have evaluated (enough : publicValues.length = count ⌈/⌉ F.capacity) :
      (∃ witness, (solver.solve publicValues (bits.map ofBit)).1 = .ok witness) ↔
        publicValues = F.multipack bits := by
    have publicLength : supply.publicValues.length = solver.system.publicInputs.length :=
      enough.trans publicCount.symm
    have same := (define_solves _ prime packing_closed
      (forall_mem_packing (fun _ => .inl rfl) (fun _ => .inl rfl) (.inl rfl)) compiled
      (fun keeps => absurd keeps Bool.false_ne_true) HintRegistry.FromBuiltin.builtin.answers checked publicLength
      secretLength).1
    exact same.solved_iff.trans (packing_evaluates length enough)
  rw [anyRegistry]
  constructor
  · rintro ⟨witness, solved⟩
    exact (evaluated ((Solver.publicLength_of_solve rfl solved).trans publicCount)).mp ⟨witness, solved⟩
  · rintro rfl
    exact (evaluated (by rw [PrimeField.length_multipack, length])).mpr rfl

/-- A circuit that packs bits declares the public inputs that its bits need, by their numbers, and its system is
solved by the native packing of the bits alone. The packing tells strings of bits of one length apart. -/
theorem packing_exact (prime : F.modulus.Prime) (name : String) (bitName : Nat → String) (count : Nat)
    (options : CompileOptions) (number : Nat) :
    (∃ system, ((packing name bitName count : Circuit F).compile options number).result = .ok system ∧
      system.publicInputs.map Input.name = ((List.range (count ⌈/⌉ F.capacity)).map fun i => s!"{name}[{i}]") ∧
      system.secretInputs.map Input.name = (List.range count).map bitName ∧
      ∀ bits : List Bool, bits.length = count → ∀ registry publicValues,
        (∃ witness, Solver.solveOnce system registry publicValues (bits.map ofBit) = .ok witness) ↔
          publicValues = F.multipack bits) ∧
    ∀ bits bits' : List Bool, bits.length = bits'.length → F.multipack bits = F.multipack bits' → bits = bits' := by
  obtain ⟨system, compiled, defined, publicNames, secretNames, noHints⟩ :=
    packing_compiles options number prime name bitName count
  have publicCount : system.publicInputs.length = count ⌈/⌉ F.capacity := by
    simpa using congrArg List.length publicNames
  have secretCount : system.secretInputs.length = count := by simpa using congrArg List.length secretNames
  refine ⟨⟨system, compiled, publicNames, secretNames, fun bits length registry publicValues => ?_⟩,
    fun _ _ => PrimeField.multipack_inj⟩
  exact packing_solved options number prime defined publicCount secretCount noHints length registry publicValues

/-- Three bits that are set need two inputs modulo seven. -/
theorem packing_threeBits :
    PrimeField.seven.modulus.Prime ∧
      ∃ system, ((packing "packed" (fun i => s!"bit {i}") 3 : Circuit .seven).compile { backend := .gate } 0).result
          = .ok system ∧
        system.publicInputs.map Input.name = ["packed[0]", "packed[1]"] ∧
        (∃ witness, Solver.solveOnce system .builtin [3, 1] [1, 1, 1] = .ok witness) ∧
        ∀ witness, Solver.solveOnce system .builtin [3, 0] [1, 1, 1] ≠ .ok witness := by
  obtain ⟨⟨system, compiled, publicNames, -, solved⟩, -⟩ :=
    packing_exact PrimeField.prime_seven "packed" (fun i => s!"bit {i}") 3 { backend := .gate } 0
  refine ⟨PrimeField.prime_seven, system, compiled, publicNames.trans (by decide), ?_, fun witness passes => ?_⟩
  · exact (solved [true, true, true] rfl .builtin [3, 1]).mpr (by decide)
  · exact absurd ((solved [true, true, true] rfl .builtin [3, 0]).mp ⟨witness, passes⟩) (by decide)

end System

end Circuit

end ArithCircuit
