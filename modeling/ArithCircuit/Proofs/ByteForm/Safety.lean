import ArithCircuit.Proofs.ByteForm.Exactness
import ArithCircuit.Proofs.System.Difference
import ArithCircuit.Proofs.Witness.Bounds
import ArithCircuit.Proofs.Witness.Inputs

/-!
# Systems from bytes are safe to use

The reader of systems lets no reference out of range pass, so whatever bytes it accepts, nothing that is
done with the system leaves its bounds.
-/

namespace ArithCircuit.System

variable {F : PrimeField} {bytes : List UInt8} {system : System F}

theorem spellable_of_ofBytes (accepted : System.ofBytes F bytes = .ok system) : system.Spellable := by
  obtain ⟨listed, read, rfl⟩ := ofBytes_eq_ok.mp accepted
  exact (verbatim_eq_ok.mp read).1.merged

theorem coveredBy_wireCount (inRange : system.InRange) : system.coveredBy system.wireCount = true := by
  simp only [coveredBy, List.all_eq_true, decide_eq_true_eq]
  exact fun c hc => inRange.constraint_lt hc

/-- Every reference of a system from bytes is in range, and so everything that is done with it is: to solve
it for any inputs with total handlers, to check values for its wires, and to compare it. -/
theorem ofBytes_safe (accepted : System.ofBytes F bytes = .ok system) :
    (system.InRange ∧ system.constraints.Linked ∧ system.Scheduled) ∧
    (∀ solver : Solver F, solver.system = system → solver.registry.Total F.modulus →
      ∀ publicValues secretValues, solver.Safe publicValues secretValues) ∧
    (∀ values : Array F.Elem, values.size = system.wireCount → (system.violations? values).isSome) ∧
    ∀ (other : System F) (ignoreCounts : Bool), (system.difference other ignoreCounts).Inside system other ∧
      (other.difference system ignoreCounts).Inside other system := by
  have spellable := spellable_of_ofBytes accepted
  refine ⟨⟨spellable.inRange, spellable.linked, spellable.scheduled⟩, ?_, ?_, fun other ignoreCounts => ?_⟩
  · rintro solver rfl total publicValues secretValues
    exact Solver.safe_of_inRange spellable.inRange total publicValues secretValues
  · intro values size
    rw [violations?, size, if_pos (coveredBy_wireCount spellable.inRange)]
    rfl
  · exact ⟨difference_inside system other ignoreCounts, difference_inside other system ignoreCounts⟩

theorem wordy_safe : System.ofBytes .seven wordy.toBytes = .ok wordy.merged ∧
    ({ system := wordy.merged, registry := .builtin } : Solver .seven).Safe [] [2] := by
  have accepted : System.ofBytes .seven wordy.toBytes = .ok wordy.merged := by decide +kernel
  exact ⟨accepted, (ofBytes_safe accepted).2.1 _ rfl (HintRegistry.total_builtin (by decide)) [] [2]⟩

/-! ## Supplied inputs -/

/-- The inputs of an accepted system, if they are distinct wires, come out of a solve as they were supplied,
but for those that a hint of the system outputs. -/
theorem ofBytes_keeps_inputs (accepted : System.ofBytes F bytes = .ok system)
    (distinct : ((system.publicInputs ++ system.secretInputs).map (·.wire)).Nodup) {solver : Solver F}
    (solves : solver.system = system) {publicValues secretValues : List F.Elem}
    (publicLength : publicValues.length = system.publicInputs.length)
    (secretLength : secretValues.length = system.secretInputs.length) {witness : Witness F}
    (solved : (solver.solve publicValues secretValues).1 = .ok witness) :
    (∃ value, system.Supplied publicValues secretValues value ∧
      ∀ wire, system.IsInput wire → (∀ b ∈ system.hints, wire ∉ b.outputs) → witness.value wire = value wire) ∧
    ((∀ b ∈ system.hints, ∀ wire ∈ b.outputs, ¬ system.IsInput wire) →
      witness.publicValues = publicValues ∧ witness.secretValues = secretValues) := by
  subst solves
  have inRange := (spellable_of_ofBytes accepted).inRange
  obtain ⟨value, supplied, kept, publicWires, secretWires⟩ :=
    Solver.exists_supplied_of_solve inRange distinct publicLength secretLength solved
  refine ⟨⟨value, supplied, kept⟩, fun internal => ?_⟩
  have each : ∀ input ∈ solver.system.publicInputs ++ solver.system.secretInputs,
      witness.value input.wire = value input.wire := fun input hinput =>
    kept input.wire ⟨input, hinput, rfl⟩ fun b hb output =>
      internal b hb input.wire output ⟨input, hinput, rfl⟩
  refine ⟨?_, ?_⟩
  · rw [Witness.publicValues, publicWires, List.map_map, ← supplied.publicInputs]
    exact List.map_congr_left fun input hinput => each input (List.mem_append_left _ hinput)
  · rw [Witness.secretValues, secretWires, List.map_map, ← supplied.secretInputs]
    exact List.map_congr_left fun input hinput => each input (List.mem_append_right _ hinput)

theorem inverseSystem_keeps_inputs : ∃ witness : Witness .seven,
    System.ofBytes .seven Solver.inverseSystem.toBytes = .ok Solver.inverseSystem ∧
      (({ system := Solver.inverseSystem, registry := .builtin } : Solver .seven).solve [] [3]).1 = .ok witness ∧
      witness.publicValues = [] ∧ witness.secretValues = [3] := by
  have accepted : System.ofBytes .seven Solver.inverseSystem.toBytes = .ok Solver.inverseSystem := by decide +kernel
  have solved : (({ system := Solver.inverseSystem, registry := .builtin } : Solver .seven).solve [] [3]).1
      = .ok ⟨#[3, 5, 1], [], [⟨0⟩]⟩ := by decide +kernel
  exact ⟨_, accepted, solved, (ofBytes_keeps_inputs accepted (by decide) rfl rfl rfl solved).2 (by decide)⟩

/-- A secret, and a hint that outputs its two digits: one takes the place of the secret itself. -/
def digitsInPlace : System .seven where
  roles := [.secretInput, .internal]
  publicInputs := []
  secretInputs := [⟨⟨0⟩, "x"⟩]
  constraints := .rank1 []
  hints := [⟨Hint.bitsName, [⟨0⟩], [⟨0⟩, ⟨1⟩], 0⟩]

/-- The two is accepted, and comes out as zero. -/
theorem digitsInPlace_overwrites :
    System.ofBytes .seven digitsInPlace.toBytes = .ok digitsInPlace ∧
      ((digitsInPlace.publicInputs ++ digitsInPlace.secretInputs).map (·.wire)).Nodup ∧
      ∃ witness, (({ system := digitsInPlace, registry := .builtin } : Solver .seven).solve [] [2]).1 = .ok witness ∧
        witness.secretValues = [0] ∧ witness.secretValues ≠ [2] :=
  ⟨by decide +kernel, by decide, ⟨#[0, 1], [], [⟨0⟩]⟩, by decide +kernel, by decide, by decide⟩

end ArithCircuit.System
