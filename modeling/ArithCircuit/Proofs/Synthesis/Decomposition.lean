import ArithCircuit.Proofs.Circuit.Meaning
import ArithCircuit.Proofs.Synthesis.Assertions

/-!
# Decompositions

The digits of an expression are fresh wires, so their constraints are about wires of the draft even if
the expression is not.
-/

namespace ArithCircuit.Synthesis

open scoped Fin.CommRing

open LinearCombination (ofConstant ofWire)

variable {F : PrimeField} {κ : Type} [ConstraintForm F κ] [LawfulForm F κ] {d d' : Draft F κ}
  {x : LinearCombination F} {rs : List (LinearCombination F)} {width : Nat}

/-! ## Outputs of hints -/

omit [LawfulForm F κ] in
theorem run_of_hint {name : String} {inputs : List (LinearCombination F)} {outputs : Nat}
    (hrun : (hint name inputs outputs : Synthesis F κ (List (LinearCombination F))).run d = .ok rs d') :
    ∃ wires : List Wire, rs = wires.map ofWire ∧ wires.length = outputs ∧ ∀ wire ∈ wires, wire.index < d'.size := by
  obtain ⟨inputWires, d₁, -, bound⟩ := run_of_bind hrun
  rw [run_bind_ok (run_bindHint name inputWires outputs)] at bound
  obtain ⟨rfl, rfl⟩ := EStateM.Result.ok.inj bound
  exact ⟨Wire.span d₁.size outputs, rfl, Wire.length_span _ _, fun wire hwire => by
    simpa using (Wire.mem_span.mp hwire).2⟩

/-! ## Digits -/

section Prime

variable (prime : F.modulus.Prime) (guarded : d.Guarded)
include prime guarded

theorem digitWires_force
    (hrun : (digitWires x width : Synthesis F κ (List (LinearCombination F))).run d = .ok rs d') :
    rs.length = width ∧ d'.Forces fun value =>
      PrimeField.IsDecomposition (x.evalWith value) (rs.map (·.evalWith value)) := by
  obtain ⟨digits, d₁, hinted, rest⟩ := run_of_bind hrun
  obtain ⟨_, d₂, asserted, rest⟩ := run_of_bind rest
  obtain ⟨_, d₃, equated, last⟩ := run_of_bind rest
  obtain ⟨rfl, rfl⟩ := EStateM.Result.ok.inj last
  obtain ⟨wires, rfl, length, hlt⟩ := run_of_hint hinted
  have isDigit := assertBooleans_force prime ((evolves_of_ok hinted).guarded guarded) hlt asserted
  refine ⟨by simpa using length, fun value accepts => ⟨fun digit hdigit => ?_, ?_⟩⟩
  · obtain ⟨r, hr, rfl⟩ := List.mem_map.mp hdigit
    obtain ⟨wire, hwire, rfl⟩ := List.mem_map.mp hr
    rw [LinearCombination.evalWith_ofWire]
    exact isDigit value ((grows_of_ok equated).accepts accepts) wire hwire
  · rw [← LinearCombination.evalWith_ofBits]
    exact assertEqual_forces equated value accepts

end Prime

omit [ConstraintForm F κ] [LawfulForm F κ] in
/-- The digits of a constant that is folded are constants. -/
theorem spells_of_decompose {k : F.Elem} {bits : List Bool} (hbits : PrimeField.decompose? k width = some bits) :
    bits.length = width ∧ ∀ value : Wire → F.Elem, PrimeField.Spells
      ((bits.map fun bit : Bool => ofConstant (F.ofNat bit.toNat)).map (·.evalWith value)) k.val := by
  rw [PrimeField.decompose?_eq] at hbits
  split at hbits
  · rename_i fits
    cases hbits
    refine ⟨length_lowBits width k.val, fun value => ?_⟩
    have values : (fun r : LinearCombination F => r.evalWith value) ∘
        (fun bit : Bool => ofConstant (F.ofNat bit.toNat)) = PrimeField.ofBit := by
      funext bit
      simp [PrimeField.ofBit]
    rw [List.map_map, values]
    exact PrimeField.spells_lowBits fits
  · cases hbits

/-- What is known of the results of a decomposition that is made: digits that add up to the expression, and its
own digits if it is folded. -/
theorem toBits_forces (prime : F.modulus.Prime) (guarded : d.Guarded)
    (hrun : (toBits x width : Synthesis F κ (List (LinearCombination F))).run d = .ok rs d') :
    (0 < width ∧ width ≤ F.numBits) ∧ rs.length = width ∧
      (d'.Forces fun value => PrimeField.IsDecomposition (x.evalWith value) (rs.map (·.evalWith value))) ∧
      (d.sharesConstants = true → x.asConstant?.isSome → ∀ value,
        PrimeField.Spells (rs.map (·.evalWith value)) (x.evalWith value).val) := by
  unfold toBits at hrun
  split at hrun
  · cases hrun
  · rename_i accepted
    have fits : 0 < width ∧ width ≤ F.numBits := by omega
    cases hk : x.asConstant? with
    | none =>
        rw [hk] at hrun
        obtain ⟨length, forces⟩ := digitWires_force prime guarded hrun
        exact ⟨fits, length, forces, fun _ isSome => by cases isSome⟩
    | some k =>
        rw [hk] at hrun
        obtain ⟨_, _, got, rest⟩ := run_of_bind hrun
        obtain ⟨rfl, rfl⟩ := EStateM.Result.ok.inj got
        split at rest
        · split at rest
          · rename_i bits hbits
            obtain ⟨rfl, rfl⟩ := EStateM.Result.ok.inj rest
            obtain ⟨length, spells⟩ := spells_of_decompose hbits
            rw [LinearCombination.eq_ofConstant hk]
            simp only [LinearCombination.evalWith_ofConstant]
            exact ⟨fits, by simpa using length, fun value _ => by simpa using (spells value).isDecomposition,
              fun _ _ value => spells value⟩
          · cases rest
        · rename_i plain
          obtain ⟨length, forces⟩ := digitWires_force prime guarded rest
          exact ⟨fits, length, forces, fun shares => absurd shares plain⟩

end ArithCircuit.Synthesis
