import ArithCircuit.Proofs.Circuit.Emission
import ArithCircuit.Proofs.Constraint.Isolation

/-!
# Slots of gates

A gate weighs no slot that it leaves empty, so it says the same whatever an empty slot is taken to hold. All
gates that circuits compile into are of this kind.
-/

namespace ArithCircuit

open scoped Fin.CommRing

variable {F : PrimeField}

namespace Gate

variable {gate : Gate F} {value : Wire → F.Elem}

/-- The weight of a slot on its own. -/
def weight (gate : Gate F) : Slot → F.Elem
  | .left => gate.qL
  | .right => gate.qR
  | .output => gate.qO

/-- The value of a slot if each empty slot holds a value of its own. -/
def readOr (gate : Gate F) (value : Wire → F.Elem) (filler : Slot → F.Elem) (slot : Slot) : F.Elem :=
  ((gate.wire? slot).map value).getD (filler slot)

/-- Some slot is filled, and no empty slot has a part in what the gate requires. -/
structure Disciplined (gate : Gate F) : Prop where
  mentions : gate.wires ≠ []
  weightless : ∀ slot, gate.wire? slot = none → gate.weight slot = 0
  factors : gate.qM ≠ 0 → gate.l.isSome ∧ gate.r.isSome

theorem readOr_eq (slot : Slot) (filler : Slot → F.Elem) (filled : gate.wire? slot ≠ none) :
    gate.readOr value filler slot = read value (gate.wire? slot) := by
  obtain ⟨wire, hwire⟩ := Option.ne_none_iff_exists'.mp filled
  simp [readOr, read, hwire]

namespace Disciplined

/-- A slot counts for the same whatever it holds if it is empty. -/
theorem weight_mul_readOr (h : gate.Disciplined) (value : Wire → F.Elem) (filler : Slot → F.Elem) (slot : Slot) :
    gate.weight slot * gate.readOr value filler slot = gate.weight slot * read value (gate.wire? slot) := by
  by_cases empty : gate.wire? slot = none
  · rw [h.weightless slot empty, zero_mul, zero_mul]
  · rw [readOr_eq slot filler empty]

theorem product_readOr (h : gate.Disciplined) (value : Wire → F.Elem) (filler : Slot → F.Elem) :
    gate.qM * gate.readOr value filler .left * gate.readOr value filler .right
      = gate.qM * read value gate.l * read value gate.r := by
  by_cases zero : gate.qM = 0
  · simp only [zero, zero_mul]
  · obtain ⟨left, right⟩ := h.factors zero
    rw [readOr_eq .left filler (Option.isSome_iff_ne_none.mp left),
      readOr_eq .right filler (Option.isSome_iff_ne_none.mp right)]
    rfl

theorem residual_readOr (h : gate.Disciplined) (value : Wire → F.Elem) (filler : Slot → F.Elem) :
    gate.residual (gate.readOr value filler .left) (gate.readOr value filler .right) (gate.readOr value filler .output)
      = gate.residual (read value gate.l) (read value gate.r) (read value gate.o) := by
  have left := h.weight_mul_readOr value filler .left
  have right := h.weight_mul_readOr value filler .right
  have output := h.weight_mul_readOr value filler .output
  simp only [weight, wire?] at left right output
  rw [residual, residual, left, right, output, h.product_readOr value filler]

end Disciplined

/-! ## What the gates are made of -/

theorem ne_nil_of_left {wire : Wire} (h : gate.l = some wire) : gate.wires ≠ [] :=
  List.ne_nil_of_mem (mem_wires.mpr (.inl h))

theorem disciplined_pinned (wire : Wire) (k : F.Elem) : (pinned wire k).Disciplined where
  mentions := ne_nil_of_left rfl
  weightless slot empty := by
    cases slot with
    | left => cases empty
    | right => rfl
    | output => rfl
  factors nonzero := absurd rfl nonzero

theorem disciplined_affine (term : Term F) (constant : F.Elem) (output : Wire) :
    (affine term constant output).Disciplined where
  mentions := ne_nil_of_left rfl
  weightless slot empty := by
    cases slot with
    | left => cases empty
    | right => rfl
    | output => cases empty
  factors nonzero := absurd rfl nonzero

theorem disciplined_addition (first second : Term F) (constant : F.Elem) (output : Wire) :
    (addition first second constant output).Disciplined where
  mentions := ne_nil_of_left rfl
  weightless slot empty := by cases slot <;> cases empty
  factors nonzero := absurd rfl nonzero

theorem coefficient_of_absent {term : Option (Term F)} (absent : term.map Term.wire = none) :
    (term.map Term.coefficient).getD 0 = 0 := by
  rw [Option.map_eq_none_iff.mp absent, Option.map_none, Option.getD_none]

/-- A gate with a slot for each of the terms, of which there is at least one. -/
theorem disciplined_zeroSum (first : Term F) (rest : List (Term F)) (constant : F.Elem) :
    (zeroSum (first :: rest) constant).Disciplined where
  mentions := ne_nil_of_left rfl
  weightless slot empty := by
    cases slot with
    | left => cases empty
    | right => exact coefficient_of_absent empty
    | output => exact coefficient_of_absent empty
  factors nonzero := absurd rfl nonzero

/-- Only the third factor may lack a wire, if it has no coefficient either. -/
theorem disciplined_product {x y z : SlotFactor F} (hx : x.wire.isSome) (hy : y.wire.isSome)
    (hz : z.wire = none → z.coefficient = 0) : (product x y z).Disciplined := by
  obtain ⟨wx, hwx⟩ := Option.isSome_iff_exists.mp hx
  obtain ⟨wy, hwy⟩ := Option.isSome_iff_exists.mp hy
  refine ⟨ne_nil_of_left hwx, fun slot empty => ?_, fun _ => ⟨hx, hy⟩⟩
  cases slot with
  | left => cases hwx.symm.trans empty
  | right => cases hwy.symm.trans empty
  | output => rw [weight, product, hz empty, neg_zero]

theorem disciplined_boolean {x : SlotFactor F} (hx : x.wire.isSome) : (boolean x).Disciplined := by
  obtain ⟨wire, hwire⟩ := Option.isSome_iff_exists.mp hx
  refine ⟨ne_nil_of_left hwire, fun slot empty => ?_, fun _ => ⟨hx, hx⟩⟩
  cases slot with
  | left => cases hwire.symm.trans empty
  | right => rfl
  | output => rfl

/-! ## What is emitted -/

open Synthesis

theorem makes_additionChain (constant : F.Elem) (sum : Term F) (rest : List (Term F)) :
    (additionChain constant sum rest).Makes Disciplined fun _ => True := by
  induction rest generalizing sum with
  | nil => exact makes_pure trivial
  | cons term rest ih =>
      exact makes_freshWire.bind fun wire _ => (makes_emit (disciplined_addition ..)).bind fun _ _ => ih ⟨wire, 1⟩

theorem makes_materialize (x : LinearCombination F) : (materialize x).Makes Disciplined fun _ => True := by
  unfold materialize
  split
  · exact makes_freshWire.bind fun wire _ => (makes_emit (disciplined_pinned ..)).bind fun _ _ => makes_pure trivial
  · exact makes_freshWire.bind fun wire _ => (makes_emit (disciplined_affine ..)).bind fun _ _ => makes_pure trivial
  · exact makes_additionChain _ _ _

/-- A factor stands for an expression: it lacks a wire only if the expression is constant, and then it has no
coefficient. -/
structure StandsFor (x : LinearCombination F) (factor : SlotFactor F) : Prop where
  wire : x.asConstant? = none → factor.wire.isSome
  coefficient : factor.wire = none → factor.coefficient = 0

theorem makes_factor (x : LinearCombination F) : (Gate.factor x).Makes Disciplined (StandsFor x) := by
  obtain ⟨terms, constant⟩ := x
  match terms with
  | [] => exact makes_pure ⟨nofun, fun _ => rfl⟩
  | [term] => exact makes_pure ⟨fun _ => rfl, nofun⟩
  | first :: second :: rest => exact (makes_materialize _).map fun wire _ => ⟨fun _ => rfl, nofun⟩

theorem makes_enforceZero {x : LinearCombination F} (notConstant : x.asConstant? = none) :
    (Gate.enforceZero x).Makes Disciplined fun _ => True := by
  unfold Gate.enforceZero
  split
  · exact (makes_materialize _).bind fun wire _ => makes_emit (disciplined_zeroSum ..)
  · obtain ⟨_ | ⟨first, rest⟩, constant⟩ := x
    · cases notConstant  -- without terms, the gate would mention no wire
    · exact makes_emit (disciplined_zeroSum ..)

def emission (F : PrimeField) : Emission F (Gate F) where
  Meets := Disciplined
  Stands := StandsFor
  pinned := disciplined_pinned
  product aNone bNone hx hy hz := disciplined_product (hx.wire aNone) (hy.wire bNone) hz.coefficient
  boolean aNone hx := disciplined_boolean (hx.wire aNone)
  wireFactor _ := ⟨fun _ => rfl, nofun⟩
  factor _ := makes_factor _
  materialize _ := makes_materialize _
  enforceZero _ := makes_enforceZero

end Gate

namespace Circuit

variable {circuit : Circuit F} {number : Nat}

/-- Also where an error ends the definition. -/
theorem define_disciplined (prime : F.modulus.Prime) (closed : circuit.Closed) (sharesConstants : Bool) :
    ∀ gate ∈ (circuit.define (Gate F) sharesConstants number).draft.constraints.toList, gate.Disciplined :=
  (Gate.emission F).runSteps (d := { sharesConstants }) prime closed (.nil _) (by simp)

/-- The gates of a compiled circuit hold for the same values, whatever is read from their empty slots. -/
theorem compile_disciplined (prime : F.modulus.Prime) (closed : circuit.Closed) {options : CompileOptions}
    (gateBackend : options.backend = .gate) {system : System F}
    (compiled : (circuit.compile options number).result = .ok system) :
    ∃ gates, system.constraints = .gate gates (copyTable gates) ∧ ∀ gate ∈ gates, gate.Disciplined ∧
      ∀ (value : Wire → F.Elem) (filler : Slot → F.Elem),
        gate.residual (gate.readOr value filler .left) (gate.readOr value filler .right)
          (gate.readOr value filler .output) = 0 ↔ (Constraint.gate gate).Holds value := by
  have once := (compile_ok compiled).1
  simp only [compileOnce, gateBackend] at once
  obtain ⟨-, rfl⟩ := Definition.compilation_ok once
  refine ⟨_, rfl, fun gate hgate => ?_⟩
  have disciplined := define_disciplined prime closed options.eliminateConstantWires gate hgate
  exact ⟨disciplined, fun value filler => by rw [disciplined.residual_readOr, Constraint.Holds]⟩

/-- The test for zero of a circuit says `x·flag = 0` by a gate without an output. -/
theorem fiveForZero_disciplined :
    let gate : Gate .seven := { qL := 1, qM := -1, l := some ⟨0⟩, r := some ⟨2⟩ }
    ∃ system, (fiveForZero.compile { backend := .gate } 0).result = .ok system ∧
      .gate gate ∈ system.constraints.toList ∧ gate.Disciplined ∧
      gate.residual (gate.readOr (fun _ => 1) (fun _ => 4) .left) (gate.readOr (fun _ => 1) (fun _ => 4) .right)
        (gate.readOr (fun _ => 1) (fun _ => 4) .output) = 0 := by
  intro gate
  obtain ⟨system, compiled, emitted⟩ : ∃ system,
      (fiveForZero.compile { backend := .gate } 0).result = .ok system ∧
        .gate gate ∈ system.constraints.toList := ⟨_, rfl, by decide⟩
  obtain ⟨gates, constraints_eq, all⟩ := compile_disciplined PrimeField.prime_seven (by decide) rfl compiled
  have hgate : gate ∈ gates := by simpa [constraints_eq, Constraints.toList] using emitted
  obtain ⟨disciplined, indifferent⟩ := all gate hgate
  exact ⟨system, compiled, emitted, disciplined, (indifferent _ _).mpr (by decide)⟩

end Circuit

end ArithCircuit
