import ArithCircuit.Hint.Registry
import ArithCircuit.Proofs.Constraint.Isolation
import ArithCircuit.System.Basic

/-!
# Assignments that satisfy a system
-/

namespace ArithCircuit

theorem Constraints.length_toList {F : PrimeField} (constraints : Constraints F) :
    constraints.toList.length = constraints.size := by
  cases constraints <;> simp [toList, size]

namespace System

variable {F : PrimeField} {system : System F} {value value' : Wire → F.Elem}

theorem mem_mentioned {wire : Wire} : wire ∈ system.mentioned ↔
    (∃ c ∈ system.constraints.toList, wire ∈ c.wires) ∨ ∃ b ∈ system.hints, wire ∈ b.wires := by
  simp [mentioned, List.mem_flatMap]

instance (system : System F) (value : Wire → F.Elem) : Decidable (system.Satisfied value) :=
  inferInstanceAs (Decidable (∀ c ∈ system.constraints.toList, c.Holds value))

/-! ## Violations -/

theorem firstViolation?_eq_none : system.firstViolation? value = none ↔ system.Satisfied value := by
  unfold firstViolation? violations Satisfied
  rw [List.findSome?_eq_none_iff]
  constructor
  · intro h c hc
    obtain ⟨i, hi, hget⟩ := List.getElem_of_mem hc
    have hv := h (c.violation? value, i) (by simp [List.mem_zipIdx_iff_getElem?, hget, hi])
    simpa [Constraint.violation?_eq_none] using hv
  · rintro h ⟨violation, i⟩ hp
    obtain ⟨_, hget⟩ := List.mem_zipIdx' hp
    obtain ⟨c, hc, rfl⟩ := List.mem_map.mp (hget ▸ List.getElem_mem _ : violation ∈ _)
    simp [Constraint.violation?_eq_none.mpr (h c hc)]

theorem firstViolation?_congr (h : ∀ wire ∈ system.mentioned, value wire = value' wire) :
    system.firstViolation? value = system.firstViolation? value' := by
  have same : system.violations value = system.violations value' :=
    List.map_congr_left fun c hc =>
      Constraint.violation?_congr fun w hw => h w (mem_mentioned.mpr (.inl ⟨c, hc, hw⟩))
  rw [firstViolation?, same, firstViolation?]

/-- The first constraint that fails is the one behind those that hold. -/
theorem firstViolation?_eq_some {before after : List (Constraint F)} {c : Constraint F}
    {violation : Violation F} (split : system.constraints.toList = before ++ c :: after)
    (holds : ∀ c ∈ before, c.Holds value) (violated : c.violation? value = some violation) :
    system.firstViolation? value = some (before.length, violation) := by
  rw [firstViolation?, violations, split, List.map_append, List.zipIdx_append, List.findSome?_append,
    List.findSome?_eq_none_iff.mpr ?_, List.map_cons, violated]
  · simp
  · rintro ⟨violation, i⟩ hp
    obtain ⟨_, hget⟩ := List.mem_zipIdx' hp
    obtain ⟨c, hc, rfl⟩ := List.mem_map.mp (hget ▸ List.getElem_mem _ : violation ∈ _)
    simp [Constraint.violation?_eq_none.mpr (holds c hc)]

theorem satisfied_congr (h : ∀ wire ∈ system.mentioned, value wire = value' wire) :
    system.Satisfied value ↔ system.Satisfied value' := by
  have each : ∀ c ∈ system.constraints.toList, c.Holds value ↔ c.Holds value' := fun c hc =>
    Constraint.holds_congr fun w hw => h w (mem_mentioned.mpr (.inl ⟨c, hc, hw⟩))
  exact ⟨fun hs c hc => (each c hc).mp (hs c hc), fun hs c hc => (each c hc).mpr (hs c hc)⟩

/-! ## Solutions -/

/-- Every wire that occurs is one of the system's. -/
structure InRange (system : System F) : Prop where
  inputs : ∀ input ∈ system.publicInputs ++ system.secretInputs, input.wire.index < system.wireCount
  mentioned : ∀ wire ∈ system.mentioned, wire.index < system.wireCount

/-- Every hint comes before, between or after the constraints. -/
def Scheduled (system : System F) : Prop := ∀ b ∈ system.hints, b.position ≤ system.constraintCount

instance (system : System F) : Decidable system.Scheduled :=
  inferInstanceAs (Decidable (∀ b ∈ system.hints, b.position ≤ system.constraintCount))

/-- Running any hint on the values of its inputs gives the values of its outputs. -/
def HintsAgree (system : System F) (registry : HintRegistry) (value : Wire → F.Elem) : Prop :=
  ∀ b ∈ system.hints, registry.invoke b.name F.modulus (b.inputs.map fun wire => (value wire).val)
    b.outputs.length = .ok (b.outputs.map fun wire => (value wire).val)

def IsInput (system : System F) (wire : Wire) : Prop :=
  ∃ input ∈ system.publicInputs ++ system.secretInputs, input.wire = wire

instance (system : System F) (wire : Wire) : Decidable (system.IsInput wire) :=
  inferInstanceAs (Decidable (∃ input ∈ system.publicInputs ++ system.secretInputs, input.wire = wire))

theorem InRange.constraint_lt (inRange : system.InRange) {c : Constraint F} (hc : c ∈ system.constraints.toList) :
    ∀ wire ∈ c.wires, wire.index < system.wireCount := fun wire hwire =>
  inRange.mentioned wire (mem_mentioned.mpr (.inl ⟨c, hc, hwire⟩))

theorem InRange.binding_lt (inRange : system.InRange) {b : HintBinding} (hb : b ∈ system.hints) :
    ∀ wire ∈ b.wires, wire.index < system.wireCount := fun wire hwire =>
  inRange.mentioned wire (mem_mentioned.mpr (.inr ⟨b, hb, hwire⟩))

theorem InRange.input_lt (inRange : system.InRange) {wire : Wire} (isInput : system.IsInput wire) :
    wire.index < system.wireCount := by
  obtain ⟨input, hinput, rfl⟩ := isInput
  exact inRange.inputs input hinput

/-- The inputs have the supplied values. -/
structure Supplied (system : System F) (publicValues secretValues : List F.Elem)
    (value : Wire → F.Elem) : Prop where
  publicInputs : system.publicInputs.map (fun input => value input.wire) = publicValues
  secretInputs : system.secretInputs.map (fun input => value input.wire) = secretValues

/-- An assignment that has the supplied inputs, satisfies every constraint and agrees with every
hint. -/
structure Solution (system : System F) (registry : HintRegistry)
    (publicValues secretValues : List F.Elem) (value : Wire → F.Elem) : Prop extends
    system.Supplied publicValues secretValues value where
  satisfied : system.Satisfied value
  hintsAgree : system.HintsAgree registry value

end System

end ArithCircuit
