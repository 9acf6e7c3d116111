import ArithCircuit.Proofs.Synthesis.Operations
import ArithCircuit.Proofs.Synthesis.Rules

/-!
# Assertions

What is asserted holds of every assignment that the draft accepts. A wire is not constrained to be a
digit again if it is marked: then it is one by the constraint that came with its mark.
-/

namespace ArithCircuit

open scoped Fin.CommRing

variable {F : PrimeField} {κ : Type} [ConstraintForm F κ] [LawfulForm F κ] {d d' : Draft F κ}

/-! ## Marked wires -/

namespace Draft

/-- The constraints so far make every marked wire a root of `x · (x - 1)`. -/
def Guarded (d : Draft F κ) : Prop :=
  ∀ wire ∈ d.booleans, d.Forces fun value => value wire * (value wire - 1) = 0

theorem guarded_empty (sharesConstants : Bool) : ({ sharesConstants } : Draft F κ).Guarded := by
  intro wire hwire
  cases hwire

theorem Coherent.guarded (coherent : d.Coherent) : d.Guarded := fun wire hwire => (coherent.booleans wire hwire).2

theorem Guarded.grow (guarded : d.Guarded) (grows : d.Grows d') (same : d'.booleans = d.booleans) : d'.Guarded :=
  fun wire hwire value accepts => guarded wire (same ▸ hwire) value (grows.accepts accepts)

theorem Evolves.guarded (h : d.Evolves d') (guarded : d.Guarded) : d'.Guarded := by
  induction h with
  | refl => exact guarded
  | emit c _ ih => exact ih.grow (.emit c) rfl
  | fresh _ ih => exact ih.grow .fresh rfl
  | declare role name _ ih => exact ih.grow (.declare role name) rfl
  | remember value wire _ ih => exact ih.grow (.remember value wire) (booleans_remember _ value wire)
  | bind position outputs _ ih => exact ih.grow (.bind (Nat.le_of_eq position.symm) outputs) rfl
  | mark hwire _ ih =>
      intro other hother value accepts
      rcases List.mem_cons.mp hother with rfl | hother
      · have root := LawfulForm.holds_boolean.mp (accepts_emit.mp accepts).2
        rwa [(LawfulForm.asWire?_spec hwire).2 value] at root
      · exact ih other hother value (accepts_emit.mp accepts).1

end Draft

namespace Synthesis

variable {a b x : LinearCombination F}

open LinearCombination (ofWire)

/-! ## Equality -/

theorem assertEqual_forces (hrun : (assertEqual a b : Synthesis F κ Unit).run d = .ok () d') :
    d'.Forces fun value => a.evalWith value = b.evalWith value := by
  intro value accepts
  have zero : (a - b).evalWith value = 0 := by
    cases hk : (a - b).asConstant? with
    | none =>
        rw [assertEqual_of_not_constant hk] at hrun
        exact LawfulForm.enforceZero_forces hrun value accepts
    | some k =>
        rw [assertEqual_of_constant hk] at hrun
        split at hrun
        · cases hrun
        · rename_i hzero
          rw [LinearCombination.eq_ofConstant hk, LinearCombination.evalWith_ofConstant, not_not.mp hzero]
  rw [LinearCombination.evalWith_sub] at zero
  exact sub_eq_zero.mp zero

/-! ## Digits -/

section Prime

variable (prime : F.modulus.Prime) (guarded : d.Guarded)
include prime guarded

theorem constrainBoolean_forces (hx : x.Below d.size)
    (hrun : (constrainBoolean x : Synthesis F κ Unit).run d = .ok () d') :
    d'.Forces fun value => PrimeField.IsDigit (x.evalWith value) := by
  obtain ⟨y, d₁, hfactor, elaborates, -, hvalue⟩ := LawfulForm.run_factor (κ := κ) hx
  intro value accepts
  apply (PrimeField.mul_sub_one_eq_zero prime).mp
  have root : (d₁.emit (ConstraintForm.boolean y)).Accepts value →
      x.evalWith value * (x.evalWith value - 1) = 0 := fun emitted => by
    obtain ⟨accepts₁, holds⟩ := Draft.accepts_emit.mp emitted
    rw [← hvalue value accepts₁]
    exact LawfulForm.holds_boolean.mp holds
  cases hwire : ConstraintForm.asWire? y with
  | none =>
      have run := run_constrainBoolean_of_no_wire hfactor hwire
      obtain ⟨-, rfl⟩ := EStateM.Result.ok.inj (run.symm.trans hrun)
      exact root accepts
  | some wire =>
      by_cases marked : wire ∈ d₁.booleans
      · have run := run_constrainBoolean_of_marked hfactor hwire marked
        obtain ⟨-, rfl⟩ := EStateM.Result.ok.inj (run.symm.trans hrun)
        rw [← hvalue value accepts, (LawfulForm.asWire?_spec hwire).2 value]
        exact (evolves_of_ok hfactor).guarded guarded wire marked value accepts
      · have run := run_constrainBoolean_of_new hfactor hwire marked
        obtain ⟨-, rfl⟩ := EStateM.Result.ok.inj (run.symm.trans hrun)
        exact root accepts

theorem assertBooleans_force {wires : List Wire} (hlt : ∀ wire ∈ wires, wire.index < d.size)
    (hrun : ((wires.map ofWire).forM assertBoolean : Synthesis F κ PUnit).run d = .ok () d') :
    d'.Forces fun value => ∀ wire ∈ wires, PrimeField.IsDigit (value wire) := by
  induction wires generalizing d with
  | nil =>
      intro value _ wire hwire
      cases hwire
  | cons wire wires ih =>
      obtain ⟨hwire, hwires⟩ := List.forall_mem_cons.mp hlt
      obtain ⟨_, d₁, first, rest⟩ := run_of_bind hrun
      have evolves := evolves_of_ok first
      have digits := ih (evolves.guarded guarded)
        (fun other hother => Nat.lt_of_lt_of_le (hwires other hother) evolves.grows.size_le) rest
      -- a wire is no constant
      rw [assertBoolean_of_not_constant (by rfl)] at first
      have digit := constrainBoolean_forces prime guarded (LinearCombination.below_ofWire.mpr hwire) first
      intro value accepts
      refine List.forall_mem_cons.mpr ⟨?_, digits value accepts⟩
      simpa using digit value ((grows_of_ok rest).accepts accepts)

end Prime

end Synthesis

end ArithCircuit
