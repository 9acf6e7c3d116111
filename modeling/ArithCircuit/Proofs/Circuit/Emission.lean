import ArithCircuit.Proofs.Circuit.Soundness
import ArithCircuit.Proofs.Synthesis.Emission

/-!
# What circuits emit

The registers of a closed circuit hold canonical expressions, so all constraints of its draft are as
its form makes them.
-/

namespace ArithCircuit

variable {F : PrimeField} {κ : Type}

open LinearCombination (Canonical canonical_ofWire canonical_ofConstant canonical_ofBits)

open Synthesis

theorem Synthesis.Makes.singleton {P : κ → Prop} {m : Synthesis F κ (LinearCombination F)}
    (makes : m.Makes P Canonical) : Makes P (List.singleton <$> m) fun xs => ∀ x ∈ xs, x.Canonical :=
  makes.map fun x hx => by simpa [List.singleton] using hx

theorem Synthesis.Makes.silent {P : κ → Prop} {m : Synthesis F κ Unit} (makes : m.Makes P fun _ => True) :
    Makes P (do m; return ([] : List (LinearCombination F))) fun xs => ∀ x ∈ xs, x.Canonical :=
  makes.bind fun _ _ => makes_pure (by simp)

theorem Synthesis.makes_return {P : κ → Prop} {x : LinearCombination F} (hx : x.Canonical) :
    Makes P (return [x] : Synthesis F κ (List (LinearCombination F))) fun xs => ∀ x ∈ xs, x.Canonical :=
  makes_pure (by simpa using hx)

namespace Emission

variable [ConstraintForm F κ] (e : Emission F κ)

theorem synthesize (prime : F.modulus.Prime) {registers : Registers F} (canonical : registers.Each Canonical)
    (operation : Operation F) (closed : ∀ x ∈ operation.operands, x.Closed) :
    (operation.synthesize registers : Synthesis F κ (List (LinearCombination F))).Makes e.Meets
      fun xs => ∀ x ∈ xs, x.Canonical := by
  have read : ∀ x ∈ operation.operands, (registers.read x).Canonical := fun x hx =>
    canonical.read canonical_ofConstant (closed x hx)
  cases operation with
  | publicInput name => exact (makes_input .publicInput name).singleton
  | secretInput name => exact (makes_input .secretInput name).singleton
  | constant k => exact makes_return (canonical_ofConstant k)
  | add a b =>
      obtain ⟨ha, -⟩ := forall_mem_pair.mp read
      exact makes_return (ha.add _)
  | sub a b =>
      obtain ⟨ha, -⟩ := forall_mem_pair.mp read
      exact makes_return (ha.sub _)
  | neg a =>
      have ha := List.forall_mem_singleton.mp read
      exact makes_return (ha.neg prime)
  | scale a k =>
      have ha := List.forall_mem_singleton.mp read
      exact makes_return (ha.scale prime k)
  | ofBits bits => exact makes_return (canonical_ofBits _)
  | toWire a =>
      have ha := List.forall_mem_singleton.mp read
      exact (e.toWire ha).bind fun wire _ => makes_return (canonical_ofWire wire)
  | mul a b =>
      obtain ⟨ha, hb⟩ := forall_mem_pair.mp read
      exact (e.mul prime ha hb).singleton
  | div a b =>
      obtain ⟨ha, hb⟩ := forall_mem_pair.mp read
      exact (e.div prime ha hb).singleton
  | inverse a =>
      have ha := List.forall_mem_singleton.mp read
      exact (e.inverse prime ha).singleton
  | select c a b =>
      obtain ⟨hc, ha, hb⟩ := forall_mem_triple.mp read
      exact (e.select prime hc ha hb).singleton
  | assertProduct a b c =>
      obtain ⟨ha, hb, hc⟩ := forall_mem_triple.mp read
      exact (e.assertProduct prime ha hb hc).silent
  | assertEqual a b =>
      obtain ⟨ha, -⟩ := forall_mem_pair.mp read
      exact (e.assertEqual ha).silent
  | assertBoolean a =>
      have ha := List.forall_mem_singleton.mp read
      exact (e.assertBoolean ha).silent
  | toBits a width =>
      have ha := List.forall_mem_singleton.mp read
      exact e.toBits ha width
  | hint name inputs outputs => exact e.hint name (List.forall_mem_map.mpr read) outputs
  | not a => exact makes_return ((canonical_ofConstant 1).sub _)
  | and a b =>
      obtain ⟨ha, hb⟩ := forall_mem_pair.mp read
      exact (e.mul prime ha hb).singleton
  | or a b =>
      obtain ⟨ha, hb⟩ := forall_mem_pair.mp read
      exact (e.or prime ha hb).singleton
  | xor a b =>
      obtain ⟨ha, hb⟩ := forall_mem_pair.mp read
      exact (e.xor prime ha hb).singleton
  | isZero a =>
      have ha := List.forall_mem_singleton.mp read
      exact (e.isZero prime ha).singleton
  | isEqual a b =>
      obtain ⟨ha, -⟩ := forall_mem_pair.mp read
      exact (e.isZero prime (ha.sub _)).singleton
  | assertNonZero a =>
      have ha := List.forall_mem_singleton.mp read
      exact ((e.inverse prime ha).map fun _ _ => trivial).silent
  | lookup2 b0 b1 t0 t1 t2 t3 =>
      simp only [Operation.operands, List.forall_mem_cons, List.not_mem_nil, false_imp_iff, implies_true,
        and_true] at read
      obtain ⟨hb0, hb1, ht0, ht1, ht2, ht3⟩ := read
      exact (e.lookup2 prime hb0 hb1 ht0 ht1 ht2 ht3).singleton
  | packIntoInputs name bits => exact e.packChunks name 0 _
  | packBits bits => exact (e.packBits _).singleton

theorem runSteps (prime : F.modulus.Prime) {keepsGoing : Bool} {number : Nat} {steps : List (Step F)}
    (closed : ∀ step ∈ steps, ∀ x ∈ step.operation.operands, x.Closed) {registers : Registers F}
    (canonical : registers.Each Canonical) {d : Draft F κ} (meets : ∀ c ∈ d.constraints.toList, e.Meets c) :
    ∀ c ∈ (Circuit.runSteps keepsGoing number steps registers d).draft.constraints.toList, e.Meets c := by
  induction steps generalizing registers d with
  | nil => exact meets
  | cons step rest ih =>
      obtain ⟨hstep, hrest⟩ := List.forall_mem_cons.mp closed
      by_cases skipped : step.onlyIn.any (· ≠ number) = true
      · simp only [Circuit.runSteps, skipped, ↓reduceIte]
        exact ih hrest canonical meets
      · obtain ⟨made, result⟩ := e.synthesize prime canonical step.operation hstep d meets
        simp only [Circuit.runSteps, skipped, Bool.false_eq_true, ↓reduceIte]
        unfold left at made
        cases hrun : (step.operation.synthesize registers : Synthesis F κ _).run d with
        | ok results d' =>
            rw [hrun] at made
            exact ih hrest (canonical.store step (result results d' hrun)) made
        | error error d' =>
            rw [hrun] at made
            cases keepsGoing with
            | true => exact ih hrest canonical made
            | false => exact made

end Emission

end ArithCircuit
