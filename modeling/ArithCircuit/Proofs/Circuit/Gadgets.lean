import ArithCircuit.Proofs.Circuit.Reached
import ArithCircuit.Proofs.Synthesis.Admission

/-!
# What the gadgets are good for

A gadget is sound if its constraints force its result, whatever the prover gives for its fresh wires; it
is complete if they leave room for every value of the operands that the gadget is meant for.
-/

namespace ArithCircuit

open scoped Fin.CommRing

open LinearCombination (ofConstant ofWire)
open PrimeField (IsDigit IsEntry ofBit zeroFlag)

variable {F : PrimeField}

/-! ## Truth values -/

namespace PrimeField

theorem ofBit_not (p : Bool) : 1 - ofBit p = (ofBit (!p) : F.Elem) := by
  cases p <;> simp [ofBit_false, ofBit_true]

theorem ofBit_and (p q : Bool) : ofBit p * ofBit q = (ofBit (p && q) : F.Elem) := by
  cases p <;> simp [ofBit_false, ofBit_true]

theorem ofBit_or (p q : Bool) : ofBit p + ofBit q - ofBit p * ofBit q = (ofBit (p || q) : F.Elem) := by
  cases p <;> simp [ofBit_false, ofBit_true]

theorem ofBit_xor (p q : Bool) :
    ofBit p + ofBit q - (1 + 1) * (ofBit p * ofBit q) = (ofBit (p ^^ q) : F.Elem) := by
  cases p <;> cases q <;> simp [ofBit_false, ofBit_true]

end PrimeField

namespace Synthesis

variable {κ α : Type}

/-- Every assignment that is accepted in the end is as in `gives`, and every accepted one of the wires so far
with `meant` extends to one. -/
structure Exact [ToConstraint F κ] (m : Synthesis F κ α) (d : Draft F κ) (meant : (Wire → F.Elem) → Prop)
    (gives : α → (Wire → F.Elem) → Prop) : Prop where
  sound : ∀ a d', m.run d = .ok a d' → ∀ value, d'.Accepts value → gives a value
  complete : ∀ a d', m.run d = .ok a d' → ∀ value, d.Accepts value → meant value →
    ∃ value', AgreeBelow d.size value value' ∧ d'.Accepts value'

/-- On truth values the result is that of the connective. -/
def Connects (connective : Bool → Bool → Bool) (a b r : LinearCombination F) (value : Wire → F.Elem) : Prop :=
  ∀ p q : Bool, a.evalWith value = ofBit p → b.evalWith value = ofBit q → r.evalWith value = ofBit (connective p q)

variable [ConstraintForm F κ] [LawfulForm F κ] {d : Draft F κ}

theorem exact_of_has {m : Synthesis F κ (LinearCombination F)} {P : (Wire → F.Elem) → F.Elem → Prop}
    {meant : (Wire → F.Elem) → Prop} {gives : LinearCombination F → (Wire → F.Elem) → Prop}
    (ensures : Ensures m d fun d' r => d'.Has r P) (weaker : ∀ r value, P value (r.evalWith value) → gives r value)
    (admits : ∀ value, d.Accepts value → meant value → Admits m d value) : Exact m d meant gives where
  sound a _ hrun value accepts := weaker a value ((ensures.of_run hrun).2.forces value accepts)
  complete a d' hrun value accepts hmeant := admits value accepts hmeant a d' hrun

variable (prime : F.modulus.Prime) (coherent : d.Coherent) {a b x : LinearCombination F}
include coherent

theorem exact_and (ha : a.Below d.size) (hb : b.Below d.size) :
    Exact (and a b : Synthesis F κ (LinearCombination F)) d (fun _ => True) (Connects Bool.and a b) :=
  exact_of_has (ensures_and coherent ha hb)
    (fun _ _ product p q hp hq => by rw [product, hp, hq, PrimeField.ofBit_and])
    fun _ accepts _ => admits_mul coherent accepts ha hb

theorem exact_or (ha : a.Below d.size) (hb : b.Below d.size) :
    Exact (or a b : Synthesis F κ (LinearCombination F)) d (fun _ => True) (Connects Bool.or a b) :=
  exact_of_has (ensures_or coherent ha hb)
    (fun _ _ sum p q hp hq => by rw [sum, hp, hq, PrimeField.ofBit_or])
    fun _ accepts _ => admits_or coherent accepts ha hb

theorem exact_xor (ha : a.Below d.size) (hb : b.Below d.size) :
    Exact (xor a b : Synthesis F κ (LinearCombination F)) d (fun _ => True) (Connects Bool.xor a b) :=
  exact_of_has (ensures_xor coherent ha hb)
    (fun _ _ sum p q hp hq => by rw [sum, hp, hq, PrimeField.ofBit_xor])
    fun _ accepts _ => admits_xor coherent accepts ha hb

include prime

theorem exact_isZero (hx : x.Below d.size) :
    Exact (isZero x : Synthesis F κ (LinearCombination F)) d (fun _ => True)
      fun r value => r.evalWith value = if x.evalWith value = 0 then 1 else 0 :=
  exact_of_has (ensures_isZero prime coherent hx) (fun _ _ flag => flag)
    fun _ accepts _ => admits_isZero coherent accepts prime hx

theorem exact_isEqual (ha : a.Below d.size) (hb : b.Below d.size) :
    Exact (isEqual a b : Synthesis F κ (LinearCombination F)) d (fun _ => True)
      fun r value => r.evalWith value = if a.evalWith value = b.evalWith value then 1 else 0 :=
  exact_of_has (ensures_isEqual prime coherent ha hb) (fun _ _ flag => by simpa [zeroFlag, sub_eq_zero] using flag)
    fun _ accepts _ => admits_isZero coherent accepts prime (ha.sub hb)

theorem exact_assertNonZero (hx : x.Below d.size) :
    Exact (assertNonZero x : Synthesis F κ Unit) d (fun value => x.evalWith value ≠ 0)
      fun _ value => x.evalWith value ≠ 0 where
  sound _ _ hrun := ((ensures_assertNonZero prime coherent hx).of_run hrun).2
  complete _ _ hrun _ accepts nonzero := (admits_inverse coherent accepts prime hx nonzero).map _ _ hrun

theorem exact_lookup2 {b0 b1 t0 t1 t2 t3 : LinearCombination F}
    (below : ∀ x ∈ [b0, b1, t0, t1, t2, t3], x.Below d.size) :
    Exact (lookup2 b0 b1 t0 t1 t2 t3 : Synthesis F κ (LinearCombination F)) d
      (fun value => IsDigit (b0.evalWith value) ∧ IsDigit (b1.evalWith value))
      fun r value => IsEntry (b0.evalWith value) (b1.evalWith value) (t0.evalWith value) (t1.evalWith value)
        (t2.evalWith value) (t3.evalWith value) (r.evalWith value) := by
  simp only [List.forall_mem_cons, List.not_mem_nil, false_imp_iff, implies_true, and_true] at below
  obtain ⟨hb0, hb1, ht0, ht1, ht2, ht3⟩ := below
  exact exact_of_has (ensures_lookup2 prime coherent hb0 hb1 ht0 ht1 ht2 ht3) (fun _ _ entry => entry)
    fun _ accepts ⟨digit0, digit1⟩ => admits_lookup2 coherent accepts prime hb0 hb1 ht0 ht1 ht2 ht3 digit0 digit1

end Synthesis

/-- In every draft that operations on constants and earlier results lead to, the gadgets are sound whatever the
hints return and complete for the operands that they are meant for. The operands may be any expressions over
the wires of the draft, constants among them. -/
theorem gadgets_exact (prime : F.modulus.Prime) {backend : Backend} {d : Draft F (backend.Form F)}
    (reached : d.Reached) :
    (∀ x, x.Below d.size → (Synthesis.isZero x).Exact d (fun _ => True)
      fun r value => r.evalWith value = if x.evalWith value = 0 then 1 else 0) ∧
    (∀ a b, a.Below d.size → b.Below d.size → (Synthesis.isEqual a b).Exact d (fun _ => True)
      fun r value => r.evalWith value = if a.evalWith value = b.evalWith value then 1 else 0) ∧
    (∀ x, x.Below d.size → (Synthesis.assertNonZero x).Exact d (fun value => x.evalWith value ≠ 0)
      fun _ value => x.evalWith value ≠ 0) ∧
    (∀ b0 b1 t0 t1 t2 t3, (∀ x ∈ [b0, b1, t0, t1, t2, t3], x.Below d.size) →
      (Synthesis.lookup2 b0 b1 t0 t1 t2 t3).Exact d
        (fun value => IsDigit (b0.evalWith value) ∧ IsDigit (b1.evalWith value))
        fun r value => IsEntry (b0.evalWith value) (b1.evalWith value) (t0.evalWith value) (t1.evalWith value)
          (t2.evalWith value) (t3.evalWith value) (r.evalWith value)) ∧
    (∀ a b, a.Below d.size → b.Below d.size →
      (Synthesis.and a b).Exact d (fun _ => True) (Synthesis.Connects Bool.and a b) ∧
      (Synthesis.or a b).Exact d (fun _ => True) (Synthesis.Connects Bool.or a b) ∧
      (Synthesis.xor a b).Exact d (fun _ => True) (Synthesis.Connects Bool.xor a b)) ∧
    (∀ (a : LinearCombination F) (value : Wire → F.Elem) (p : Bool), a.evalWith value = ofBit p →
      (Synthesis.not a).evalWith value = ofBit !p) := by
  have coherent := reached.coherent prime
  refine ⟨fun x => Synthesis.exact_isZero prime coherent, fun a b => Synthesis.exact_isEqual prime coherent,
    fun x => Synthesis.exact_assertNonZero prime coherent,
    fun b0 b1 t0 t1 t2 t3 => Synthesis.exact_lookup2 prime coherent,
    fun a b ha hb => ⟨Synthesis.exact_and coherent ha hb, Synthesis.exact_or coherent ha hb,
      Synthesis.exact_xor coherent ha hb⟩, fun a value p hp => ?_⟩
  rw [Synthesis.not, LinearCombination.evalWith_sub, LinearCombination.evalWith_ofConstant, hp,
    PrimeField.ofBit_not]

/-- A test for zero after the example circuit, which has one itself. -/
theorem isZero_fiveForZero :
    (∃ r d', (Synthesis.isZero (ofWire ⟨3⟩)).run
      (Circuit.fiveForZero.define (Backend.gate.Form .seven) true 0).draft = .ok r d') ∧
    (Synthesis.isZero (ofWire ⟨3⟩)).Exact (Circuit.fiveForZero.define (Backend.gate.Form .seven) true 0).draft
      (fun _ => True) fun r value => r.evalWith value = if (ofWire ⟨3⟩).evalWith value = 0 then 1 else 0 :=
  ⟨⟨_, _, rfl⟩, (gadgets_exact PrimeField.prime_seven ⟨Circuit.fiveForZero, true, 0, by decide, rfl⟩).1 _
    (LinearCombination.below_ofWire.mpr (by decide))⟩

end ArithCircuit
