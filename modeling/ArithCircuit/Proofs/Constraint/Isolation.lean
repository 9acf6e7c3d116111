import ArithCircuit.Proofs.Constraint.Polynomial

/-!
# What a constraint says about one wire

With the values of the other wires, a constraint says that the wire is a root of a polynomial. Isolation reads
its coefficients, and finds its only root just where it is linear.
-/

namespace ArithCircuit

open Polynomial
open scoped Fin.CommRing

variable {F : PrimeField} {value : Wire → F.Elem} {known : Knowledge F} {unknown : Wire}

/-! ## Roots of residuals -/

namespace Residual

theorem coeff_two (residual : Residual F) : residual.polynomial.coeff 2 = residual.quadratic := by
  simp [polynomial]

theorem coeff_one (residual : Residual F) : residual.polynomial.coeff 1 = residual.linear := by
  simp [polynomial, coeff_X_pow]

theorem isSome_root? {residual : Residual F} :
    residual.root?.isSome ↔ residual.quadratic = 0 ∧ residual.linear ≠ 0 := by
  rw [root?]
  split
  · rename_i quadratic
    rw [Option.isSome_map, Option.isSome_iff_ne_none, Ne, PrimeField.inverse?_eq_none]
    simp [quadratic]
  · rename_i quadratic
    simp [quadratic]

/-- The root of a residual that can be solved is its only one. -/
theorem eval_polynomial_eq_zero_iff (prime : F.modulus.Prime) {residual : Residual F} {root u : F.Elem}
    (h : residual.root? = some root) : residual.polynomial.eval u = 0 ↔ u = root := by
  unfold root? at h
  split at h
  · rename_i linear
    obtain ⟨inverse, hinverse, hroot⟩ := Option.map_eq_some_iff.mp h
    have cancel := PrimeField.mul_of_inverse? prime hinverse
    simp only [polynomial, linear, C_0, zero_mul, zero_add, eval_add, eval_mul, eval_C, eval_X]
    constructor
    · intro hzero
      linear_combination inverse * hzero - u * cancel + hroot
    · rintro rfl
      linear_combination -residual.constant * cancel - residual.linear * hroot
  · cases h

end Residual

namespace Constraint

/-- A constraint can be solved for a wire if and only if it is linear in it. -/
theorem isSome_isolate? {c : Constraint F} : (c.isolate? known unknown).isSome ↔
    (c.polynomial known unknown).coeff 2 = 0 ∧ (c.polynomial known unknown).coeff 1 ≠ 0 := by
  rw [← polynomial_residual, Residual.coeff_two, Residual.coeff_one, isolate?, Residual.isSome_root?]

theorem isolate?_eq_none {c : Constraint F} : c.isolate? known unknown = none ↔
    (c.polynomial known unknown).coeff 2 ≠ 0 ∨ (c.polynomial known unknown).coeff 1 = 0 := by
  rw [← Option.not_isSome_iff_eq_none, isSome_isolate?, not_and_or, not_not]

/-- A constraint that can be solved for a wire holds for one value of it. -/
theorem holds_iff_isolate? (prime : F.modulus.Prime) {c : Constraint F} {root : F.Elem}
    (h : ∀ wire ∈ c.wires, wire ≠ unknown → known.valueOrZero wire = value wire)
    (solved : c.isolate? known unknown = some root) : c.Holds value ↔ value unknown = root := by
  rw [holds_iff_defect, ← eval_polynomial h, ← polynomial_residual, Residual.eval_polynomial_eq_zero_iff prime solved]

end Constraint

/-! ## Residuals depend on the other wires alone -/

namespace Affine

variable {known' : Knowledge F}

theorem addTerms_congr {terms : List (Term F)} {sum : Affine F}
    (h : ∀ term ∈ terms, term.wire ≠ unknown → known.valueOrZero term.wire = known'.valueOrZero term.wire) :
    addTerms known unknown terms sum = addTerms known' unknown terms sum := by
  induction terms generalizing sum with
  | nil => rfl
  | cons term rest ih =>
      rw [addTerms, addTerms, ih fun t ht => h t (List.mem_cons_of_mem _ ht)]
      split
      · rfl
      · rename_i other
        rw [h term List.mem_cons_self other]

theorem ofCombination_congr {x : LinearCombination F}
    (h : ∀ wire ∈ x.wires, wire ≠ unknown → known.valueOrZero wire = known'.valueOrZero wire) :
    ofCombination known unknown x = ofCombination known' unknown x :=
  addTerms_congr fun term ht => h term.wire (List.mem_map_of_mem ht)

theorem ofSlot_congr {slot : Option Wire}
    (h : ∀ wire ∈ slot, wire ≠ unknown → known.valueOrZero wire = known'.valueOrZero wire) :
    ofSlot known unknown slot = ofSlot known' unknown slot := by
  cases slot with
  | none => rfl
  | some wire =>
      by_cases same : wire = unknown
      · simp [ofSlot, same]
      · simp [ofSlot, same, h wire rfl same]

end Affine

theorem Constraint.isolate?_congr {known' : Knowledge F} {c : Constraint F}
    (h : ∀ wire ∈ c.wires, wire ≠ unknown → known.valueOrZero wire = known'.valueOrZero wire) :
    c.isolate? known unknown = c.isolate? known' unknown := by
  cases c with
  | rank1 triple =>
      simp only [mem_wires_rank1] at h
      rw [isolate?, isolate?, residual, residual, Affine.ofCombination_congr fun w hw => h w (.inl hw),
        Affine.ofCombination_congr fun w hw => h w (.inr (.inl hw)),
        Affine.ofCombination_congr fun w hw => h w (.inr (.inr hw))]
  | gate g =>
      simp only [Constraint.wires, Gate.mem_wires] at h
      rw [isolate?, isolate?, residual, residual, Affine.ofSlot_congr fun w hw => h w (.inl hw),
        Affine.ofSlot_congr fun w hw => h w (.inr (.inl hw)),
        Affine.ofSlot_congr fun w hw => h w (.inr (.inr hw))]

end ArithCircuit
