import ArithCircuit.Proofs.Linear.Evaluation
import ArithCircuit.Witness.Isolation
import Mathlib.Algebra.Polynomial.Eval.Degree

/-!
# Constraints as polynomials in one wire

With the values of the other wires put in and the unknown one left as a variable, what a constraint
compares with zero is a polynomial. It is a formal one: over the field with two elements `u²` and `u`
are the same function, and only the polynomial says which of the two the constraint has. Its three
coefficients are those of the residual.
-/

namespace ArithCircuit

open Polynomial
open scoped Fin.CommRing

variable {F : PrimeField} {known : Knowledge F} {unknown : Wire} {value value' : Wire → F.Elem}

/-! ## Constraints and their wires -/

theorem Gate.read_congr {slot : Option Wire} (h : ∀ wire ∈ slot, value wire = value' wire) :
    Gate.read value slot = Gate.read value' slot := by
  cases slot with
  | none => rfl
  | some wire => exact h wire rfl

theorem Gate.mem_wires {gate : Gate F} {wire : Wire} :
    wire ∈ gate.wires ↔ gate.l = some wire ∨ gate.r = some wire ∨ gate.o = some wire := by
  simp [Gate.wires, Slot.all, List.mem_filterMap, Gate.wire?]

namespace Constraint

theorem mem_wires_rank1 {triple : Triple F} {wire : Wire} :
    wire ∈ (Constraint.rank1 triple).wires ↔
      wire ∈ triple.left.wires ∨ wire ∈ triple.right.wires ∨ wire ∈ triple.output.wires := by
  simp [Constraint.wires, Triple.wires]

theorem violation?_congr {c : Constraint F} (h : ∀ wire ∈ c.wires, value wire = value' wire) :
    c.violation? value = c.violation? value' := by
  cases c with
  | rank1 triple =>
      simp only [mem_wires_rank1] at h
      have left := LinearCombination.evalWith_congr fun w hw => h w (.inl hw)
      have right := LinearCombination.evalWith_congr fun w hw => h w (.inr (.inl hw))
      have output := LinearCombination.evalWith_congr fun w hw => h w (.inr (.inr hw))
      simp only [violation?, left, right, output]
  | gate g =>
      simp only [Constraint.wires, Gate.mem_wires] at h
      have left := Gate.read_congr fun w hw => h w (.inl hw)
      have right := Gate.read_congr fun w hw => h w (.inr (.inl hw))
      have output := Gate.read_congr fun w hw => h w (.inr (.inr hw))
      simp only [violation?, left, right, output]

theorem violation?_eq_none {c : Constraint F} : c.violation? value = none ↔ c.Holds value := by
  cases c with
  | rank1 triple => simp [violation?, Holds]
  | gate g => simp [violation?, Holds]

/-- Whether a constraint holds depends on the wires it mentions alone. -/
theorem holds_congr {c : Constraint F} (h : ∀ wire ∈ c.wires, value wire = value' wire) :
    c.Holds value ↔ c.Holds value' := by
  rw [← violation?_eq_none, ← violation?_eq_none, violation?_congr h]

end Constraint

/-! ## What a constraint compares with zero -/

/-- `l · r - o` for a triple, and the residual of a gate. -/
def Constraint.defect (value : Wire → F.Elem) : Constraint F → F.Elem
  | .rank1 triple =>
    triple.left.evalWith value * triple.right.evalWith value - triple.output.evalWith value
  | .gate g => g.residual (Gate.read value g.l) (Gate.read value g.r) (Gate.read value g.o)

theorem Constraint.holds_iff_defect {c : Constraint F} : c.Holds value ↔ c.defect value = 0 := by
  cases c with
  | rank1 triple => exact sub_eq_zero.symm
  | gate g => exact Iff.rfl

theorem Constraint.defect_congr {c : Constraint F}
    (h : ∀ wire ∈ c.wires, value wire = value' wire) : c.defect value = c.defect value' := by
  cases c with
  | rank1 triple =>
      simp only [mem_wires_rank1] at h
      rw [defect, defect, LinearCombination.evalWith_congr fun w hw => h w (.inl hw),
        LinearCombination.evalWith_congr fun w hw => h w (.inr (.inl hw)),
        LinearCombination.evalWith_congr fun w hw => h w (.inr (.inr hw))]
  | gate g =>
      simp only [Constraint.wires, Gate.mem_wires] at h
      rw [defect, defect, Gate.read_congr fun w hw => h w (.inl hw),
        Gate.read_congr fun w hw => h w (.inr (.inl hw)), Gate.read_congr fun w hw => h w (.inr (.inr hw))]

/-! ## Constraints as polynomials in one wire -/

/-- The variable for the unknown wire, and the known values of the others. -/
noncomputable def Knowledge.polynomial (known : Knowledge F) (unknown wire : Wire) : F.Elem[X] :=
  if wire = unknown then X else C (known.valueOrZero wire)

noncomputable def LinearCombination.polynomial (place : Wire → F.Elem[X]) (x : LinearCombination F) : F.Elem[X] :=
  C x.constant + (x.terms.map fun term => place term.wire * C term.coefficient).sum

noncomputable def Gate.slotPolynomial (place : Wire → F.Elem[X]) : Option Wire → F.Elem[X]
  | some wire => place wire
  | none => 0

/-- What the constraint compares with zero, as a polynomial in the unknown wire. -/
noncomputable def Constraint.polynomial (known : Knowledge F) (unknown : Wire) : Constraint F → F.Elem[X]
  | .rank1 triple =>
    let part := LinearCombination.polynomial (known.polynomial unknown)
    part triple.left * part triple.right - part triple.output
  | .gate g =>
    let part := Gate.slotPolynomial (known.polynomial unknown)
    C g.qL * part g.l + C g.qR * part g.r + C g.qO * part g.o + C g.qM * part g.l * part g.r + C g.qC

theorem LinearCombination.eval_polynomial (place : Wire → F.Elem[X]) (x : LinearCombination F) (u : F.Elem) :
    (x.polynomial place).eval u = x.evalWith fun wire => (place wire).eval u := by
  have terms (terms : List (Term F)) :
      ((terms.map fun term : Term F => place term.wire * C term.coefficient).sum).eval u
        = evalTerms (fun wire => (place wire).eval u) terms := by
    induction terms with
    | nil => simp [evalTerms]
    | cons term rest ih => simp [evalTerms, ih]
  simp [polynomial, evalWith, terms]

theorem Gate.eval_slotPolynomial (place : Wire → F.Elem[X]) (slot : Option Wire) (u : F.Elem) :
    (slotPolynomial place slot).eval u = read (fun wire => (place wire).eval u) slot := by
  cases slot with
  | none => exact eval_zero
  | some wire => rfl

/-- The polynomial takes the values that the constraint takes with the known values. -/
theorem Constraint.eval_polynomial {c : Constraint F}
    (h : ∀ wire ∈ c.wires, wire ≠ unknown → known.valueOrZero wire = value wire) :
    (c.polynomial known unknown).eval (value unknown) = c.defect value := by
  have place (wire : Wire) (mem : wire ∈ c.wires) :
      (known.polynomial unknown wire).eval (value unknown) = value wire := by
    rw [Knowledge.polynomial]
    split
    · rename_i same
      rw [same, eval_X]
    · rename_i other
      rw [eval_C, h wire mem other]
  rw [← defect_congr place]
  cases c with
  | rank1 triple => simp [polynomial, defect, LinearCombination.eval_polynomial]
  | gate g => simp [polynomial, defect, Gate.residual, Gate.eval_slotPolynomial]

/-! ## The coefficients that isolation computes -/

noncomputable def Affine.polynomial (affine : Affine F) : F.Elem[X] := C affine.slope * X + C affine.offset

noncomputable def Residual.polynomial (residual : Residual F) : F.Elem[X] :=
  C residual.quadratic * X ^ 2 + C residual.linear * X + C residual.constant

namespace Affine

theorem polynomial_addTerms (terms : List (Term F)) (sum : Affine F) :
    (addTerms known unknown terms sum).polynomial
      = sum.polynomial + (terms.map fun term => known.polynomial unknown term.wire * C term.coefficient).sum := by
  induction terms generalizing sum with
  | nil => simp [addTerms]
  | cons term rest ih =>
      rw [addTerms, ih, List.map_cons, List.sum_cons, Knowledge.polynomial]
      split
      · simp only [polynomial, map_add]
        ring
      · simp only [polynomial, map_add, map_mul]
        ring

theorem polynomial_ofCombination (x : LinearCombination F) :
    (ofCombination known unknown x).polynomial = x.polynomial (known.polynomial unknown) := by
  rw [ofCombination, polynomial_addTerms, LinearCombination.polynomial, polynomial, C_0, zero_mul, zero_add]

theorem polynomial_ofSlot (slot : Option Wire) :
    (ofSlot known unknown slot).polynomial = Gate.slotPolynomial (known.polynomial unknown) slot := by
  cases slot with
  | none => simp [ofSlot, polynomial, Gate.slotPolynomial]
  | some wire =>
      by_cases same : wire = unknown
      · simp [ofSlot, polynomial, Gate.slotPolynomial, Knowledge.polynomial, same]
      · simp [ofSlot, polynomial, Gate.slotPolynomial, Knowledge.polynomial, same]

end Affine

namespace Residual

theorem polynomial_ofProduct (l r o : Affine F) :
    (ofProduct l r o).polynomial = l.polynomial * r.polynomial - o.polynomial := by
  simp only [polynomial, ofProduct, Affine.polynomial, map_add, map_sub, map_mul]
  ring

theorem polynomial_ofGate (g : Gate F) (l r o : Affine F) :
    (ofGate g l r o).polynomial = C g.qL * l.polynomial + C g.qR * r.polynomial + C g.qO * o.polynomial
      + C g.qM * l.polynomial * r.polynomial + C g.qC := by
  simp only [polynomial, ofGate, Affine.polynomial, map_add, map_mul]
  ring

end Residual

namespace Constraint

/-- The residual that isolation computes is the polynomial of the constraint. -/
theorem polynomial_residual (c : Constraint F) :
    (c.residual known unknown).polynomial = c.polynomial known unknown := by
  cases c with
  | rank1 triple => simp only [residual, Residual.polynomial_ofProduct, Affine.polynomial_ofCombination, polynomial]
  | gate g => simp only [residual, Residual.polynomial_ofGate, Affine.polynomial_ofSlot, polynomial]

end Constraint

end ArithCircuit
