import ArithCircuit.Proofs.Witness.Attempts

/-!
# Isolating the only unknown wire

A constraint with a single unknown wire is a polynomial in it. Isolation reads the three coefficients,
and solves the constraint just where the polynomial is linear.
-/

namespace ArithCircuit

open Polynomial
open scoped Fin.CommRing

variable {F : PrimeField} {known : Knowledge F} {unknown : Wire} {value : Wire → F.Elem}

/-! ## Isolation -/

/-- What isolation does to a constraint: it finds the one value of the unknown wire with which the
constraint holds and stores it, or changes nothing as the constraint is not linear in that wire. -/
inductive Constraint.Isolation (known : Knowledge F) (unknown : Wire) (c : Constraint F) : Attempt F → Prop
  | solved {x : F.Elem} {known' : Knowledge F}
      (unique : ∀ value, known.Agrees value → (c.Holds value ↔ value unknown = x))
      (size : known'.values.size = known.values.size)
      (stored : known'.get? unknown = some x)
      (others : ∀ wire ≠ unknown, known'.get? wire = known.get? wire) :
      c.Isolation known unknown (.learned known')
  | unsolvable
      (degree : (c.polynomial known unknown).coeff 2 ≠ 0 ∨ ∃ x, c.polynomial known unknown = C x) :
      c.Isolation known unknown .waiting

/-- A constraint that cannot be isolated is quadratic in the wire or does not depend on it. -/
theorem Constraint.degree_of_isolate? {c : Constraint F} (unsolved : c.isolate? known unknown = none) :
    (c.polynomial known unknown).coeff 2 ≠ 0 ∨ ∃ x, c.polynomial known unknown = C x := by
  by_cases quadratic : (c.polynomial known unknown).coeff 2 = 0
  · have linear := (isolate?_eq_none.mp unsolved).resolve_left (not_not_intro quadratic)
    rw [← polynomial_residual, Residual.coeff_two] at quadratic
    rw [← polynomial_residual, Residual.coeff_one] at linear
    refine .inr ⟨(c.residual known unknown).constant, ?_⟩
    rw [← polynomial_residual]
    simp [Residual.polynomial, quadratic, linear]
  · exact .inl quadratic

/-- A constraint with a single unknown wire says that the wire is a root of a polynomial, and isolation
finds its root or leaves one that is not linear. -/
theorem Constraint.isolate_exact (prime : F.modulus.Prime) {c : Constraint F}
    (only : SolvingContext.OnlyUnknown known c unknown) (inRange : unknown.index < known.values.size) :
    (∀ value, known.Agrees value → (c.polynomial known unknown).eval (value unknown) = c.defect value ∧
      (c.Holds value ↔ c.defect value = 0)) ∧
      c.Isolation known unknown (c.isolate known unknown) := by
  have agree {value : Wire → F.Elem} (agrees : known.Agrees value) (wire : Wire) (mem : wire ∈ c.wires)
      (other : wire ≠ unknown) : known.valueOrZero wire = value wire :=
    agrees.valueOrZero (only.others wire mem other)
  refine ⟨fun value agrees => ⟨eval_polynomial (agree agrees), holds_iff_defect⟩, ?_⟩
  rw [isolate]
  cases solved : c.isolate? known unknown with
  | none => exact .unsolvable (degree_of_isolate? solved)
  | some x =>
      refine .solved (fun value agrees => holds_iff_isolate? prime (agree agrees) solved) Knowledge.size_learn ?_ ?_
      · rw [Knowledge.get?_learn, if_pos ⟨rfl, inRange⟩]
      · intro wire other
        rw [Knowledge.get?_learn, if_neg fun same => other same.1]

/-- `u + w + u + 2·u·w + 2 = 0` with the wire `u` in two slots. -/
def Constraint.wireInTwoSlots : Constraint .seven :=
  .gate { qL := 1, qR := 1, qO := 1, qM := 2, qC := 2, l := some ⟨1⟩, r := some ⟨0⟩, o := some ⟨1⟩ }

/-- With `w = 3` it says that `u = 2`. -/
theorem Constraint.isolate_exact_wireInTwoSlots :
    (∀ value, (⟨#[some 3, none]⟩ : Knowledge .seven).Agrees value →
      (wireInTwoSlots.polynomial ⟨#[some 3, none]⟩ ⟨1⟩).eval (value ⟨1⟩) = wireInTwoSlots.defect value ∧
      (wireInTwoSlots.Holds value ↔ wireInTwoSlots.defect value = 0)) ∧
      wireInTwoSlots.Isolation ⟨#[some 3, none]⟩ ⟨1⟩ (.learned ⟨#[some 3, some 2]⟩) :=
  isolate_exact PrimeField.prime_seven ⟨by decide, by decide, by decide⟩ (by decide)

end ArithCircuit
