import ArithCircuit.Proofs.Synthesis.Elaboration

/-!
# Lawful forms

A form is lawful if its constraints say what their names say, and if all that it adds on its own are
elaborations.
-/

namespace ArithCircuit

open scoped Fin.CommRing

open ConstraintForm (Factor collect pinned product boolean wireFactor asWire? factor materialize enforceZero)

class LawfulForm (F : outParam PrimeField) (κ : Type) [ConstraintForm F κ] extends ToConstraint F κ where
  toList_collect : ∀ cs : List κ, (collect cs).toList = cs.map toConstraint
  factorValue : (Wire → F.Elem) → Factor κ → F.Elem
  /-- The wires of the factor are below a bound. -/
  FactorBelow : Nat → Factor κ → Prop
  factorBelow_mono : ∀ {n m x}, FactorBelow n x → n ≤ m → FactorBelow m x
  defines_pinned : ∀ (wire : Wire) (k : F.Elem), (toConstraint (pinned wire k : κ)).Defines wire fun _ => k
  defines_product : ∀ {x y : Factor κ} (wire : Wire), FactorBelow wire.index x → FactorBelow wire.index y →
    (toConstraint (product x y (wireFactor (κ := κ) wire))).Defines wire fun value =>
      factorValue value x * factorValue value y
  holds_product : ∀ {x y z : Factor κ} {value : Wire → F.Elem},
    (toConstraint (product x y z : κ)).Holds value ↔
      factorValue value x * factorValue value y = factorValue value z
  product_lt : ∀ {x y z : Factor κ} {n : Nat}, FactorBelow n x → FactorBelow n y → FactorBelow n z →
    ∀ wire ∈ (toConstraint (product x y z : κ)).wires, wire.index < n
  holds_boolean : ∀ {x : Factor κ} {value : Wire → F.Elem}, (toConstraint (boolean x : κ)).Holds value ↔
    factorValue value x * (factorValue value x - 1) = 0
  boolean_lt : ∀ {x : Factor κ} {n : Nat}, FactorBelow n x →
    ∀ wire ∈ (toConstraint (boolean x : κ)).wires, wire.index < n
  asWire?_spec : ∀ {x : Factor κ} {wire : Wire}, asWire? x = some wire →
    (∀ n, FactorBelow n x → wire.index < n) ∧ ∀ value, factorValue value x = value wire
  run_factor : ∀ {d : Draft F κ} {x : LinearCombination F}, x.Below d.size → ∃ y d',
    (factor x : Synthesis F κ (Factor κ)).run d = .ok y d' ∧ d.Elaborates d' ∧ FactorBelow d'.size y ∧
      ∀ value, d'.Accepts value → factorValue value y = x.evalWith value
  run_materialize : ∀ {d : Draft F κ} {x : LinearCombination F}, x.Below d.size → ∃ wire d',
    (materialize x : Synthesis F κ Wire).run d = .ok wire d' ∧ d.Computes d' wire x.evalWith
  run_enforceZero : ∀ {d : Draft F κ} {x : LinearCombination F}, x.Below d.size → ∃ d₁ c,
    (enforceZero x : Synthesis F κ Unit).run d = .ok () (d₁.emit c) ∧ d.Elaborates d₁ ∧
      (∀ wire ∈ (toConstraint c).wires, wire.index < d₁.size) ∧
      ∀ value, d₁.Accepts value → ((toConstraint c).Holds value ↔ x.evalWith value = 0)
  /-- A zero is enforced whatever wires the expression is over. -/
  enforceZero_forces : ∀ {d d' : Draft F κ} {x : LinearCombination F},
    (enforceZero x : Synthesis F κ Unit).run d = .ok () d' → ∀ value, d'.Accepts value → x.evalWith value = 0
  evolving_factor : ∀ x : LinearCombination F, (factor x : Synthesis F κ (Factor κ)).Evolving
  evolving_materialize : ∀ x : LinearCombination F, (materialize x : Synthesis F κ Wire).Evolving
  evolving_enforceZero : ∀ x : LinearCombination F, (enforceZero x : Synthesis F κ Unit).Evolving

attribute [instance] LawfulForm.evolving_factor LawfulForm.evolving_materialize LawfulForm.evolving_enforceZero

end ArithCircuit
