import ArithCircuit.Synthesis.Draft

/-!
# Forms of constraints

A form says how its constraints express the few relations that everything else is built from. Its
factors are the shape in which an expression can take part in one constraint.
-/

namespace ArithCircuit

class ConstraintForm (F : outParam PrimeField) (κ : Type) where
  Factor : Type
  /-- All constraints of a finished draft. -/
  collect : List κ → Constraints F
  /-- The constraint that a wire has a constant value. -/
  pinned : Wire → F.Elem → κ
  /-- The constraint that the product of the first two factors is the third. -/
  product : Factor → Factor → Factor → κ
  /-- The constraint that a factor is zero or one. -/
  boolean : Factor → κ
  /-- A wire as a factor. -/
  wireFactor : Wire → Factor
  /-- The wire that a factor consists of, if it is nothing else. -/
  asWire? : Factor → Option Wire
  /-- An expression as a factor. -/
  factor : LinearCombination F → Synthesis F κ Factor
  /-- A fresh wire with the value of an expression that is neither a wire nor a constant. -/
  materialize : LinearCombination F → Synthesis F κ Wire
  /-- The constraints that an expression, not a constant, is zero. -/
  enforceZero : LinearCombination F → Synthesis F κ Unit

end ArithCircuit
