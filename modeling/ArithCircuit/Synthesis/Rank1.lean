import ArithCircuit.Synthesis.Form

/-!
# Rank-1 synthesis

Any expression is a factor of a triple, so linear work costs no constraint of its own.
-/

namespace ArithCircuit

variable {F : PrimeField}

namespace Triple

open LinearCombination (ofConstant ofWire)

def pinned (wire : Wire) (value : F.Elem) : Triple F :=
  ⟨ofConstant 1, ofConstant value, ofWire wire⟩

/-- `x · 1 = output`. -/
def equation (x output : LinearCombination F) : Triple F := ⟨x, ofConstant 1, output⟩

/-- `x · (x - 1) = 0`. -/
def boolean (x : LinearCombination F) : Triple F := ⟨x, x.addConstant (-1), .zero⟩

def materialize (x : LinearCombination F) : Synthesis F (Triple F) Wire := do
  let wire ← Synthesis.freshWire
  Synthesis.emit (equation x (ofWire wire))
  return wire

end Triple

instance : ConstraintForm F (Triple F) where
  Factor := LinearCombination F
  collect := .rank1
  pinned := Triple.pinned
  product := Triple.mk
  boolean := Triple.boolean
  wireFactor := .ofWire
  asWire? := LinearCombination.asWire?
  factor := pure
  materialize := Triple.materialize
  enforceZero x := Synthesis.emit (Triple.equation x .zero)

end ArithCircuit
