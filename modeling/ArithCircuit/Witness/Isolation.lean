import ArithCircuit.Constraint.Basic
import ArithCircuit.Witness.Knowledge

/-!
# Solving a constraint for its only unknown wire

With all other wires known, each part of a constraint is affine in the unknown, and the constraint
is a polynomial of degree two at most. Where it is linear it has one root.
-/

namespace ArithCircuit

variable {F : PrimeField}

/-- `slope · u + offset`. -/
structure Affine (F : PrimeField) where
  slope : F.Elem
  offset : F.Elem

namespace Affine

/-- The terms of a combination on top of `sum`, those of the unknown in the slope. -/
def addTerms (known : Knowledge F) (unknown : Wire) : List (Term F) → Affine F → Affine F
  | [], sum => sum
  | term :: rest, sum =>
    addTerms known unknown rest <|
      if term.wire = unknown then { sum with slope := sum.slope + term.coefficient }
      else { sum with offset := sum.offset + term.coefficient * known.valueOrZero term.wire }

def ofCombination (known : Knowledge F) (unknown : Wire) (x : LinearCombination F) : Affine F :=
  addTerms known unknown x.terms ⟨0, x.constant⟩

def ofSlot (known : Knowledge F) (unknown : Wire) : Option Wire → Affine F
  | some wire => if wire = unknown then ⟨1, 0⟩ else ⟨0, known.valueOrZero wire⟩
  | none => ⟨0, 0⟩

end Affine

/-- `quadratic · u² + linear · u + constant`, which a constraint requires to be zero. -/
structure Residual (F : PrimeField) where
  quadratic : F.Elem
  linear : F.Elem
  constant : F.Elem

namespace Residual

/-- `l · r - o`. -/
def ofProduct (l r o : Affine F) : Residual F where
  quadratic := l.slope * r.slope
  linear := l.slope * r.offset + r.slope * l.offset - o.slope
  constant := l.offset * r.offset - o.offset

def ofGate (g : Gate F) (l r o : Affine F) : Residual F where
  quadratic := g.qM * l.slope * r.slope
  linear := g.qL * l.slope + g.qR * r.slope + g.qO * o.slope
    + g.qM * (l.slope * r.offset + r.slope * l.offset)
  constant := g.qL * l.offset + g.qR * r.offset + g.qO * o.offset
    + g.qM * l.offset * r.offset + g.qC

/-- The root of a linear polynomial; `none` if it is quadratic or constant. -/
def root? (residual : Residual F) : Option F.Elem :=
  if residual.quadratic = 0 then
    (PrimeField.inverse? residual.linear).map fun inverse => -residual.constant * inverse
  else none

end Residual

namespace Constraint

/-- The constraint as a polynomial in one wire. -/
def residual (known : Knowledge F) (unknown : Wire) : Constraint F → Residual F
  | .rank1 triple =>
    .ofProduct (.ofCombination known unknown triple.left)
      (.ofCombination known unknown triple.right) (.ofCombination known unknown triple.output)
  | .gate g =>
    .ofGate g (.ofSlot known unknown g.l) (.ofSlot known unknown g.r) (.ofSlot known unknown g.o)

/-- The value that the constraint forces on its only unknown wire. -/
def isolate? (known : Knowledge F) (unknown : Wire) (c : Constraint F) : Option F.Elem :=
  (c.residual known unknown).root?

end Constraint

end ArithCircuit
