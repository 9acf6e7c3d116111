import ArithCircuit.Synthesis.Form

/-!
# Gate synthesis

A gate has room for three wires. A factor is affine in at most one wire, and wider expressions are
first summed up by a chain of addition gates.
-/

namespace ArithCircuit

variable {F : PrimeField}

/-- `coefficient · wire + constant`, or the constant alone. -/
structure SlotFactor (F : PrimeField) where
  coefficient : F.Elem
  wire : Option Wire
  constant : F.Elem

namespace SlotFactor

def ofWire (wire : Wire) : SlotFactor F := ⟨1, some wire, 0⟩

def ofConstant (value : F.Elem) : SlotFactor F := ⟨0, none, value⟩

def asWire? (factor : SlotFactor F) : Option Wire :=
  if factor.coefficient = 1 ∧ factor.constant = 0 then factor.wire else none

end SlotFactor

namespace Gate

/-- `w - value = 0`. -/
def pinned (wire : Wire) (value : F.Elem) : Gate F := { qL := 1, qC := -value, l := some wire }

/-- `x·y - z = 0`, multiplied out. -/
def product (x y z : SlotFactor F) : Gate F where
  qM := x.coefficient * y.coefficient
  qL := x.coefficient * y.constant
  qR := y.coefficient * x.constant
  qO := -z.coefficient
  qC := x.constant * y.constant - z.constant
  l := x.wire
  r := y.wire
  o := z.wire

/-- `x·(x - 1) = 0`, multiplied out. -/
def boolean (x : SlotFactor F) : Gate F where
  qM := x.coefficient * x.coefficient
  qL := x.coefficient * x.constant + x.coefficient * x.constant - x.coefficient
  qC := x.constant * x.constant - x.constant
  l := x.wire
  r := x.wire

/-- `coefficient·wire + constant - output = 0`. -/
def affine (term : Term F) (constant : F.Elem) (output : Wire) : Gate F where
  qL := term.coefficient
  qO := -1
  qC := constant
  l := some term.wire
  o := some output

/-- `first + second + constant - output = 0`. -/
def addition (first second : Term F) (constant : F.Elem) (output : Wire) : Gate F where
  qL := first.coefficient
  qR := second.coefficient
  qO := -1
  qC := constant
  l := some first.wire
  r := some second.wire
  o := some output

/-- The sum of at most three terms and the constant is zero. -/
def zeroSum (terms : List (Term F)) (constant : F.Elem) : Gate F where
  qL := (terms[0]?.map Term.coefficient).getD 0
  qR := (terms[1]?.map Term.coefficient).getD 0
  qO := (terms[2]?.map Term.coefficient).getD 0
  qC := constant
  l := terms[0]?.map Term.wire
  r := terms[1]?.map Term.wire
  o := terms[2]?.map Term.wire

/-- Adds one term after the other to `sum`, each with a gate of its own; the last gate also adds the
constant. -/
def additionChain (constant : F.Elem) (sum : Term F) : List (Term F) → Synthesis F (Gate F) Wire
  | [] => return sum.wire
  | term :: rest => do
    let wire ← Synthesis.freshWire
    Synthesis.emit (addition sum term (if rest.isEmpty then constant else 0) wire)
    additionChain constant ⟨wire, 1⟩ rest

/-- A wire with the value of an expression that has a term and is no bare wire. -/
def materialize (x : LinearCombination F) : Synthesis F (Gate F) Wire := do
  match x.terms with
  | [] =>
    let wire ← Synthesis.freshWire
    Synthesis.emit (pinned wire x.constant)
    return wire
  | [term] =>
    let wire ← Synthesis.freshWire
    Synthesis.emit (affine term x.constant wire)
    return wire
  | first :: rest => additionChain x.constant first rest

/-- An expression of more than one term is materialized first. -/
def factor (x : LinearCombination F) : Synthesis F (Gate F) (SlotFactor F) := do
  match x.terms with
  | [] => return .ofConstant x.constant
  | [term] => return ⟨term.coefficient, some term.wire, x.constant⟩
  | _ => return .ofWire (← materialize x)

/-- Of more than three terms all but the last two are materialized first, with the constant. -/
def enforceZero (x : LinearCombination F) : Synthesis F (Gate F) Unit := do
  if 3 < x.terms.length then
    let split := x.terms.length - 2
    let wire ← materialize { terms := x.terms.take split, constant := x.constant }
    Synthesis.emit (zeroSum (⟨wire, 1⟩ :: x.terms.drop split) 0)
  else Synthesis.emit (zeroSum x.terms x.constant)

end Gate

instance : ConstraintForm F (Gate F) where
  Factor := SlotFactor F
  collect gates := .gate gates (copyTable gates)
  pinned := Gate.pinned
  product := Gate.product
  boolean := Gate.boolean
  wireFactor := .ofWire
  asWire? := SlotFactor.asWire?
  factor := Gate.factor
  materialize := Gate.materialize
  enforceZero := Gate.enforceZero

end ArithCircuit
