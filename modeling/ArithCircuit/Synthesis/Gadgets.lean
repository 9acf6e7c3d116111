import ArithCircuit.Synthesis.Operations

/-!
# Gadgets

Circuits for common needs: logic on expressions known to be boolean, tests for zero, tables of four
entries, and bits packed into field elements.
-/

namespace ArithCircuit.Synthesis

variable {F : PrimeField} {κ : Type} [ConstraintForm F κ]

open LinearCombination (ofConstant ofWire)

/-! ## Logic -/

def not (a : LinearCombination F) : LinearCombination F := ofConstant 1 - a

def and (a b : LinearCombination F) : Synthesis F κ (LinearCombination F) := mul a b

def or (a b : LinearCombination F) : Synthesis F κ (LinearCombination F) := do
  let both ← mul a b
  return a + b - both

def xor (a b : LinearCombination F) : Synthesis F κ (LinearCombination F) := do
  let both ← mul a b
  return (a + b).subScaled (1 + 1) both

/-! ## Zero and equality -/

/-- One if the expression is zero, else zero. A hint offers the inverse of the expression, if it has
one; the constraints hold for no other flag, whatever the hint offers. -/
def isZero (x : LinearCombination F) : Synthesis F κ (LinearCombination F) := do
  match x.asConstant? with
  | some value => return ofConstant (if value = 0 then 1 else 0)
  | none =>
    let inverse ← hintValue Hint.inverseOrZeroName [x]
    let product ← mul x inverse
    let flag := ofConstant 1 - product
    assertProduct x flag .zero
    return flag

def isEqual (a b : LinearCombination F) : Synthesis F κ (LinearCombination F) := isZero (a - b)

def assertNonZero (x : LinearCombination F) : Synthesis F κ Unit := discard (inverse x)

/-! ## Tables -/

/-- The entry of a table of four at the number with the binary digits `b0` and `b1`. -/
def lookup2 (b0 b1 t0 t1 t2 t3 : LinearCombination F) : Synthesis F κ (LinearCombination F) := do
  let low ← select b0 t1 t0
  let high ← select b0 t3 t2
  select b1 high low

/-! ## Packing -/

/-- Declares a public input for each packed chunk, starting at the given number. -/
def packChunks (name : String) : Nat → List (List (LinearCombination F)) →
    Synthesis F κ (List (LinearCombination F))
  | _, [] => return []
  | i, chunk :: rest => do
    let packed ← publicInput s!"{name}[{i}]"
    assertEqual (.ofBits chunk) packed
    return packed :: (← packChunks name (i + 1) rest)

/-- Packs bits into public inputs, as many bits to an input as the field's capacity. -/
def packIntoInputs (name : String) (bits : List (LinearCombination F)) :
    Synthesis F κ (List (LinearCombination F)) :=
  packChunks name 0 (chunks F.capacity bits)

/-- Packs bits into one wire; bits beyond the field's capacity are left out. -/
def packBits (bits : List (LinearCombination F)) : Synthesis F κ (LinearCombination F) :=
  ofWire <$> toWire (.ofBits (bits.take F.capacity))

end ArithCircuit.Synthesis
