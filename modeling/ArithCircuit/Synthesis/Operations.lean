import ArithCircuit.Hint.Builtin
import ArithCircuit.Synthesis.Form

/-!
# The operations of a circuit

Products, assertions and hints on expressions of any form. Operands that are constants are folded
here, so the constraint forms see only what has to become a constraint.
-/

namespace ArithCircuit.Synthesis

variable {F : PrimeField} {κ : Type} [ConstraintForm F κ]

open LinearCombination (ofConstant ofWire)

/-! ## Wires -/

/-- The wire pinned to a constant: a shared one, or a fresh one. -/
def pin (value : F.Elem) : Synthesis F κ Wire := do
  match (← get).constantWire? value with
  | some wire => return wire
  | none =>
    let wire ← freshWire
    emit (ConstraintForm.pinned wire value)
    rememberConstant value wire
    return wire

/-- A single wire with the value of an expression. -/
def toWire (x : LinearCombination F) : Synthesis F κ Wire := do
  match x.asWire?, x.asConstant? with
  | some wire, _ => return wire
  | none, some value => pin value
  | none, none => ConstraintForm.materialize x

/-! ## Products and assertions -/

/-- The product of two expressions, on a fresh wire unless one of them is constant. -/
def mul (a b : LinearCombination F) : Synthesis F κ (LinearCombination F) := do
  match a.asConstant?, b.asConstant? with
  | some k, _ => return b.scale k
  | none, some k => return a.scale k
  | none, none =>
    let x ← ConstraintForm.factor (κ := κ) a
    let y ← ConstraintForm.factor (κ := κ) b
    let wire ← freshWire
    emit (ConstraintForm.product x y (ConstraintForm.wireFactor (κ := κ) wire))
    return ofWire wire

def assertEqual (a b : LinearCombination F) : Synthesis F κ Unit := do
  let difference := a - b
  match difference.asConstant? with
  | some value => if value ≠ 0 then fail (.malformed · .distinctConstants)
  | none => ConstraintForm.enforceZero difference

/-- Enforces `a · b = c`. -/
def assertProduct (a b c : LinearCombination F) : Synthesis F κ Unit := do
  match a.asConstant?, b.asConstant? with
  | some k, _ => assertEqual (b.scale k) c
  | none, some k => assertEqual (a.scale k) c
  | none, none =>
    let x ← ConstraintForm.factor (κ := κ) a
    let y ← ConstraintForm.factor (κ := κ) b
    let z ← ConstraintForm.factor (κ := κ) c
    emit (ConstraintForm.product x y z)

/-- Constrains an expression that is not to be folded. A wire is constrained only once. -/
def constrainBoolean (x : LinearCombination F) : Synthesis F κ Unit := do
  let y ← ConstraintForm.factor (κ := κ) x
  match ConstraintForm.asWire? y with
  | some wire =>
    if wire ∉ (← get).booleans then
      markBoolean wire
      emit (ConstraintForm.boolean y)
  | none => emit (ConstraintForm.boolean y)

/-- Enforces that an expression is zero or one. -/
def assertBoolean (x : LinearCombination F) : Synthesis F κ Unit := do
  match x.asConstant? with
  | none => constrainBoolean x
  | some value =>
    if (← get).sharesConstants then
      if value ≠ 0 ∧ value ≠ 1 then fail (.malformed · .nonBooleanConstant)
    else constrainBoolean (ofWire (← pin value))

/-! ## Hints -/

/-- So many fresh wires, unconstrained, with the values that a hint gives for the inputs. -/
def hint (name : String) (inputs : List (LinearCombination F)) (outputs : Nat) :
    Synthesis F κ (List (LinearCombination F)) := do
  let wires ← inputs.mapM toWire
  return (← bindHint name wires outputs).map ofWire

/-- The one output of a hint. -/
def hintValue (name : String) (inputs : List (LinearCombination F)) :
    Synthesis F κ (LinearCombination F) := do
  match (← hint name inputs 1).getLast? with
  | some output => return output
  | none => fail (.malformed · .missingOutput)

/-! ## Quotients, choices and digits -/

/-- The inverse of a constant that a circuit divides by. -/
def constantInverse (value : F.Elem) : Synthesis F κ F.Elem := do
  match PrimeField.inverse? value with
  | some inverse => return inverse
  | none => fail .divisionByZero

def div (a b : LinearCombination F) : Synthesis F κ (LinearCombination F) := do
  match b.asConstant? with
  | some divisor => return a.scale (← constantInverse divisor)
  | none =>
    let a ← ofWire <$> toWire a
    let b ← ofWire <$> toWire b
    let quotient ← hintValue Hint.divName [a, b]
    assertProduct b quotient a
    return quotient

def inverse (a : LinearCombination F) : Synthesis F κ (LinearCombination F) := do
  match a.asConstant? with
  | some value => return ofConstant (← constantInverse value)
  | none =>
    let a ← ofWire <$> toWire a
    let y ← hintValue Hint.invertName [a]
    assertProduct a y (ofConstant 1)
    return y

/-- `a` if the condition is one and `b` if it is zero. -/
def selectOn (c a b : LinearCombination F) : Synthesis F κ (LinearCombination F) := do
  assertBoolean c
  return (← mul c (a - b)) + b

/-- `a` or `b`, with the condition constrained to be one or zero. -/
def select (c a b : LinearCombination F) : Synthesis F κ (LinearCombination F) := do
  match c.asConstant? with
  | none => selectOn c a b
  | some value =>
    if (← get).sharesConstants then
      if value = 1 then return a
      else if value = 0 then return b
      else fail (.malformed · .nonBooleanCondition)
    else selectOn (ofWire (← pin value)) a b

/-- The digits of an expression, as wires constrained to be digits and to add up to it. -/
def digitWires (x : LinearCombination F) (width : Nat) :
    Synthesis F κ (List (LinearCombination F)) := do
  let digits ← hint Hint.bitsName [x] width
  digits.forM assertBoolean
  assertEqual (.ofBits digits) x
  return digits

/-- The binary digits of an expression, least significant first. -/
def toBits (x : LinearCombination F) (width : Nat) :
    Synthesis F κ (List (LinearCombination F)) := do
  if width = 0 ∨ F.numBits < width then
    fail (.malformed · (.decompositionWidth width F.numBits))
  else match x.asConstant? with
  | none => digitWires x width
  | some value =>
    if (← get).sharesConstants then
      match PrimeField.decompose? value width with
      | some bits => return bits.map fun bit => ofConstant (F.ofNat bit.toNat)
      | none => fail (.malformed · (.constantTooWide width))
    else digitWires x width

end ArithCircuit.Synthesis
