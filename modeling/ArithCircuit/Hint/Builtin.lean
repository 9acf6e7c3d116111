import ArithCircuit.Hint.Registry
import ArithCircuit.Number.Bits
import ArithCircuit.Number.Modular

/-!
# The built-in hints

Values that are dear to express by constraints and cheap to check: inverses, quotients and binary
digits.
-/

namespace ArithCircuit

namespace Hint

/-- `x` to `1 / x`. -/
def invertName : String := "bellwire.hints.Invert"

/-- `a` and `b` to `a / b`. -/
def divName : String := "bellwire.hints.Div"

/-- `x` to its binary digits, least significant first. -/
def bitsName : String := "bellwire.hints.Bits"

/-- `x` to `1 / x`, and zero to zero. -/
def inverseOrZeroName : String := "bellwire.hints.InverseOrZero"

/-- The inverse of a non-zero number modulo a prime, as its power to the modulus less two. Below a
modulus of two that exponent is undefined. -/
def inverseMod? (modulus x : Nat) : Except HandlerFailure (Option Nat) :=
  if x = 0 then .ok none
  else if modulus < 2 then .error .undefinedArithmetic
  else .ok (some (powMod modulus x (modulus - 2)))

def invert : Handler := fun modulus inputs _ => do
  match ← inverseMod? modulus (inputs.getD 0 0) with
  | some inverse => return [inverse]
  | none => throw (.refused "inverse of zero")

def div : Handler := fun modulus inputs _ => do
  match ← inverseMod? modulus (inputs.getD 1 0) with
  | some inverse => return [inputs.getD 0 0 * inverse % modulus]
  | none => throw (.refused "division by zero")

def bits : Handler := fun _ inputs outputs =>
  let x := inputs.getD 0 0
  if outputs < bitLength x then .error (.refused s!"{x} does not fit in {outputs} bits")
  else .ok ((lowBits outputs x).map Bool.toNat)

def inverseOrZero : Handler := fun modulus inputs _ => do
  return [(← inverseMod? modulus (inputs.getD 0 0)).getD 0]

end Hint

/-- The registry that holds the built-in hints alone. -/
def HintRegistry.builtin : HintRegistry where
  hints := [
    ⟨Hint.bitsName, .exactly 1, .any, Hint.bits⟩,
    ⟨Hint.divName, .exactly 2, .exactly 1, Hint.div⟩,
    ⟨Hint.inverseOrZeroName, .exactly 1, .exactly 1, Hint.inverseOrZero⟩,
    ⟨Hint.invertName, .exactly 1, .exactly 1, Hint.invert⟩]

end ArithCircuit
