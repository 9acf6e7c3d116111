/-!
# Bit length and modular powers of natural numbers
-/

namespace ArithCircuit

/-- The number of binary digits of `n`; zero has none. -/
def bitLength (n : Nat) : Nat :=
  if n = 0 then 0 else n.log2 + 1

/-- `base ^ exponent` modulo `modulus` for an exponent of at most `bits` binary digits, by
squaring the power of the halved exponent. -/
def powModBits (modulus base : Nat) : (bits exponent : Nat) → Nat
  | 0, _ => 1 % modulus
  | bits + 1, exponent =>
    let half := powModBits modulus base bits (exponent / 2)
    let square := half * half % modulus
    if exponent % 2 = 1 then square * base % modulus else square

/-- `base ^ exponent` modulo `modulus`. -/
def powMod (modulus base exponent : Nat) : Nat :=
  powModBits modulus base (bitLength exponent) exponent

end ArithCircuit
