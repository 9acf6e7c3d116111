import ArithCircuit.Field.Basic
import ArithCircuit.Number.Words

/-!
# Field elements as numbers

A number enters a field limb by limb, after it was reduced by the modulus. An element leaves it bit by
bit, as a number in 32-bit words.
-/

namespace ArithCircuit.PrimeField

variable (F : PrimeField)

/-- The weight of a limb against the one below it. -/
def limbBase : F.Elem := F.ofNat (1 <<< 32) * F.ofNat (1 <<< 32)

/-- The element that a number of any size stands for. -/
def ofNumber (n : Nat) : F.Elem :=
  (limbs (n % F.modulus)).foldr (fun limb sum => sum * F.limbBase + F.ofNat limb.toNat) 0

/-- The number of the bits of an element, in as many words as the modulus has. -/
def numberOfBits (bits : List Bool) : Nat := ofWords (wordsOfBits ((F.numBits + 31) / 32) bits)

variable {F}

/-- The least number that an element stands for. -/
def toNumber (x : F.Elem) : Nat := F.numberOfBits (lowBits F.reprBits x.val)

def decimal (x : F.Elem) : String := toString (toNumber x)

end ArithCircuit.PrimeField
