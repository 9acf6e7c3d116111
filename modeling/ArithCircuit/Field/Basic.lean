import ArithCircuit.Number.Modular
import ArithCircuit.Number.Bits

/-!
# Prime fields

A field is given by its modulus and a generator of its multiplicative group. An element is a
residue below the modulus. Primality is not part of the type: the laws that need it ask for it.
-/

namespace ArithCircuit

structure PrimeField where
  modulus : Nat
  generator : Nat
  two_le : 2 ≤ modulus := by decide

namespace PrimeField

instance (F : PrimeField) : @NeZero Nat Zero.ofOfNat0 F.modulus :=
  ⟨Nat.ne_of_gt (Nat.lt_of_lt_of_le Nat.zero_lt_two F.two_le)⟩

abbrev Elem (F : PrimeField) : Type := Fin F.modulus

variable (F : PrimeField)

/-- The bit length of the modulus, which is the widest decomposition of an element. -/
def numBits : Nat := bitLength F.modulus

/-- The number of bits that every string of bits can be packed by without wrapping around. -/
def capacity : Nat := F.numBits - 1

/-- The width of an element in memory: limbs of 64 bits, with at least one bit to spare. -/
def reprBits : Nat := 64 * ((F.numBits + 64) / 64)

/-- The number of bytes of the modulus. -/
def byteLength : Nat := (F.numBits + 7) / 8

def ofNat (n : Nat) : F.Elem := Fin.ofNat F.modulus n

def ofInt (n : Int) : F.Elem := F.ofNat (n % F.modulus).toNat

/-- A generator of the multiplicative group is no square, so it serves as the fixed non-residue. -/
def nonResidue : F.Elem := F.ofNat F.generator

/-- Two to the `i`, by doubling. -/
def powerOfTwo (i : Nat) : F.Elem := Nat.repeat (fun x => x + x) i 1

/-- The sum of the weights of the bits that are set. The first bit weighs one, every other bit twice as much
as the bit before it. -/
def weigh (bits : List Bool) : F.Elem :=
  (bits.foldl (fun (sum, weight) bit => (if bit then sum + weight else sum, weight + weight)) (0, 1)).1

/-- Bits packed into consecutive elements, `capacity` bits each. -/
def multipack (bits : List Bool) : List F.Elem := (chunks F.capacity bits).map F.weigh

variable {F}

/-- The inverse is the power to the modulus less two; zero has none. -/
def inverse? (x : F.Elem) : Option F.Elem :=
  if x = 0 then none else some (F.ofNat (powMod F.modulus x.val (F.modulus - 2)))

/-- The residue as `n` bits, least significant first, if none of its bits in memory is set beyond these. -/
def decompose? (x : F.Elem) (n : Nat) : Option (List Bool) := fitBits? n (lowBits F.reprBits x.val)

end PrimeField

end ArithCircuit
