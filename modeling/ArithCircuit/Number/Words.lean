import ArithCircuit.Number.Modular

/-!
# Numbers as machine words, least significant first
-/

namespace ArithCircuit

/-- The 64-bit limbs of a number, as many as it needs; zero has none. -/
def limbs (n : Nat) : List UInt64 :=
  (List.range ((bitLength n + 63) / 64)).map fun i => UInt64.ofNat (n >>> (64 * i))

/-- The number of 32-bit words. -/
def ofWords (words : List UInt32) : Nat :=
  words.foldr (fun word n => n <<< 32 + word.toNat) 0

/-- Sets the bit at an index, counted across the words. -/
def setBit (words : List UInt32) (i : Nat) : List UInt32 :=
  words.modify (i / 32) (· ||| 1 <<< UInt32.ofNat (i % 32))

/-- So many words with the given bits set, least significant first. -/
def wordsOfBits (count : Nat) (bits : List Bool) : List UInt32 :=
  bits.zipIdx.foldl (fun words (bit, i) => if bit then setBit words i else words) (List.replicate count 0)

end ArithCircuit
