/-!
# Numbers and bytes as strings of bits
-/

namespace ArithCircuit

/-- The number with the given bits, least significant first. -/
def ofBits : List Bool → Nat
  | [] => 0
  | bit :: bits => bit.toNat + 2 * ofBits bits

/-- The `n` low bits of a number, least significant first. -/
def lowBits (n value : Nat) : List Bool :=
  (List.range n).map value.testBit

/-- The bits as exactly `n` of them, unset ones added where they are fewer; `none` if one beyond them is set. -/
def fitBits? (n : Nat) (bits : List Bool) : Option (List Bool) :=
  if (bits.drop n).any id then none else some ((bits.take n).rightpad n false)

/-- The bits of each byte in turn, each byte from its least significant bit. -/
def bytesToBitsLE (bytes : List UInt8) : List Bool :=
  bytes.flatMap fun byte => lowBits 8 byte.toNat

/-- The bits of each byte in turn, each byte from its most significant bit. -/
def bytesToBits (bytes : List UInt8) : List Bool :=
  bytes.flatMap fun byte => (lowBits 8 byte.toNat).reverse

/-- Consecutive pieces of `size` elements; the last one may be shorter. -/
def chunks {α : Type} (size : Nat) (xs : List α) : List (List α) :=
  (List.range ((xs.length + size - 1) / size)).map fun i => (xs.drop (size * i)).take size

end ArithCircuit
