import ArithCircuit.Number.Modular

/-!
# Numbers as bytes, most significant first
-/

namespace ArithCircuit

/-- The low `8 * width` bits of `n` as exactly `width` bytes. -/
def bigEndian : (width n : Nat) → List UInt8
  | 0, _ => []
  | width + 1, n => UInt8.ofNat (n >>> (8 * width)) :: bigEndian width n

/-- A number in as many bytes as it needs; zero needs one. -/
def minimalBigEndian (n : Nat) : List UInt8 := bigEndian (max 1 ((bitLength n + 7) / 8)) n

/-- The number that a byte string spells. -/
def ofBigEndian (bytes : List UInt8) : Nat :=
  bytes.foldl (fun n byte => 256 * n + byte.toNat) 0

end ArithCircuit
