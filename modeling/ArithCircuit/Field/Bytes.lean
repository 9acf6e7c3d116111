import ArithCircuit.Field.Number
import ArithCircuit.Number.BigEndian

/-!
# The byte form of field elements

An element is written in exactly as many bytes as the modulus has, most significant first, and
only residues below the modulus are read back.
-/

namespace ArithCircuit.PrimeField

variable {F : PrimeField}

/-- The bytes of the number of an element, behind zeros. -/
def toBytes (x : F.Elem) : List UInt8 :=
  let bytes := minimalBigEndian (toNumber x)
  List.replicate (F.byteLength - bytes.length) 0 ++ bytes

variable (F) in
/-- `none` unless the bytes are as many as the modulus has and spell a smaller number. -/
def ofBytes? (bytes : List UInt8) : Option F.Elem :=
  let value := ofBigEndian bytes
  if bytes.length ≠ F.byteLength ∨ F.modulus ≤ value then none else some (F.ofNumber value)

end ArithCircuit.PrimeField
