import ArithCircuit.ByteForm.Error
import ArithCircuit.Digest.Blake2s
import ArithCircuit.Field.Bytes
import ArithCircuit.System.Basic
import ArithCircuit.Text.Hex

/-!
# The byte form of a system

Numbers are big-endian; a list is its length in eight bytes and then its items; a text is its length
in four bytes and then its UTF-8 bytes; a field element has the width of the modulus.
-/

namespace ArithCircuit

variable {F : PrimeField}

namespace ByteForm

def magic : List UInt8 := [0x42, 0x57, 0x43, 0x53]

def version : Nat := 1

def roleTag : Role → UInt8
  | .publicInput => 0
  | .secretInput => 1
  | .internal => 2

def slotTag : Slot → UInt8
  | .left => 0
  | .right => 1
  | .output => 2

def backendTag : Backend → UInt8
  | .rank1 => 0
  | .gate => 1

def writeCount (n : Nat) : List UInt8 := bigEndian 8 n

def writeBytes (bytes : List UInt8) : List UInt8 := bigEndian 4 bytes.length ++ bytes

def writeText (s : String) : List UInt8 := writeBytes s.toUTF8.toList

def writeList {α : Type} (item : α → List UInt8) (items : List α) : List UInt8 :=
  writeCount items.length ++ items.flatMap item

def writeWire (wire : Wire) : List UInt8 := writeCount wire.index

def writeSlotWire : Option Wire → List UInt8
  | some wire => 1 :: writeWire wire
  | none => [0]

def writeTerm (term : Term F) : List UInt8 :=
  writeWire term.wire ++ PrimeField.toBytes term.coefficient

def writeCombination (x : LinearCombination F) : List UInt8 :=
  PrimeField.toBytes x.constant ++ writeList writeTerm x.terms

def writeTriple (triple : Triple F) : List UInt8 :=
  writeCombination triple.left ++ writeCombination triple.right ++ writeCombination triple.output

def writeGate (gate : Gate F) : List UInt8 :=
  [gate.qL, gate.qR, gate.qO, gate.qM, gate.qC].flatMap PrimeField.toBytes
    ++ [gate.l, gate.r, gate.o].flatMap writeSlotWire

def writeSlotRef (ref : SlotRef) : List UInt8 := writeCount ref.gate ++ [slotTag ref.slot]

def writeCopy (copy : Copy) : List UInt8 := writeSlotRef copy.source ++ writeSlotRef copy.target

def writeInput (input : Input) : List UInt8 := writeWire input.wire ++ writeText input.name

def writeConstraints : Constraints F → List UInt8
  | .rank1 triples => writeList writeTriple triples
  | .gate gates copies => writeList writeGate gates ++ writeList writeCopy copies

def writeBinding (binding : HintBinding) : List UInt8 :=
  writeText binding.name ++ writeCount binding.position
    ++ writeList writeWire binding.inputs ++ writeList writeWire binding.outputs

def modulusBytes (F : PrimeField) : List UInt8 := bigEndian F.byteLength F.modulus

end ByteForm

namespace System

open ByteForm

def toBytes (system : System F) : List UInt8 :=
  magic ++ bigEndian 2 version ++ writeBytes (modulusBytes F) ++ [backendTag system.backend]
    ++ writeList (fun role => [roleTag role]) system.roles
    ++ writeList writeInput system.publicInputs ++ writeList writeInput system.secretInputs
    ++ writeConstraints system.constraints ++ writeList writeBinding system.hints

/-- The byte form at the start of a buffer of the given size, the rest of it zero. -/
def toBuffer (system : System F) (size : Nat) : Except FormatError (List UInt8) :=
  let bytes := system.toBytes
  if bytes.length ≤ size then .ok (bytes ++ List.replicate (size - bytes.length) 0)
  else .error .shortBuffer

/-- The BLAKE2s digest of the byte form in hexadecimal. -/
def digest (system : System F) : String :=
  Text.hexBytes (Blake2s.digest system.toBytes)

end System

end ArithCircuit
