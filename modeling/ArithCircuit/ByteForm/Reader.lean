import ArithCircuit.ByteForm.Writer

/-!
# Reading the byte form

A reader takes what it needs from the front of the input. Each value is checked as soon as it is
read, so the first fault in the bytes is the one reported.
-/

namespace ArithCircuit

variable {F : PrimeField}

namespace ByteForm

abbrev Reader (α : Type) := StateT (List UInt8) (Except FormatError) α

/-- The next `n` bytes. -/
def take (n : Nat) : Reader (List UInt8) := fun input =>
  let taken := input.take n
  if taken.length = n then .ok (taken, input.drop n) else .error .shortInput

def readNat (width : Nat) : Reader Nat := ofBigEndian <$> take width

def readCount : Reader Nat := readNat 8

def readBytes : Reader (List UInt8) := do take (← readNat 4)

/-- The given number of items, one after the other. -/
def readMany {α : Type} (item : Reader α) : Nat → Reader (List α)
  | 0 => return []
  | n + 1 => return (← item) :: (← readMany item n)

def readList {α : Type} (item : Reader α) : Reader (List α) := do readMany item (← readCount)

def readText (kind : TextKind) : Reader String := do
  match String.fromUTF8? ⟨(← readBytes).toArray⟩ with
  | some s => return s
  | none => throw (.invalidText kind)

/-- A tag of one byte that stands for one of the values. -/
def readTag {α : Type} (kind : TagKind) (ofTag : Nat → Option α) : Reader α := do
  let tag ← readNat 1
  match ofTag tag with
  | some a => return a
  | none => throw (.invalidTag kind tag)

def roleOfTag : Nat → Option Role
  | 0 => some .publicInput
  | 1 => some .secretInput
  | 2 => some .internal
  | _ => none

def slotOfTag : Nat → Option Slot
  | 0 => some .left
  | 1 => some .right
  | 2 => some .output
  | _ => none

def backendOfTag : Nat → Option Backend
  | 0 => some .rank1
  | 1 => some .gate
  | _ => none

def presenceOfTag : Nat → Option Bool
  | 0 => some false
  | 1 => some true
  | _ => none

/-- A wire below the given count. -/
def readWire (count : Nat) : Reader Wire := do
  let index ← readCount
  if index < count then return ⟨index⟩ else throw (.wireOutOfRange index count)

def readSlotWire (count : Nat) : Reader (Option Wire) := do
  if ← readTag .slot presenceOfTag then return some (← readWire count) else return none

variable (F) in
def readElement : Reader F.Elem := do
  match F.ofBytes? (← take F.byteLength) with
  | some x => return x
  | none => throw .invalidElement

def readTerm (count : Nat) : Reader (Term F) := do
  return { wire := ← readWire count, coefficient := ← readElement F }

/-- The terms may come in any order, repeat wires and have zero coefficients. -/
def readCombination (count : Nat) : Reader (LinearCombination F) := do
  let constant ← readElement F
  return LinearCombination.ofTerms (← readList (readTerm count)) constant

def readTriple (count : Nat) : Reader (Triple F) := do
  return {
    left := ← readCombination count
    right := ← readCombination count
    output := ← readCombination count }

def readGate (count : Nat) : Reader (Gate F) := do
  return {
    qL := ← readElement F
    qR := ← readElement F
    qO := ← readElement F
    qM := ← readElement F
    qC := ← readElement F
    l := ← readSlotWire count
    r := ← readSlotWire count
    o := ← readSlotWire count }

def readInput (count : Nat) : Reader Input := do
  return { wire := ← readWire count, name := ← readText .inputName }

/-- An index below `limit` into a list of `count` constraints. -/
def readIndex (referrer : Referrer) (count limit : Nat) : Reader Nat := do
  let index ← readCount
  if index < limit then return index else throw (.constraintOutOfRange referrer index count)

def readSlotRef (gates : Nat) : Reader SlotRef := do
  return { gate := ← readIndex .copy gates gates, slot := ← readTag .slot slotOfTag }

def readCopy (gates : Nat) : Reader Copy := do
  return { source := ← readSlotRef gates, target := ← readSlotRef gates }

def readConstraints (backend : Backend) (count : Nat) : Reader (Constraints F) := do
  match backend with
  | .rank1 => return .rank1 (← readList (readTriple count))
  | .gate =>
    let gates ← readList (readGate count)
    return .gate gates (← readList (readCopy gates.length))

/-- A binding may stand after every constraint, so its position may equal their number. -/
def readBinding (count constraints : Nat) : Reader HintBinding := do
  let name ← readText .hintName
  let position ← readIndex .hintBinding constraints (constraints + 1)
  let inputs ← readList (readWire count)
  let outputs ← readList (readWire count)
  return { name, inputs, outputs, position }

/-- Magic, version and modulus. -/
def readHeader (F : PrimeField) : Reader Unit := do
  if (← take magic.length) ≠ magic then throw .badMagic
  let found ← readNat 2
  if found ≠ version then throw (.unsupportedVersion found)
  if (← readBytes) ≠ modulusBytes F then throw .fieldMismatch

def readSystem (F : PrimeField) : Reader (System F) := do
  readHeader F
  let backend ← readTag .backend backendOfTag
  let roles ← readList (readTag .role roleOfTag)
  let publicInputs ← readList (readInput roles.length)
  let secretInputs ← readList (readInput roles.length)
  let constraints ← readConstraints backend roles.length
  let hints ← readList (readBinding roles.length constraints.size)
  return { roles, publicInputs, secretInputs, constraints, hints }

end ByteForm

/-- The system that the bytes spell from the first to the last. -/
def System.ofBytes (F : PrimeField) (bytes : List UInt8) : Except FormatError (System F) :=
  match ByteForm.readSystem F bytes with
  | .error e => .error e
  | .ok (system, []) => .ok system
  | .ok (_, _ :: _) => .error .trailingBytes

end ArithCircuit
