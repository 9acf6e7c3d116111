import ArithCircuit.Linear.Wire
import ArithCircuit.Field.Basic

/-!
# Gates and their copy table

A gate relates the wires of three slots. A wire may fill many slots; the copy table says which
slots hold the same wire by linking each of its occurrences to the next one.
-/

namespace ArithCircuit

/-- `qL·l + qR·r + qO·o + qM·l·r + qC = 0`, an empty slot reading as zero. -/
structure Gate (F : PrimeField) where
  qL : F.Elem := 0
  qR : F.Elem := 0
  qO : F.Elem := 0
  qM : F.Elem := 0
  qC : F.Elem := 0
  l : Option Wire := none
  r : Option Wire := none
  o : Option Wire := none
deriving DecidableEq

inductive Slot where
  | left
  | right
  | output
deriving DecidableEq

namespace Slot

def all : List Slot := [.left, .right, .output]

def name : Slot → String
  | .left => "Left"
  | .right => "Right"
  | .output => "Output"

end Slot

/-- A slot of the gate at an index of the gate list. -/
structure SlotRef where
  gate : Nat
  slot : Slot
deriving DecidableEq

/-- Two slots that hold the same value. -/
structure Copy where
  source : SlotRef
  target : SlotRef
deriving DecidableEq

variable {F : PrimeField}

namespace Gate

def wire? (gate : Gate F) : Slot → Option Wire
  | .left => gate.l
  | .right => gate.r
  | .output => gate.o

/-- The wires of the filled slots, in slot order. -/
def wires (gate : Gate F) : List Wire := Slot.all.filterMap gate.wire?

/-- The value of a slot: that of its wire, or zero. -/
def read (value : Wire → F.Elem) : Option Wire → F.Elem
  | some wire => value wire
  | none => 0

/-- What a gate requires to be zero. -/
def residual (gate : Gate F) (l r o : F.Elem) : F.Elem :=
  gate.qL * l + gate.qR * r + gate.qO * o + gate.qM * l * r + gate.qC

end Gate

/-- The filled slots with their wires, gate by gate and in slot order. -/
def occurrences (gates : List (Gate F)) : List (Wire × SlotRef) :=
  gates.zipIdx.flatMap fun (gate, index) =>
    Slot.all.filterMap fun slot => (gate.wire? slot).map fun wire => (wire, ⟨index, slot⟩)

/-- Links neighbours that hold the same wire. -/
def linkNeighbours : List (Wire × SlotRef) → List Copy
  | first :: second :: rest =>
    if first.1 = second.1 then ⟨first.2, second.2⟩ :: linkNeighbours (second :: rest)
    else linkNeighbours (second :: rest)
  | _ => []

/-- The copy table of a gate list, by wire and then by position. The sort is stable, so the
occurrences of a wire keep their order. -/
def copyTable (gates : List (Gate F)) : List Copy :=
  linkNeighbours ((occurrences gates).mergeSort fun a b => a.1.index ≤ b.1.index)

end ArithCircuit
