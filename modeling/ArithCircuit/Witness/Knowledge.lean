import ArithCircuit.Linear.Wire
import ArithCircuit.Field.Basic

/-!
# What is known about the wires
-/

namespace ArithCircuit

/-- The values found so far, by wire. -/
structure Knowledge (F : PrimeField) where
  values : Array (Option F.Elem) := #[]

namespace Knowledge

variable {F : PrimeField}

/-- Nothing is known about any of the wires. -/
def blank (wires : Nat) : Knowledge F := ⟨Array.replicate wires none⟩

def get? (known : Knowledge F) (wire : Wire) : Option F.Elem := known.values.getD wire.index none

/-- The value of a wire, or zero while it is unknown. -/
def valueOrZero (known : Knowledge F) (wire : Wire) : F.Elem := (known.get? wire).getD 0

def learn (known : Knowledge F) (wire : Wire) (value : F.Elem) : Knowledge F :=
  ⟨known.values.setIfInBounds wire.index (some value)⟩

/-- Learns the values of wires one after the other, as far as both lists go. -/
def learnAll (known : Knowledge F) (wires : List Wire) (values : List F.Elem) : Knowledge F :=
  (wires.zip values).foldl (fun known (wire, value) => known.learn wire value) known

/-- The values of all the wires, if every one is known. -/
def getAll? (known : Knowledge F) (wires : List Wire) : Option (List F.Elem) :=
  wires.mapM known.get?

end Knowledge

end ArithCircuit
