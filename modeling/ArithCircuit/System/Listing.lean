import ArithCircuit.System.Basic

/-!
# The listing of a system

One line for each constraint, then one for each copy and one for each hint binding.
-/

namespace ArithCircuit

variable {F : PrimeField}

open PrimeField (decimal)

def Wire.label (wire : Wire) : String := s!"v{wire.index}"

def Term.listing (term : Term F) : String := decimal term.coefficient ++ "*" ++ term.wire.label

def LinearCombination.listing (x : LinearCombination F) : String :=
  decimal x.constant ++ String.join (x.terms.map fun term => " + " ++ term.listing)

def Triple.listing (triple : Triple F) : String :=
  "(" ++ triple.left.listing ++ ") * (" ++ triple.right.listing ++ ") = ("
    ++ triple.output.listing ++ ")"

def slotListing : Option Wire → String
  | some wire => wire.label
  | none => "-"

def Gate.listing (gate : Gate F) : String :=
  "qL=" ++ decimal gate.qL ++ " qR=" ++ decimal gate.qR ++ " qO=" ++ decimal gate.qO
    ++ " qM=" ++ decimal gate.qM ++ " qC=" ++ decimal gate.qC
    ++ " [" ++ slotListing gate.l ++ " " ++ slotListing gate.r ++ " " ++ slotListing gate.o ++ "]"

def Constraint.listing : Constraint F → String
  | .rank1 triple => triple.listing
  | .gate g => g.listing

/-- The line of the constraint at an index. -/
def Constraint.line (index : Nat) (c : Constraint F) : String := s!"{index}: " ++ c.listing

def SlotRef.listing (ref : SlotRef) : String := s!"{ref.gate}." ++ ref.slot.name

def Copy.line (copy : Copy) : String :=
  "copy " ++ copy.source.listing ++ " = " ++ copy.target.listing

def wiresListing (wires : List Wire) : String :=
  "[" ++ ", ".intercalate (wires.map fun wire => s!"Variable({wire.index})") ++ "]"

def HintBinding.line (binding : HintBinding) : String :=
  "hint " ++ binding.name ++ " " ++ wiresListing binding.inputs
    ++ " -> " ++ wiresListing binding.outputs

def Constraints.lines (constraints : Constraints F) : List String :=
  let own := constraints.toList.zipIdx.map fun (c, index) => c.line index
  match constraints with
  | .rank1 _ => own
  | .gate _ copies => own ++ copies.map Copy.line

namespace System

def lines (system : System F) : List String :=
  system.constraints.lines ++ system.hints.map HintBinding.line

/-- Every line, each ended by a line feed. -/
def listing (system : System F) : String :=
  String.join (system.lines.map (· ++ "\n"))

end System

end ArithCircuit
