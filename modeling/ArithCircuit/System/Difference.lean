import ArithCircuit.System.Listing

/-!
# The difference of two systems

Two systems are compared part by part, and the first part in which they differ is named.
-/

namespace ArithCircuit

inductive Difference where
  | equal
  | different
  | backends (left right : Backend)
  | wireCounts (left right : Nat)
  | constraintCounts (left right : Nat)
  | role (index : Nat)
  | inputs
  | constraint (index : Nat) (left right : String)
  | hint (index : Nat)
deriving DecidableEq

def Difference.message : Difference → String
  | .equal => "equal"
  | .different => "different"
  | .backends left right => "backend " ++ left.description ++ " != " ++ right.description
  | .wireCounts left right => s!"{left} variables != {right}"
  | .constraintCounts left right => s!"{left} constraints != {right}"
  | .role index => s!"role of variable {index} differs"
  | .inputs => "input declarations differ"
  | .constraint index left right =>
    s!"constraint {index} differs: `" ++ left ++ "` != `" ++ right ++ "`"
  | .hint index => s!"hint binding {index} differs"

/-- The first index at which two lists both have an entry and the entries differ. -/
def firstDifference? {α : Type} [DecidableEq α] : List α → List α → Option Nat
  | x :: xs, y :: ys => if x = y then (firstDifference? xs ys).map (· + 1) else some 0
  | _, _ => none

namespace System

variable {F : PrimeField}

/-- The line of the listing at an index. -/
def lineAt (system : System F) (index : Nat) : String := system.lines.getD index ""

/-- The counts of wires and constraints are left out of the comparison on request; the constraints
of the shorter system are then compared with as many of the other. -/
def difference (a b : System F) (ignoreCounts : Bool) : Difference :=
  if a.backend ≠ b.backend then .backends a.backend b.backend
  else if !ignoreCounts && a.wireCount != b.wireCount then .wireCounts a.wireCount b.wireCount
  else if !ignoreCounts && a.constraintCount != b.constraintCount then
    .constraintCounts a.constraintCount b.constraintCount
  else match firstDifference? a.roles b.roles with
  | some i => .role i
  | none =>
    if a.publicInputs ≠ b.publicInputs ∨ a.secretInputs ≠ b.secretInputs then .inputs
    else match firstDifference? a.constraints.toList b.constraints.toList with
    | some i => .constraint i (a.lineAt i) (b.lineAt i)
    | none =>
      match firstDifference? a.hints b.hints with
      | some i => .hint i
      | none => if a = b then .equal else .different

end System

end ArithCircuit
