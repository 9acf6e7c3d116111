import ArithCircuit.Constraint.Gate
import ArithCircuit.Field.Number
import ArithCircuit.Linear.Evaluation

/-!
# Constraints

A constraint is a rank-1 triple or a gate. `Constraint.Holds` says when it is satisfied by a value
for each wire, and `Constraint.violation?` reports the values of one that is not.
-/

namespace ArithCircuit

/-- `left · right = output`. -/
structure Triple (F : PrimeField) where
  left : LinearCombination F
  right : LinearCombination F
  output : LinearCombination F
deriving DecidableEq

inductive Constraint (F : PrimeField) where
  | rank1 (triple : Triple F)
  | gate (gate : Gate F)
deriving DecidableEq

/-- The values that a constraint does not allow. -/
inductive Violation (F : PrimeField) where
  | product (left right output : F.Elem)
  | gate (residual l r o : F.Elem)
deriving DecidableEq

variable {F : PrimeField}

open PrimeField (decimal)

def Violation.message : Violation F → String
  | .product left right output => decimal left ++ " * " ++ decimal right ++ " != " ++ decimal output
  | .gate residual l r o =>
    "gate evaluates to " ++ decimal residual ++ " with l = " ++ decimal l ++ ", r = " ++ decimal r
      ++ ", o = " ++ decimal o

def Triple.wires (triple : Triple F) : List Wire :=
  triple.left.wires ++ triple.right.wires ++ triple.output.wires

namespace Constraint

/-- The wires a constraint mentions, in the order of its parts, as often as they occur. -/
def wires : Constraint F → List Wire
  | .rank1 triple => triple.wires
  | .gate g => g.wires

def Holds (value : Wire → F.Elem) : Constraint F → Prop
  | .rank1 triple =>
    triple.left.evalWith value * triple.right.evalWith value = triple.output.evalWith value
  | .gate g => g.residual (Gate.read value g.l) (Gate.read value g.r) (Gate.read value g.o) = 0

instance (value : Wire → F.Elem) (c : Constraint F) : Decidable (c.Holds value) := by
  cases c <;> unfold Holds <;> infer_instance

/-- The values under which a constraint fails. -/
def violation? (value : Wire → F.Elem) : Constraint F → Option (Violation F)
  | .rank1 triple =>
    let left := triple.left.evalWith value
    let right := triple.right.evalWith value
    let output := triple.output.evalWith value
    if left * right = output then none else some (.product left right output)
  | .gate g =>
    let l := Gate.read value g.l
    let r := Gate.read value g.r
    let o := Gate.read value g.o
    let residual := g.residual l r o
    if residual = 0 then none else some (.gate residual l r o)

end Constraint

/-- The two forms a circuit compiles into. -/
inductive Backend where
  | rank1
  | gate
deriving DecidableEq

def Backend.name : Backend → String
  | .rank1 => "Rank1"
  | .gate => "Gate"

def Backend.description : Backend → String
  | .rank1 => "rank-1"
  | .gate => "gate"

/-- The constraints of a system, all of one form; gates come with their copy table. -/
inductive Constraints (F : PrimeField) where
  | rank1 (triples : List (Triple F))
  | gate (gates : List (Gate F)) (copies : List Copy)
deriving DecidableEq

namespace Constraints

def backend : Constraints F → Backend
  | .rank1 _ => .rank1
  | .gate _ _ => .gate

def size : Constraints F → Nat
  | .rank1 triples => triples.length
  | .gate gates _ => gates.length

def toList : Constraints F → List (Constraint F)
  | .rank1 triples => triples.map .rank1
  | .gate gates _ => gates.map .gate

end Constraints

end ArithCircuit
