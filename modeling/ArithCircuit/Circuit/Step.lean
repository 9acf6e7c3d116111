import ArithCircuit.Linear.Combination

/-!
# Circuits as data

A circuit is a list of steps over named registers. A step reads expressions from registers, or has
them written out, and stores its results in registers.
-/

namespace ArithCircuit

inductive Operand (F : PrimeField) where
  | register (name : String)
  | literal (x : LinearCombination F)
deriving DecidableEq

/-- What a step does. -/
inductive Operation (F : PrimeField) where
  | publicInput (name : String)
  | secretInput (name : String)
  | constant (value : F.Elem)
  | add (a b : Operand F)
  | sub (a b : Operand F)
  | neg (a : Operand F)
  | scale (a : Operand F) (factor : F.Elem)
  | ofBits (bits : List (Operand F))
  | toWire (a : Operand F)
  | mul (a b : Operand F)
  | div (a b : Operand F)
  | inverse (a : Operand F)
  | select (c a b : Operand F)
  | assertProduct (a b c : Operand F)
  | assertEqual (a b : Operand F)
  | assertBoolean (a : Operand F)
  | toBits (a : Operand F) (width : Nat)
  | hint (name : String) (inputs : List (Operand F)) (outputs : Nat)
  | not (a : Operand F)
  | and (a b : Operand F)
  | or (a b : Operand F)
  | xor (a b : Operand F)
  | isZero (a : Operand F)
  | isEqual (a b : Operand F)
  | assertNonZero (a : Operand F)
  | lookup2 (b0 b1 t0 t1 t2 t3 : Operand F)
  | packIntoInputs (name : String) (bits : List (Operand F))
  | packBits (bits : List (Operand F))
deriving DecidableEq

/-- The operations that give a number of results of their own choosing. -/
def Operation.givesMany {F : PrimeField} : Operation F → Bool
  | .toBits .. | .hint .. | .packIntoInputs .. => true
  | _ => false

structure Step (F : PrimeField) where
  operation : Operation F
  /-- The register for the result; many results go to numbered registers of that name. -/
  out : Option String := none
  /-- A step may take part in one definition of the circuit alone, counted from zero. -/
  onlyIn : Option Nat := none
deriving DecidableEq

structure Circuit (F : PrimeField) where
  steps : List (Step F)
  /-- Whether a failed step is passed over instead of ending the definition. -/
  keepsGoing : Bool := false
deriving DecidableEq

/-! ## Registers -/

/-- The expressions held by registers, the latest first. -/
abbrev Registers (F : PrimeField) := List (String × LinearCombination F)

namespace Registers

variable {F : PrimeField}

/-- A register that was never written holds zero. -/
def get (registers : Registers F) (name : String) : LinearCombination F :=
  (List.lookup name registers).getD .zero

def read (registers : Registers F) : Operand F → LinearCombination F
  | .register name => registers.get name
  | .literal x => x

def storeFrom (name : String) : Nat → List (LinearCombination F) → Registers F → Registers F
  | _, [], registers => registers
  | i, x :: xs, registers => storeFrom name (i + 1) xs ((s!"{name}.{i}", x) :: registers)

/-- Stores the results of a step. -/
def store (registers : Registers F) (step : Step F) (results : List (LinearCombination F)) :
    Registers F :=
  match step.out with
  | none => registers
  | some name =>
    if step.operation.givesMany then storeFrom name 0 results registers
    else match results with
      | [x] => (name, x) :: registers
      | _ => registers

end Registers

end ArithCircuit
