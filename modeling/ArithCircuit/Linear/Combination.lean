import ArithCircuit.Field.Basic
import ArithCircuit.Linear.Wire

/-!
# Linear combinations

A combination is a constant plus terms `coefficient · wire`. The operations keep the terms in
strictly increasing order of their wires and drop a term as soon as its coefficient is zero, so
that two combinations of the same affine function are equal.
-/

namespace ArithCircuit

variable {F : PrimeField}

structure Term (F : PrimeField) where
  wire : Wire
  coefficient : F.Elem
deriving DecidableEq

structure LinearCombination (F : PrimeField) where
  terms : List (Term F) := []
  constant : F.Elem := 0
deriving DecidableEq

/-- Adds a term to a sorted list of terms. -/
def insertTerm (wire : Wire) (coefficient : F.Elem) : List (Term F) → List (Term F)
  | [] => if coefficient = 0 then [] else [⟨wire, coefficient⟩]
  | term :: rest =>
    if wire.index < term.wire.index then
      if coefficient = 0 then term :: rest else ⟨wire, coefficient⟩ :: term :: rest
    else if wire = term.wire then
      let merged := term.coefficient + coefficient
      if merged = 0 then rest else ⟨wire, merged⟩ :: rest
    else term :: insertTerm wire coefficient rest

namespace LinearCombination

def zero : LinearCombination F := {}

def ofConstant (value : F.Elem) : LinearCombination F := { constant := value }

def ofWire (wire : Wire) : LinearCombination F := { terms := [⟨wire, 1⟩] }

instance : Inhabited (LinearCombination F) := ⟨zero⟩

/-! ## Arithmetic -/

def addTerm (x : LinearCombination F) (coefficient : F.Elem) (wire : Wire) : LinearCombination F :=
  { x with terms := insertTerm wire coefficient x.terms }

def subTerm (x : LinearCombination F) (coefficient : F.Elem) (wire : Wire) : LinearCombination F :=
  x.addTerm (-coefficient) wire

def addWire (x : LinearCombination F) (wire : Wire) : LinearCombination F := x.addTerm 1 wire

def subWire (x : LinearCombination F) (wire : Wire) : LinearCombination F := x.subTerm 1 wire

def addConstant (x : LinearCombination F) (value : F.Elem) : LinearCombination F :=
  { x with constant := x.constant + value }

/-- `x + factor · y`, one term of `y` after the other. -/
def addScaled (x : LinearCombination F) (factor : F.Elem) (y : LinearCombination F) :
    LinearCombination F :=
  (y.terms.foldl (fun sum term => sum.addTerm (term.coefficient * factor) term.wire) x).addConstant
    (y.constant * factor)

def subScaled (x : LinearCombination F) (factor : F.Elem) (y : LinearCombination F) :
    LinearCombination F :=
  x.addScaled (-factor) y

instance : Add (LinearCombination F) := ⟨fun x y => x.addScaled 1 y⟩

instance : Sub (LinearCombination F) := ⟨fun x y => x.subScaled 1 y⟩

/-- Scaling by zero leaves no term behind. -/
def scale (x : LinearCombination F) (factor : F.Elem) : LinearCombination F :=
  if factor = 0 then zero
  else
    { terms := x.terms.map fun term => { term with coefficient := term.coefficient * factor }
      constant := x.constant * factor }

instance : Neg (LinearCombination F) := ⟨fun x => x.scale (-1)⟩

/-- The sum of arbitrary terms, in any order and with repetitions, and a constant. -/
def ofTerms (terms : List (Term F)) (constant : F.Elem) : LinearCombination F :=
  terms.foldl (fun sum term => sum.addTerm term.coefficient term.wire) (ofConstant constant)

/-- The value spelled by bits, least significant first. -/
def ofBits (bits : List (LinearCombination F)) : LinearCombination F :=
  (bits.foldl (fun (sum, weight) bit => (sum.addScaled weight bit, weight + weight)) (zero, 1)).1

/-! ## Shape -/

def wires (x : LinearCombination F) : List Wire := x.terms.map Term.wire

/-- The value of a combination without terms. -/
def asConstant? (x : LinearCombination F) : Option F.Elem :=
  match x.terms with
  | [] => some x.constant
  | _ => none

/-- The term of a combination that has exactly one. -/
def asTerm? (x : LinearCombination F) : Option (Term F) :=
  match x.terms with
  | [term] => some term
  | _ => none

/-- The wire of a combination that is nothing but a wire. -/
def asWire? (x : LinearCombination F) : Option Wire :=
  match x.terms with
  | [term] => if term.coefficient = 1 ∧ x.constant = 0 then some term.wire else none
  | _ => none

end LinearCombination

end ArithCircuit
