import ArithCircuit.Linear.Combination

/-!
# Evaluation of linear combinations

`evalWith` reads each wire through a function. `eval?` reads a list of values that may be too
short, and `evalPartial` one that may also have gaps.
-/

namespace ArithCircuit

variable {F : PrimeField}

/-- The value of a wire in a list of values, which is zero beyond the end. -/
def Wire.valueIn (values : Array F.Elem) (wire : Wire) : F.Elem := values.getD wire.index 0

namespace LinearCombination

def evalTerms (value : Wire → F.Elem) : List (Term F) → F.Elem
  | [] => 0
  | term :: rest => value term.wire * term.coefficient + evalTerms value rest

def evalWith (x : LinearCombination F) (value : Wire → F.Elem) : F.Elem :=
  x.constant + evalTerms value x.terms

/-- `none` if the combination mentions a wire that has no value. -/
def eval? (x : LinearCombination F) (values : Array F.Elem) : Option F.Elem :=
  if x.wires.all (·.index < values.size) then some (x.evalWith (Wire.valueIn values))
  else none

/-- What evaluation on values with gaps gives. -/
inductive PartialValue (F : PrimeField) where
  | known (value : F.Elem)
  | unknown
  | outOfRange (wire : Wire)

/-- The first term, in order, whose wire has no known value decides between a gap and a wire
beyond the values. -/
def evalPartialTerms (values : Array (Option F.Elem)) : List (Term F) → F.Elem → PartialValue F
  | [], sum => .known sum
  | term :: rest, sum =>
    match values[term.wire.index]? with
    | none => .outOfRange term.wire
    | some none => .unknown
    | some (some value) => evalPartialTerms values rest (sum + value * term.coefficient)

def evalPartial (x : LinearCombination F) (values : Array (Option F.Elem)) : PartialValue F :=
  evalPartialTerms values x.terms x.constant

end LinearCombination

end ArithCircuit
