import ArithCircuit.Hint.Builtin
import ArithCircuit.Proofs.Circuit.Meaning

/-!
# Evaluating a circuit

The evaluator runs the steps of a circuit on field elements, one after the other, and stops at the
first step that fails. It knows nothing of wires and constraints.
-/

namespace ArithCircuit

open scoped Fin.CommRing

variable {F : PrimeField}

/-! ## Stops and supplies -/

/-- Why an evaluation stops: a hint gives no values, or an assertion does not hold. -/
inductive Stop where
  | hint (error : HintError)
  | violated
deriving DecidableEq

/-- Input values, in the order in which a circuit declares its inputs. -/
structure Supply (F : PrimeField) where
  publicValues : List F.Elem
  secretValues : List F.Elem

/-- An evaluation takes the inputs that it declares off a supply. -/
abbrev Evaluation (F : PrimeField) (α : Type) := StateT (Supply F) (Except Stop) α

namespace Evaluation

/-- The next input; zero if there is none left. -/
def input (role : Role) : Evaluation F F.Elem := fun supply =>
  match role with
  | .publicInput => .ok (supply.publicValues.headD 0, { supply with publicValues := supply.publicValues.tail })
  | _ => .ok (supply.secretValues.headD 0, { supply with secretValues := supply.secretValues.tail })

def demand (p : Prop) [Decidable p] : Evaluation F Unit :=
  if p then pure () else throw .violated

theorem demand_of {p : Prop} [Decidable p] (h : p) : (demand p : Evaluation F Unit) = pure () := if_pos h

theorem demand_of_not {p : Prop} [Decidable p] (h : ¬ p) : (demand p : Evaluation F Unit) = throw .violated :=
  if_neg h

def quotient (a b : F.Elem) : Evaluation F F.Elem :=
  match PrimeField.inverse? b with
  | some y => pure (a * y)
  | none => throw (.hint (.failed Hint.divName [a.val, b.val] "division by zero"))

def inverse (x : F.Elem) : Evaluation F F.Elem :=
  match PrimeField.inverse? x with
  | some y => pure y
  | none => throw (.hint (.failed Hint.invertName [x.val] "inverse of zero"))

def choose (c a b : F.Elem) : Evaluation F F.Elem :=
  if c = 1 then pure a else if c = 0 then pure b else throw .violated

def digits (x : F.Elem) (width : Nat) : Evaluation F (List F.Elem) :=
  match PrimeField.decompose? x width with
  | some bits => pure (bits.map PrimeField.ofBit)
  | none => throw (.hint (.failed Hint.bitsName [x.val] s!"{x.val} does not fit in {width} bits"))

/-- What the registered hint gives. -/
def call (registry : HintRegistry) (name : String) (inputs : List F.Elem) (outputs : Nat) :
    Evaluation F (List F.Elem) :=
  match registry.invoke name F.modulus (inputs.map (·.val)) outputs with
  | .ok values => pure (values.map F.ofNat)
  | .error error => throw (.hint error)

def lookup2 (b0 b1 t0 t1 t2 t3 : F.Elem) : Evaluation F F.Elem := do
  let low ← choose b0 t1 t0
  let high ← choose b0 t3 t2
  choose b1 high low

/-- Public inputs that have to be spelled by the chunks. -/
def pack : List (List F.Elem) → Evaluation F (List F.Elem)
  | [] => return []
  | chunk :: rest => do
    let packed ← input .publicInput
    demand (PrimeField.ofDigits chunk = packed)
    return packed :: (← pack rest)

end Evaluation

open Evaluation in
/-- The results of an operation on the values of its operands. -/
def Operation.evaluate (registry : HintRegistry) (read : Operand F → F.Elem) :
    Operation F → Evaluation F (List F.Elem)
  | .publicInput _ => List.singleton <$> input .publicInput
  | .secretInput _ => List.singleton <$> input .secretInput
  | .constant value => return [value]
  | .add a b => return [read a + read b]
  | .sub a b => return [read a - read b]
  | .neg a => return [-read a]
  | .scale a factor => return [factor * read a]
  | .ofBits bits => return [PrimeField.ofDigits (bits.map read)]
  | .toWire a => return [read a]
  | .mul a b => return [read a * read b]
  | .div a b => List.singleton <$> quotient (read a) (read b)
  | .inverse a => List.singleton <$> Evaluation.inverse (read a)
  | .select c a b => List.singleton <$> choose (read c) (read a) (read b)
  | .assertProduct a b c => do
    demand (read a * read b = read c)
    return []
  | .assertEqual a b => do
    demand (read a = read b)
    return []
  | .assertBoolean a => do
    demand (PrimeField.IsDigit (read a))
    return []
  | .toBits a width => digits (read a) width
  | .hint name inputs outputs => call registry name (inputs.map read) outputs
  | .not a => return [1 - read a]
  | .and a b => return [read a * read b]
  | .or a b => return [read a + read b - read a * read b]
  | .xor a b => return [read a + read b - (1 + 1) * (read a * read b)]
  | .isZero a => return [PrimeField.zeroFlag (read a)]
  | .isEqual a b => return [PrimeField.zeroFlag (read a - read b)]
  | .assertNonZero a => do
    discard (Evaluation.inverse (read a))
    return []
  | .lookup2 b0 b1 t0 t1 t2 t3 =>
    List.singleton <$> Evaluation.lookup2 (read b0) (read b1) (read t0) (read t1) (read t2) (read t3)
  | .packIntoInputs _ bits => pack (chunks F.capacity (bits.map read))
  | .packBits bits => return [PrimeField.ofDigits ((bits.map read).take F.capacity)]

/-! ## Registers of values -/

/-- The values held by registers, the latest first. -/
abbrev ValueRegisters (F : PrimeField) := List (String × F.Elem)

namespace ValueRegisters

def get (values : ValueRegisters F) (name : String) : F.Elem := (List.lookup name values).getD 0

def read (values : ValueRegisters F) : Operand F → F.Elem
  | .register name => values.get name
  | .literal x => x.constant

def storeFrom (name : String) : Nat → List F.Elem → ValueRegisters F → ValueRegisters F
  | _, [], values => values
  | i, x :: xs, values => storeFrom name (i + 1) xs ((s!"{name}.{i}", x) :: values)

/-- Stores the results of a step. -/
def store (values : ValueRegisters F) (step : Step F) (results : List F.Elem) : ValueRegisters F :=
  match step.out with
  | none => values
  | some name =>
    if step.operation.givesMany then storeFrom name 0 results values
    else match results with
      | [x] => (name, x) :: values
      | _ => values

end ValueRegisters

/-! ## Circuits -/

/-- Evaluates the steps that take part in the definition of the given number. -/
def evaluateSteps (registry : HintRegistry) (number : Nat) :
    List (Step F) → ValueRegisters F → Evaluation F (List (List F.Elem))
  | [], _ => return []
  | step :: rest, values =>
    if step.onlyIn.any (· ≠ number) then evaluateSteps registry number rest values
    else do
      let results ← step.operation.evaluate registry values.read
      return results :: (← evaluateSteps registry number rest (values.store step results))

/-- The results of the steps for the given inputs, or why the evaluation stops. -/
def Circuit.evaluate (circuit : Circuit F) (registry : HintRegistry) (number : Nat) (supply : Supply F) :
    Except Stop (List (List F.Elem)) :=
  Prod.fst <$> (evaluateSteps registry number circuit.steps []).run supply

end ArithCircuit
