import ArithCircuit.Circuit.Step
import ArithCircuit.Synthesis.Gadgets

/-!
# Defining a circuit

The steps of a circuit are run in order on a draft. The transcript records what each step gave.
-/

namespace ArithCircuit

variable {F : PrimeField} {κ : Type}

/-- The results of an operation, and the draft it leaves. -/
def Operation.synthesize [ConstraintForm F κ] (registers : Registers F) :
    Operation F → Synthesis F κ (List (LinearCombination F))
  | .publicInput name => List.singleton <$> Synthesis.publicInput name
  | .secretInput name => List.singleton <$> Synthesis.secretInput name
  | .constant value => return [.ofConstant value]
  | .add a b => return [registers.read a + registers.read b]
  | .sub a b => return [registers.read a - registers.read b]
  | .neg a => return [-registers.read a]
  | .scale a factor => return [(registers.read a).scale factor]
  | .ofBits bits => return [.ofBits (bits.map registers.read)]
  | .toWire a => return [.ofWire (← Synthesis.toWire (registers.read a))]
  | .mul a b => List.singleton <$> Synthesis.mul (registers.read a) (registers.read b)
  | .div a b => List.singleton <$> Synthesis.div (registers.read a) (registers.read b)
  | .inverse a => List.singleton <$> Synthesis.inverse (registers.read a)
  | .select c a b =>
    List.singleton <$> Synthesis.select (registers.read c) (registers.read a) (registers.read b)
  | .assertProduct a b c => do
    Synthesis.assertProduct (registers.read a) (registers.read b) (registers.read c)
    return []
  | .assertEqual a b => do
    Synthesis.assertEqual (registers.read a) (registers.read b)
    return []
  | .assertBoolean a => do
    Synthesis.assertBoolean (registers.read a)
    return []
  | .toBits a width => Synthesis.toBits (registers.read a) width
  | .hint name inputs outputs => Synthesis.hint name (inputs.map registers.read) outputs
  | .not a => return [Synthesis.not (registers.read a)]
  | .and a b => List.singleton <$> Synthesis.and (registers.read a) (registers.read b)
  | .or a b => List.singleton <$> Synthesis.or (registers.read a) (registers.read b)
  | .xor a b => List.singleton <$> Synthesis.xor (registers.read a) (registers.read b)
  | .isZero a => List.singleton <$> Synthesis.isZero (registers.read a)
  | .isEqual a b => List.singleton <$> Synthesis.isEqual (registers.read a) (registers.read b)
  | .assertNonZero a => do
    Synthesis.assertNonZero (registers.read a)
    return []
  | .lookup2 b0 b1 t0 t1 t2 t3 =>
    List.singleton <$> Synthesis.lookup2 (registers.read b0) (registers.read b1)
      (registers.read t0) (registers.read t1) (registers.read t2) (registers.read t3)
  | .packIntoInputs name bits => Synthesis.packIntoInputs name (bits.map registers.read)
  | .packBits bits => List.singleton <$> Synthesis.packBits (bits.map registers.read)

/-- What a step gave, and the number of constraints after it. -/
structure StepRecord (F : PrimeField) where
  constraints : Nat
  outcome : Except SynthesisError (List (LinearCombination F))

/-- The draft that the steps leave, their records, and the error that ended them. -/
structure Definition (F : PrimeField) (κ : Type) where
  draft : Draft F κ
  transcript : List (StepRecord F)
  error? : Option SynthesisError

def Definition.prepend (record : StepRecord F) (rest : Definition F κ) : Definition F κ :=
  { rest with transcript := record :: rest.transcript }

namespace Circuit

/-- Runs the steps that take part in the definition of the given number. -/
def runSteps [ConstraintForm F κ] (keepsGoing : Bool) (number : Nat) :
    List (Step F) → Registers F → Draft F κ → Definition F κ
  | [], _, draft => ⟨draft, [], none⟩
  | step :: rest, registers, draft =>
    if step.onlyIn.any (· ≠ number) then runSteps keepsGoing number rest registers draft
    else match (step.operation.synthesize registers).run draft with
      | .ok results draft =>
        (runSteps keepsGoing number rest (registers.store step results) draft).prepend
          ⟨draft.constraints.size, .ok results⟩
      | .error error draft =>
        let record := ⟨draft.constraints.size, .error error⟩
        if keepsGoing then (runSteps keepsGoing number rest registers draft).prepend record
        else ⟨draft, [record], some error⟩

/-- The definition of the given number of a circuit in constraints of type `κ`. -/
def define (κ : Type) [ConstraintForm F κ] (circuit : Circuit F) (sharesConstants : Bool)
    (number : Nat) : Definition F κ :=
  runSteps circuit.keepsGoing number circuit.steps [] { sharesConstants }

end Circuit

end ArithCircuit
