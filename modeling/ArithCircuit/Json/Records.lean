import ArithCircuit.Circuit.Options
import ArithCircuit.Hint.Registry
import ArithCircuit.Json.Reader
import ArithCircuit.System.Basic
import ArithCircuit.Witness.Solver

/-!
# Records as JSON

The JSON form of the small types: wires, roles, slots, hint bindings, sizes and options. What
`toJson` writes, `ofJson?` reads back.
-/

namespace ArithCircuit

/-- Types with a JSON form. -/
class JsonForm (α : Type) where
  toJson : α → Json
  ofJson? : Json → Option α

/-- The form of a type whose values are known by their names. -/
@[reducible] def JsonForm.ofNames {α : Type} (all : List α) (name : α → String) : JsonForm α where
  toJson a := .ofString (name a)
  ofJson? json := do
    let found ← json.bareCase?
    all.find? (name · = found)

/-- A part of a record, or what stands for it when it is left out. -/
def JsonForm.partOr? {α : Type} [JsonForm α] (whenAbsent : α) : Option Json → Option α
  | some json => ofJson? json
  | none => some whenAbsent

open JsonForm (toJson ofJson? partOr?)

instance : JsonForm Bool := ⟨.bool, Json.bool?⟩

/-- Numbers have at most 64 bits. -/
instance : JsonForm Nat := ⟨.ofNat, Json.nat? 64⟩

instance : JsonForm String := ⟨.ofString, Json.string?⟩

instance {α : Type} [JsonForm α] : JsonForm (List α) :=
  ⟨fun items => .array (items.map toJson), Json.list? ofJson?⟩

instance : JsonForm Role := .ofNames [.publicInput, .secretInput, .internal] Role.name

instance : JsonForm Slot := .ofNames Slot.all Slot.name

instance : JsonForm Backend := .ofNames [.rank1, .gate] Backend.name

instance : JsonForm SurplusInputs := .ofNames [.reject, .ignore] SurplusInputs.name

/-- The options of a solver, a record of one part. -/
def SurplusInputs.toOptions (surplus : SurplusInputs) : Json :=
  .ofFields [("surplus_inputs", toJson surplus)]

def SurplusInputs.ofOptions? (json : Json) : Option SurplusInputs := do
  match ← json.parts? ["surplus_inputs"] with
  | [surplus] => partOr? .reject surplus
  | _ => none

instance : JsonForm Wire where
  toJson wire := toJson wire.index
  ofJson? json := Wire.mk <$> ofJson? json

/-- The number of a hint, of at most 32 bits. -/
def hintIdOfJson? (json : Json) : Option Nat := json.nat? 32

instance : JsonForm Arity where
  toJson
    | .any => .ofString "Any"
    | .exactly count => .ofFields [("Exact", toJson count)]
  ofJson? json :=
    match json.case? with
    | some ("Any", .null) => some .any
    | some ("Exact", count) => .exactly <$> ofJson? count
    | _ => none

instance : JsonForm HintBinding where
  toJson binding := .ofFields [
    ("name", toJson binding.name), ("inputs", toJson binding.inputs),
    ("outputs", toJson binding.outputs), ("position", toJson binding.position)]
  ofJson? json := do
    match ← json.allParts? ["name", "inputs", "outputs", "position"] with
    | [name, inputs, outputs, position] =>
      return {
        name := ← ofJson? name
        inputs := ← ofJson? inputs
        outputs := ← ofJson? outputs
        position := ← ofJson? position }
    | _ => none

instance : JsonForm SlotRef where
  toJson ref := .ofFields [("gate", toJson ref.gate), ("slot", toJson ref.slot)]
  ofJson? json := do
    match ← json.allParts? ["gate", "slot"] with
    | [gate, slot] => return { gate := ← ofJson? gate, slot := ← ofJson? slot }
    | _ => none

instance : JsonForm Copy where
  toJson copy := .ofFields [("from", toJson copy.source), ("to", toJson copy.target)]
  ofJson? json := do
    match ← json.allParts? ["from", "to"] with
    | [source, target] => return { source := ← ofJson? source, target := ← ofJson? target }
    | _ => none

instance : JsonForm Stats where
  toJson stats := .ofFields [
    ("constraints", toJson stats.constraints), ("variables", toJson stats.wires),
    ("public_inputs", toJson stats.publicInputs), ("secret_inputs", toJson stats.secretInputs),
    ("internal", toJson stats.internal), ("hints", toJson stats.hints)]
  ofJson? json := do
    match ← json.allParts?
        ["constraints", "variables", "public_inputs", "secret_inputs", "internal", "hints"] with
    | [constraints, wires, publicInputs, secretInputs, internal, hints] =>
      return {
        constraints := ← ofJson? constraints
        wires := ← ofJson? wires
        publicInputs := ← ofJson? publicInputs
        secretInputs := ← ofJson? secretInputs
        internal := ← ofJson? internal
        hints := ← ofJson? hints }
    | _ => none

/-- An option that is left out has its default. -/
instance : JsonForm CompileOptions where
  toJson options := .ofFields [
    ("backend", toJson options.backend),
    ("eliminate_constant_wires", toJson options.eliminateConstantWires),
    ("check_determinism", toJson options.checkDeterminism)]
  ofJson? json := do
    let base : CompileOptions := {}
    match ← json.parts? ["backend", "eliminate_constant_wires", "check_determinism"] with
    | [backend, eliminate, determinism] =>
      return {
        backend := ← partOr? base.backend backend
        eliminateConstantWires := ← partOr? base.eliminateConstantWires eliminate
        checkDeterminism := ← partOr? base.checkDeterminism determinism }
    | _ => none

end ArithCircuit
