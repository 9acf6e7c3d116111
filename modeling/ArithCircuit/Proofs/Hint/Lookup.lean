import ArithCircuit.Hint.Registry

/-!
# Finding a hint and running it

A name is looked up by its canonical form. The hint that is found decides by its arities whether a call has its shape,
and by its handler what the call gives.
-/

namespace ArithCircuit

def Arity.Accepts : Arity → Nat → Prop
  | .exactly count, got => got = count
  | .any, _ => True

namespace RegisteredHint

/-- The hint takes so many inputs and gives so many outputs. -/
structure Fits (hint : RegisteredHint) (inputs outputs : Nat) : Prop where
  inputs : hint.inputs.Accepts inputs
  outputs : hint.outputs.Accepts outputs

/-- Why a shape is not that of the hint. The inputs are counted first. -/
inductive Misfit (hint : RegisteredHint) (inputs outputs : Nat) : HintError → Prop
  | inputs {expected : Nat} : hint.inputs = .exactly expected → inputs ≠ expected →
      Misfit hint inputs outputs (.arityMismatch hint.name .inputs expected inputs)
  | outputs {expected : Nat} : hint.inputs.Accepts inputs → hint.outputs = .exactly expected → outputs ≠ expected →
      Misfit hint inputs outputs (.arityMismatch hint.name .outputs expected outputs)

theorem Fits.not_misfit {hint : RegisteredHint} {inputs outputs : Nat} {error : HintError}
    (fits : hint.Fits inputs outputs) : ¬ hint.Misfit inputs outputs error := by
  obtain ⟨inputsFit, outputsFit⟩ := fits
  rintro (⟨exact, differs⟩ | ⟨-, exact, differs⟩)
  · rw [exact] at inputsFit
    exact differs inputsFit
  · rw [exact] at outputsFit
    exact differs outputsFit

/-- What the check of a shape by the arities of the hint gives. -/
inductive Checks (hint : RegisteredHint) (inputs outputs : Nat) : Except HintError Unit → Prop
  | fits : hint.Fits inputs outputs → Checks hint inputs outputs (.ok ())
  | misfit {error : HintError} : hint.Misfit inputs outputs error → Checks hint inputs outputs (.error error)

/-- What a run of the hint gives: its handler is asked if the shape is right, and the values are reduced. -/
inductive Gives (hint : RegisteredHint) (modulus : Nat) (inputs : List Nat) (outputs : Nat) :
    Except HintError (List Nat) → Prop
  | misfit {error : HintError} : hint.Misfit inputs.length outputs error →
      Gives hint modulus inputs outputs (.error error)
  | refused {reason : String} : hint.Fits inputs.length outputs →
      hint.handler modulus inputs outputs = .error (.refused reason) →
      Gives hint modulus inputs outputs (.error (.failed hint.name inputs reason))
  | undefined : hint.Fits inputs.length outputs →
      hint.handler modulus inputs outputs = .error .undefinedArithmetic →
      Gives hint modulus inputs outputs (.error (.undefinedArithmetic hint.name))
  | unreduced {values : List Nat} : hint.Fits inputs.length outputs →
      hint.handler modulus inputs outputs = .ok values → modulus = 0 → outputs ≠ 0 →
      Gives hint modulus inputs outputs (.error (.undefinedArithmetic hint.name))
  | values {values : List Nat} : hint.Fits inputs.length outputs →
      hint.handler modulus inputs outputs = .ok values → (modulus = 0 → outputs = 0) →
      Gives hint modulus inputs outputs (.ok (HintRegistry.reduceOutputs modulus outputs values))

end RegisteredHint

namespace HintRegistry

variable {registry : HintRegistry} {name : String}

theorem name_of_find? {canonical : String} {hint : RegisteredHint} (found : registry.find? canonical = some hint) :
    hint.name = canonical := by simpa using List.find?_some found

/-! ## Arities -/

theorem checkArity_spec (name : String) (side : HintSide) (arity : Arity) (got : Nat) :
    (arity.Accepts got ∧ checkArity name side arity got = .ok ()) ∨ ∃ expected, arity = .exactly expected ∧
      got ≠ expected ∧ checkArity name side arity got = .error (.arityMismatch name side expected got) := by
  cases arity with
  | any => exact .inl ⟨trivial, rfl⟩
  | exactly expected =>
      by_cases same : expected = got
      · exact .inl ⟨same.symm, if_pos same⟩
      · exact .inr ⟨expected, rfl, Ne.symm same, if_neg same⟩

/-! ## Lookups -/

theorem lookup_of_absent (absent : registry.find? (canonicalName name) = none) (inputs outputs : Nat) :
    registry.lookup name inputs outputs = .error (.unknown (canonicalName name)) := by
  simp only [lookup, absent]

theorem lookup_of_find? {hint : RegisteredHint} (found : registry.find? (canonicalName name) = some hint)
    (inputs outputs : Nat) : (hint.Fits inputs outputs ∧ registry.lookup name inputs outputs = .ok hint) ∨
      ∃ error, hint.Misfit inputs outputs error ∧ registry.lookup name inputs outputs = .error error := by
  simp only [lookup, found]
  rw [← name_of_find? found]
  rcases checkArity_spec hint.name .inputs hint.inputs inputs with ⟨accepts, passes⟩ | ⟨_, exact, differs, fails⟩
  · rcases checkArity_spec hint.name .outputs hint.outputs outputs with
      ⟨accepts', passes'⟩ | ⟨_, exact, differs, fails⟩
    · exact .inl ⟨⟨accepts, accepts'⟩, by rw [passes, passes']; rfl⟩
    · exact .inr ⟨_, .outputs accepts exact differs, by rw [passes, fails]; rfl⟩
  · exact .inr ⟨_, .inputs exact differs, by rw [fails]; rfl⟩

theorem lookup_of_fits {hint : RegisteredHint} {inputs outputs : Nat}
    (found : registry.find? (canonicalName name) = some hint) (fits : hint.Fits inputs outputs) :
    registry.lookup name inputs outputs = .ok hint := by
  rcases lookup_of_find? found inputs outputs with ⟨-, looked⟩ | ⟨error, misfit, -⟩
  · exact looked
  · exact absurd misfit fits.not_misfit

/-- A lookup gives a registered hint that takes as many inputs and gives as many outputs. -/
theorem of_lookup {hint : RegisteredHint} {inputs outputs : Nat}
    (looked : registry.lookup name inputs outputs = .ok hint) :
    registry.find? (canonicalName name) = some hint ∧ hint.Fits inputs outputs := by
  cases found : registry.find? (canonicalName name) with
  | none => cases (lookup_of_absent found inputs outputs).symm.trans looked
  | some known =>
      rcases lookup_of_find? found inputs outputs with ⟨fits, gives⟩ | ⟨error, -, fails⟩
      · cases gives.symm.trans looked
        exact ⟨rfl, fits⟩
      · cases fails.symm.trans looked

/-! ## Checks and runs -/

/-- A check is a lookup whose result is dropped. -/
theorem check_eq (b : HintBinding) :
    registry.check b = (registry.lookup b.name b.inputs.length b.outputs.length).map fun _ => () := by
  unfold check
  cases registry.lookup b.name b.inputs.length b.outputs.length <;> rfl

theorem check_of_absent {b : HintBinding} (absent : registry.find? (canonicalName b.name) = none) :
    registry.check b = .error (.unknown (canonicalName b.name)) := by
  rw [check_eq, lookup_of_absent absent]
  rfl

theorem check_of_find? {b : HintBinding} {hint : RegisteredHint}
    (found : registry.find? (canonicalName b.name) = some hint) :
    hint.Checks b.inputs.length b.outputs.length (registry.check b) := by
  rw [check_eq]
  rcases lookup_of_find? found b.inputs.length b.outputs.length with ⟨fits, looked⟩ | ⟨error, misfit, looked⟩
  · rw [looked]
    exact .fits fits
  · rw [looked]
    exact .misfit misfit

theorem invoke_of_absent (absent : registry.find? (canonicalName name) = none) (modulus : Nat) (inputs : List Nat)
    (outputs : Nat) : registry.invoke name modulus inputs outputs = .error (.unknown (canonicalName name)) := by
  rw [invoke, lookup_of_absent absent]
  rfl

theorem invoke_of_find? {hint : RegisteredHint} (found : registry.find? (canonicalName name) = some hint)
    (modulus : Nat) (inputs : List Nat) (outputs : Nat) :
    hint.Gives modulus inputs outputs (registry.invoke name modulus inputs outputs) := by
  rw [invoke]
  rcases lookup_of_find? found inputs.length outputs with ⟨fits, looked⟩ | ⟨error, misfit, looked⟩
  · rw [looked]
    dsimp only [bind, Except.bind]
    split
    · rename_i refused
      exact .refused fits refused
    · rename_i undefined
      exact .undefined fits undefined
    · rename_i values handled
      by_cases zero : modulus = 0 ∧ outputs ≠ 0
      · rw [if_pos zero]
        exact .unreduced fits handled zero.1 zero.2
      · rw [if_neg zero]
        exact .values fits handled (by simpa using zero)
  · rw [looked]
    exact .misfit misfit

end HintRegistry

end ArithCircuit
