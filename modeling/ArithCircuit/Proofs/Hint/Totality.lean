import ArithCircuit.Proofs.Hint.Registry

/-!
# Total handlers

A handler is total at a modulus if its arithmetic is defined on all inputs that the registry lets
through. Then no hint fails but for want of a registration, for its shape, or because it refuses.
-/

namespace ArithCircuit

/-- The arithmetic of the handler is defined on all inputs of the registered shape. -/
def RegisteredHint.Total (hint : RegisteredHint) (modulus : Nat) : Prop :=
  ∀ inputs outputs, hint.inputs.Accepts inputs.length → hint.outputs.Accepts outputs →
    hint.handler modulus inputs outputs ≠ .error .undefinedArithmetic

/-- A hint that would have computed with undefined numbers. -/
def HintError.Undefined : HintError → Prop
  | .undefinedArithmetic _ => True
  | _ => False

theorem RegisteredHint.Misfit.defined {hint : RegisteredHint} {inputs outputs : Nat} {error : HintError}
    (misfit : hint.Misfit inputs outputs error) : ¬ error.Undefined := by
  cases misfit <;> exact id

namespace HintRegistry

variable {registry : HintRegistry} {name : String} {modulus outputs : Nat} {inputs : List Nat}

def Total (registry : HintRegistry) (modulus : Nat) : Prop := ∀ hint ∈ registry.hints, hint.Total modulus

theorem lookup_defined {inputs outputs : Nat} {error : HintError}
    (failed : registry.lookup name inputs outputs = .error error) : ¬ error.Undefined := by
  cases found : registry.find? (canonicalName name) with
  | none =>
      cases (lookup_of_absent found inputs outputs).symm.trans failed
      exact id
  | some hint =>
      rcases lookup_of_find? found inputs outputs with ⟨-, gives⟩ | ⟨error', misfit, fails⟩
      · cases gives.symm.trans failed
      · cases fails.symm.trans failed
        exact misfit.defined

theorem check_defined {b : HintBinding} {error : HintError} (failed : registry.check b = .error error) :
    ¬ error.Undefined := by
  rw [check_eq] at failed
  cases looked : registry.lookup b.name b.inputs.length b.outputs.length with
  | error error' =>
      rw [looked] at failed
      exact Except.error.inj failed ▸ lookup_defined looked
  | ok known =>
      rw [looked] at failed
      cases failed

theorem Total.invoke_defined (total : registry.Total modulus) (positive : modulus ≠ 0) {error : HintError}
    (failed : registry.invoke name modulus inputs outputs = .error error) : ¬ error.Undefined := by
  cases found : registry.find? (canonicalName name) with
  | none =>
      cases (invoke_of_absent found modulus inputs outputs).symm.trans failed
      exact id
  | some known =>
      have gives := invoke_of_find? found modulus inputs outputs
      rw [failed] at gives
      cases gives with
      | misfit misfit => exact misfit.defined
      | refused => exact id
      | undefined fits undefined =>
          exact absurd undefined (total known (List.mem_of_find?_eq_some found) inputs outputs fits.inputs fits.outputs)
      | unreduced _ _ zero => exact absurd zero positive

/-! ## Registries of total handlers -/

theorem inverseMod?_defined (two_le : 2 ≤ modulus) (x : Nat) : ∃ inverse, Hint.inverseMod? modulus x = .ok inverse := by
  unfold Hint.inverseMod?
  rw [if_neg (Nat.not_lt_of_le two_le)]
  split <;> exact ⟨_, rfl⟩

/-- The built-in hints are defined at every modulus above one. -/
theorem total_builtin (two_le : 2 ≤ modulus) : HintRegistry.builtin.Total modulus := by
  simp only [Total, builtin, List.forall_mem_cons, List.not_mem_nil, false_imp_iff, implies_true, and_true,
    RegisteredHint.Total]
  refine ⟨?bits, ?div, ?inverseOrZero, ?invert⟩ <;> intro inputs outputs _ _
  case bits =>
    simp only [Hint.bits]
    split <;> simp
  case div =>
    obtain ⟨inverse, defined⟩ := inverseMod?_defined two_le (inputs.getD 1 0)
    simp only [Hint.div, defined, bind, Except.bind]
    cases inverse <;> intro undefined <;> cases undefined
  case inverseOrZero =>
    obtain ⟨inverse, defined⟩ := inverseMod?_defined two_le (inputs.getD 0 0)
    simp only [Hint.inverseOrZero, defined, bind, Except.bind]
    intro undefined
    cases undefined
  case invert =>
    obtain ⟨inverse, defined⟩ := inverseMod?_defined two_le (inputs.getD 0 0)
    simp only [Hint.invert, defined, bind, Except.bind]
    cases inverse <;> intro undefined <;> cases undefined

end HintRegistry

end ArithCircuit
