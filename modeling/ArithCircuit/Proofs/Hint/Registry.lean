import ArithCircuit.Hint.Builtin
import ArithCircuit.Proofs.Field.Digits
import ArithCircuit.Proofs.Hint.Lookup
import ArithCircuit.Proofs.Hint.Name

/-!
# Registries that know the built-in hints

A registration never replaces a hint, so every registry that starts from the built-in hints runs
them as they are. A hint may fail even when it is asked for nothing; every registry has a lenient twin
where this does not happen.
-/

namespace ArithCircuit

/-- A hint that does not go with the registry: its name is not there, or not for this shape. -/
def HintError.Unfit : HintError → Prop
  | .unknown _ => True
  | .arityMismatch .. => True
  | _ => False

namespace HintRegistry

variable {registry registry' : HintRegistry} {name : String}

@[simp]
theorem invoke_canonicalName (modulus : Nat) (inputs : List Nat) (outputs : Nat) :
    registry.invoke (canonicalName name) modulus inputs outputs
      = registry.invoke name modulus inputs outputs := by
  simp [invoke, lookup]

@[simp]
theorem lookup_canonicalName (inputs outputs : Nat) :
    registry.lookup (canonicalName name) inputs outputs = registry.lookup name inputs outputs := by
  simp [lookup]

theorem check_eq_ok {b : HintBinding} : registry.check b = .ok () ↔
    ∃ known, registry.lookup b.name b.inputs.length b.outputs.length = .ok known := by
  rw [check_eq]
  cases registry.lookup b.name b.inputs.length b.outputs.length <;> simp [Except.map]

/-- What a hint gives is as long as it is asked to be, and reduced. -/
theorem exists_of_invoke {modulus outputs : Nat} {inputs values : List Nat}
    (invoked : registry.invoke name modulus inputs outputs = .ok values) :
    ∃ given, values = reduceOutputs modulus outputs given := by
  cases found : registry.find? (canonicalName name) with
  | none => cases (invoke_of_absent found modulus inputs outputs).symm.trans invoked
  | some known =>
      have gives := invoke_of_find? found modulus inputs outputs
      rw [invoked] at gives
      cases gives with
      | values => exact ⟨_, rfl⟩

/-- A hint that goes with the registry is not refused for its name or its shape when it runs. -/
theorem invoke_fits {modulus outputs : Nat} {inputs : List Nat} {known : RegisteredHint} {error : HintError}
    (found : registry.lookup name inputs.length outputs = .ok known)
    (failed : registry.invoke name modulus inputs outputs = .error error) : ¬ error.Unfit := by
  obtain ⟨there, fits⟩ := of_lookup found
  have gives := invoke_of_find? there modulus inputs outputs
  rw [failed] at gives
  cases gives with
  | misfit misfit => exact absurd misfit fits.not_misfit
  | refused => exact id
  | undefined => exact id
  | unreduced => exact id

/-! ## The built-in hints -/

/-- The registry has the built-in hints, and others that were registered on top of them. -/
inductive FromBuiltin : HintRegistry → Prop
  | builtin : FromBuiltin .builtin
  | register {registry registry' : HintRegistry} {name : String} {inputs outputs : Arity} {handler : Handler} :
      FromBuiltin registry → registry.register name inputs outputs handler = .ok registry' →
      FromBuiltin registry'

theorem perm_insertHint (hint : RegisteredHint) (hints : List RegisteredHint) :
    (insertHint hint hints).Perm (hint :: hints) := by
  induction hints with
  | nil => exact .refl _
  | cons first rest ih =>
      unfold insertHint
      split
      · exact .refl _
      · exact (ih.cons first).trans (.swap hint first rest)

/-- A new hint is found under its name, and the others are found as before. -/
theorem find?_insertHint {hint : RegisteredHint} {hints : List RegisteredHint}
    (free : hints.find? (·.name = hint.name) = none) (name : String) :
    (insertHint hint hints).find? (·.name = name)
      = (hints.find? (·.name = name)).or ([hint].find? (·.name = name)) := by
  induction hints with
  | nil => rfl
  | cons first rest ih =>
      obtain ⟨different, free⟩ : ¬ first.name = hint.name ∧ rest.find? (·.name = hint.name) = none := by
        simpa using free
      unfold insertHint
      split
      · by_cases same : hint.name = name
        · subst same
          -- It stands in front of all others here, and none of them has its name.
          have absent : (first :: rest).find? (·.name = hint.name) = none := by simpa [different] using free
          simp [absent]
        · simp [same]
      · by_cases same : first.name = name
        · simp [same]
        · simpa [same] using ih free

/-- A registration adds the hint under its canonical name and keeps the hints that are there. -/
theorem find?_register {inputs outputs : Arity} {handler : Handler}
    (registered : registry.register name inputs outputs handler = .ok registry') (canonical : String) :
    registry'.find? canonical = (registry.find? canonical).or
      ([⟨canonicalName name, inputs, outputs, handler⟩].find? (·.name = canonical)) := by
  unfold register at registered
  dsimp only at registered
  split at registered
  · cases registered
  · rename_i free
    cases registered
    exact find?_insertHint (by simpa [contains, HintRegistry.find?] using free) canonical

theorem FromBuiltin.find? (built : FromBuiltin registry) {known : RegisteredHint}
    (found : HintRegistry.builtin.find? name = some known) : registry.find? name = some known := by
  induction built with
  | builtin => exact found
  | register _ registered ih => rw [find?_register registered, ih, Option.some_or]

theorem FromBuiltin.lookup (built : FromBuiltin registry) {known : RegisteredHint} {inputs outputs : Nat}
    (found : HintRegistry.builtin.lookup name inputs outputs = .ok known) :
    registry.lookup name inputs outputs = .ok known :=
  have ⟨there, fits⟩ := of_lookup found
  lookup_of_fits (built.find? there) fits

/-- A built-in hint gives what its handler gives, reduced. -/
theorem FromBuiltin.invoke (built : FromBuiltin registry) {F : PrimeField} {known : RegisteredHint}
    {inputs values : List Nat} {outputs : Nat}
    (found : HintRegistry.builtin.lookup name inputs.length outputs = .ok known)
    (handled : known.handler F.modulus inputs outputs = .ok values) :
    registry.invoke name F.modulus inputs outputs = .ok (reduceOutputs F.modulus outputs values) := by
  have positive : F.modulus ≠ 0 := by
    have := F.two_le
    omega
  rw [HintRegistry.invoke, built.lookup found]
  simp [bind, Except.bind, handled, positive]

theorem FromBuiltin.invoke_refused (built : FromBuiltin registry) {modulus : Nat} {known : RegisteredHint}
    {inputs : List Nat} {outputs : Nat} {reason : String}
    (found : HintRegistry.builtin.lookup name inputs.length outputs = .ok known)
    (refused : known.handler modulus inputs outputs = .error (.refused reason)) :
    registry.invoke name modulus inputs outputs = .error (.failed known.name inputs reason) := by
  rw [HintRegistry.invoke, built.lookup found]
  simp [bind, Except.bind, refused]

section Builtin

variable {F : PrimeField} (built : FromBuiltin registry)
include built

omit built in
theorem inverseMod?_val (x : F.Elem) :
    Hint.inverseMod? F.modulus x.val = .ok ((PrimeField.inverse? x).map (·.val)) := by
  have positive : ¬ F.modulus < 2 := Nat.not_lt_of_le F.two_le
  unfold Hint.inverseMod? PrimeField.inverse?
  by_cases zero : x = 0
  · simp [zero]
  · have zero' : x.val ≠ 0 := fun h => zero (Fin.ext h)
    simp [zero, zero', positive, powMod_eq]

theorem invoke_div (a b : F.Elem) : registry.invoke Hint.divName F.modulus [a.val, b.val] 1
    = match PrimeField.inverse? b with
      | some y => .ok [(a * y).val]
      | none => .error (.failed Hint.divName [a.val, b.val] "division by zero") := by
  have found : HintRegistry.builtin.lookup Hint.divName [a.val, b.val].length 1
      = .ok ⟨Hint.divName, .exactly 2, .exactly 1, Hint.div⟩ := rfl
  have inverted := inverseMod?_val b
  cases hy : PrimeField.inverse? b with
  | none =>
      apply built.invoke_refused found
      simp [Hint.div, inverted, hy, bind, Except.bind, throw, throwThe, MonadExceptOf.throw]
  | some y =>
      have handled : Hint.div F.modulus [a.val, b.val] 1 = .ok [a.val * y.val % F.modulus] := by
        simp [Hint.div, inverted, hy, bind, Except.bind, pure, Except.pure]
      rw [built.invoke found handled]
      simp [reduceOutputs, Fin.val_mul]

theorem invoke_invert (x : F.Elem) : registry.invoke Hint.invertName F.modulus [x.val] 1
    = match PrimeField.inverse? x with
      | some y => .ok [y.val]
      | none => .error (.failed Hint.invertName [x.val] "inverse of zero") := by
  have found : HintRegistry.builtin.lookup Hint.invertName [x.val].length 1
      = .ok ⟨Hint.invertName, .exactly 1, .exactly 1, Hint.invert⟩ := rfl
  have inverted := inverseMod?_val x
  cases hy : PrimeField.inverse? x with
  | none =>
      apply built.invoke_refused found
      simp [Hint.invert, inverted, hy, bind, Except.bind, throw, throwThe, MonadExceptOf.throw]
  | some y =>
      have handled : Hint.invert F.modulus [x.val] 1 = .ok [y.val] := by
        simp [Hint.invert, inverted, hy, bind, Except.bind, pure, Except.pure]
      rw [built.invoke found handled]
      simp [reduceOutputs, Nat.mod_eq_of_lt y.isLt]

theorem invoke_inverseOrZero (x : F.Elem) : registry.invoke Hint.inverseOrZeroName F.modulus [x.val] 1
    = .ok [((PrimeField.inverse? x).getD 0).val] := by
  have found : HintRegistry.builtin.lookup Hint.inverseOrZeroName [x.val].length 1
      = .ok ⟨Hint.inverseOrZeroName, .exactly 1, .exactly 1, Hint.inverseOrZero⟩ := rfl
  have inverted := inverseMod?_val x
  have handled : Hint.inverseOrZero F.modulus [x.val] 1 = .ok [((PrimeField.inverse? x).getD 0).val] := by
    cases hy : PrimeField.inverse? x <;>
      simp [Hint.inverseOrZero, inverted, hy, bind, Except.bind, pure, Except.pure]
  rw [built.invoke found handled]
  simp [reduceOutputs, Nat.mod_eq_of_lt ((PrimeField.inverse? x).getD 0).isLt]

theorem invoke_bits (x : F.Elem) (width : Nat) : registry.invoke Hint.bitsName F.modulus [x.val] width
    = match PrimeField.decompose? x width with
      | some bits => .ok (bits.map fun bit => (PrimeField.ofBit bit : F.Elem).val)
      | none => .error (.failed Hint.bitsName [x.val] s!"{x.val} does not fit in {width} bits") := by
  have found : HintRegistry.builtin.lookup Hint.bitsName [x.val].length width
      = .ok ⟨Hint.bitsName, .exactly 1, .any, Hint.bits⟩ := rfl
  rw [PrimeField.decompose?_eq]
  by_cases fits : x.val < 2 ^ width
  · have handled : Hint.bits F.modulus [x.val] width = .ok ((lowBits width x.val).map Bool.toNat) := by
      simp [Hint.bits, bitLength_le.mpr fits]
    rw [built.invoke found handled, if_pos fits]
    simp only [reduceOutputs, lowBits, List.map_map]
    refine congrArg Except.ok (List.map_congr_left fun i hi => ?_)
    simp [List.mem_range.mp hi, PrimeField.ofBit]
  · have wide : width < bitLength x.val := Nat.lt_of_not_le fun narrow => fits (bitLength_le.mp narrow)
    rw [if_neg fits]
    exact built.invoke_refused found (by simp [Hint.bits, wide])

end Builtin

/-- Where it is asked for outputs, the registry answers like one that has the built-in hints. -/
def AnswersBuiltin (registry : HintRegistry) : Prop :=
  ∃ other, FromBuiltin other ∧ ∀ name modulus inputs outputs, outputs ≠ 0 →
    registry.invoke name modulus inputs outputs = other.invoke name modulus inputs outputs

theorem FromBuiltin.answers (built : FromBuiltin registry) : registry.AnswersBuiltin :=
  ⟨registry, built, fun _ _ _ _ _ => rfl⟩

/-! ## Hints that are asked for nothing -/

/-- A hint that is there does not fail when it is asked for no outputs. -/
def IsLenient (registry : HintRegistry) : Prop :=
  ∀ name modulus inputs known, registry.lookup name inputs.length 0 = .ok known →
    registry.invoke name modulus inputs 0 = .ok []

/-- A hint that is there and fails is asked for some output, if it has to be. -/
theorem outputs_pos_of_error {modulus outputs : Nat} {inputs : List Nat} {known : RegisteredHint} {error : HintError}
    (asks : 0 < outputs ∨ registry.IsLenient) (found : registry.lookup name inputs.length outputs = .ok known)
    (failed : registry.invoke name modulus inputs outputs = .error error) : 0 < outputs := by
  rcases asks with positive | lenient
  · exact positive
  · refine Nat.pos_of_ne_zero fun none => ?_
    rw [none] at found failed
    rw [lenient name modulus inputs known found] at failed
    cases failed

/-- The same hint, but it never fails when it is asked for no outputs. -/
def lenientHint (hint : RegisteredHint) : RegisteredHint :=
  { hint with handler := fun modulus inputs outputs =>
      if outputs = 0 then .ok [] else hint.handler modulus inputs outputs }

def lenient (registry : HintRegistry) : HintRegistry := ⟨registry.hints.map lenientHint⟩

theorem lookup_lenient (name : String) (inputs outputs : Nat) :
    registry.lenient.lookup name inputs outputs = (registry.lookup name inputs outputs).map lenientHint := by
  have found : registry.lenient.find? (canonicalName name)
      = (registry.find? (canonicalName name)).map lenientHint := by
    rw [find?, lenient, List.find?_map]
    rfl
  unfold lookup
  dsimp only
  rw [found]
  cases registry.find? (canonicalName name) with
  | none => rfl
  | some hint =>
      simp only [Option.map_some, lenientHint, bind, Except.bind, pure, Except.pure]
      cases checkArity (canonicalName name) .inputs hint.inputs inputs with
      | error error => rfl
      | ok _ => cases checkArity (canonicalName name) .outputs hint.outputs outputs <;> rfl

theorem check_lenient {b : HintBinding} (fits : registry.check b = .ok ()) : registry.lenient.check b = .ok () := by
  obtain ⟨known, found⟩ := check_eq_ok.mp fits
  exact check_eq_ok.mpr ⟨lenientHint known, by rw [lookup_lenient, found]; rfl⟩

theorem invoke_lenient (name : String) (modulus : Nat) (inputs : List Nat) {outputs : Nat} (some : outputs ≠ 0) :
    registry.lenient.invoke name modulus inputs outputs = registry.invoke name modulus inputs outputs := by
  rw [invoke, invoke, lookup_lenient]
  cases registry.lookup name inputs.length outputs with
  | error error => rfl
  | ok known => simp [Except.map, bind, Except.bind, lenientHint, some]

theorem isLenient_lenient (registry : HintRegistry) : registry.lenient.IsLenient := by
  intro name modulus inputs known found
  rw [lookup_lenient] at found
  cases hfound : registry.lookup name inputs.length 0 with
  | error error => simp [hfound, Except.map] at found
  | ok hint =>
      rw [invoke, lookup_lenient, hfound]
      simp [Except.map, bind, Except.bind, lenientHint, reduceOutputs]

theorem AnswersBuiltin.lenient (answers : registry.AnswersBuiltin) : registry.lenient.AnswersBuiltin := by
  obtain ⟨other, built, same⟩ := answers
  exact ⟨other, built, fun name modulus inputs outputs some =>
    (invoke_lenient name modulus inputs some).trans (same name modulus inputs outputs some)⟩

end HintRegistry

end ArithCircuit
