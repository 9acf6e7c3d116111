import ArithCircuit.Proofs.Circuit.DigitChoices

/-!
# Failed operations leave no trace

An operation that can fail does so before it changes the draft. What it does after its first change always
gives a result: the assertions that could still fail are about fresh wires there, and no constant is left of
a difference with a fresh wire in it.
-/

namespace ArithCircuit

open scoped Fin.CommRing

open LinearCombination (ofConstant ofWire)

variable {F : PrimeField} {κ α β : Type}

/-! ## Expressions that are no constants -/

namespace LinearCombination

/-- A wire that does not occur does not cancel. -/
theorem Below.sub_ofWire_not_constant {x : LinearCombination F} {n : Nat} (h : x.Below n) :
    (x - ofWire ⟨n⟩).asConstant? = none := by
  refine asConstant?_eq_none (fun _ => 0) (Function.update (fun _ => 0) ⟨n⟩ 1) ?_
  rw [evalWith_sub, evalWith_sub, h.evalWith_congr (.update n _ 1), evalWith_ofWire, evalWith_ofWire,
    Function.update_self]
  exact fun same => PrimeField.one_ne_zero (sub_right_injective same).symm

theorem one_sub_ofWire_not_constant (wire : Wire) :
    (ofConstant 1 - ofWire wire : LinearCombination F).asConstant? = none := by
  refine asConstant?_eq_none (fun _ => 0) (fun _ => 1) ?_
  rw [evalWith_sub, evalWith_sub, evalWith_ofWire, evalWith_ofWire, evalWith_ofConstant, evalWith_ofConstant]
  exact fun same => PrimeField.one_ne_zero (sub_right_injective same).symm

end LinearCombination

namespace Synthesis

/-! ## Syntheses that do not fail -/

/-- Whatever the draft is, there is a result, and it is of the kind. -/
def Yields (m : Synthesis F κ α) (kind : α → Prop) : Prop := ∀ d, ∃ a d', m.run d = .ok a d' ∧ kind a

abbrev Succeeds (m : Synthesis F κ α) : Prop := Yields m fun _ => True

section Yields

variable {m : Synthesis F κ α} {kind : α → Prop} {kind' : β → Prop}

theorem yields_pure {a : α} (h : kind a) : Yields (pure a : Synthesis F κ α) kind :=
  fun d => ⟨a, d, run_pure a, h⟩

theorem succeeds_uniform (m : Synthesis F κ α) [Uniform m] : Succeeds m := by
  intro d
  obtain ⟨a, k, cs, adds⟩ := Uniform.adds (m := m) d.size
  exact ⟨a, _, adds d rfl, trivial⟩

theorem succeeds_rememberConstant (k : F.Elem) (wire : Wire) :
    Succeeds (rememberConstant k wire : Synthesis F κ Unit) :=
  fun d => ⟨_, _, run_rememberConstant d k wire, trivial⟩

theorem succeeds_markBoolean (wire : Wire) : Succeeds (markBoolean wire : Synthesis F κ Unit) :=
  fun d => ⟨_, _, run_markBoolean d wire, trivial⟩

theorem yields_input (role : Role) (name : String) :
    Yields (input role name : Synthesis F κ (LinearCombination F)) fun y => ∃ wire, y = ofWire wire :=
  fun _ => ⟨_, _, run_input role name, _, rfl⟩

theorem yields_bindHint (name : String) (inputs : List Wire) (outputs : Nat) :
    Yields (bindHint name inputs outputs : Synthesis F κ (List Wire)) fun wires => wires.length = outputs :=
  fun _ => ⟨_, _, run_bindHint name inputs outputs, Wire.length_span _ _⟩

/-- A step that looks at the draft first. -/
theorem yields_get_bind {f : Draft F κ → Synthesis F κ α} (h : ∀ d, Yields (f d) kind) : Yields (get >>= f) kind :=
  fun d => h d d

theorem Yields.bind {f : α → Synthesis F κ β} (first : Yields m kind) (second : ∀ a, kind a → Yields (f a) kind') :
    Yields (m >>= f) kind' := by
  intro d
  obtain ⟨a, d₁, hfirst, ha⟩ := first d
  rw [run_bind_ok hfirst]
  exact second a ha d₁

theorem Yields.succeeds (h : Yields m kind) : Succeeds m := by
  intro d
  obtain ⟨a, d', hrun, -⟩ := h d
  exact ⟨a, d', hrun, trivial⟩

theorem Yields.map {f : α → β} (first : Yields m kind) (h : ∀ a, kind a → kind' (f a)) : Yields (f <$> m) kind' := by
  rw [map_eq_pure_bind]
  exact first.bind fun a ha => yields_pure (h a ha)

theorem succeeds_mapM {f : α → Synthesis F κ β} (h : ∀ a, Succeeds (f a)) (xs : List α) : Succeeds (xs.mapM f) := by
  induction xs with
  | nil =>
      rw [List.mapM_nil]
      exact yields_pure trivial
  | cons x xs ih =>
      rw [List.mapM_cons]
      exact (h x).bind fun _ _ => ih.bind fun _ _ => yields_pure trivial

theorem succeeds_forM {f : α → Synthesis F κ PUnit} {xs : List α} (h : ∀ x ∈ xs, Succeeds (f x)) :
    Succeeds (xs.forM f) := by
  induction xs with
  | nil => exact yields_pure trivial
  | cons x xs ih =>
      obtain ⟨first, rest⟩ := List.forall_mem_cons.mp h
      exact first.bind fun _ _ => ih rest

end Yields

/-! ## Atomic syntheses -/

/-- If it fails on the draft, the draft stays as it is. -/
def AtomicOn (m : Synthesis F κ α) (d : Draft F κ) : Prop := ∀ e d', m.run d = .error e d' → d' = d

section AtomicOn

variable {m : Synthesis F κ α} {d : Draft F κ}

theorem atomicOn_of_ok {a : α} {d' : Draft F κ} (h : m.run d = .ok a d') : AtomicOn m d := by
  intro e d₁ failed
  rw [h] at failed
  cases failed

theorem Succeeds.atomicOn (h : Succeeds m) (d : Draft F κ) : AtomicOn m d := by
  obtain ⟨a, d', hrun, -⟩ := h d
  exact atomicOn_of_ok hrun

theorem atomicOn_fail (error : Nat → SynthesisError) : AtomicOn (fail error : Synthesis F κ α) d := by
  intro e d' failed
  cases failed
  rfl

theorem atomicOn_get_bind {f : Draft F κ → Synthesis F κ α} (h : AtomicOn (f d) d) : AtomicOn (get >>= f) d := h

/-- Only the beginning may fail. -/
theorem AtomicOn.bind {f : α → Synthesis F κ β} (first : AtomicOn m d) (second : ∀ a, Succeeds (f a)) :
    AtomicOn (m >>= f) d := by
  intro e d' failed
  cases hrun : m.run d with
  | error e₁ d₁ =>
      rw [run_bind_error hrun] at failed
      obtain ⟨rfl, rfl⟩ := EStateM.Result.error.inj failed
      exact first e₁ d₁ hrun
  | ok a d₁ =>
      obtain ⟨b, d₂, rest, -⟩ := second a d₁
      rw [run_bind_ok hrun, rest] at failed
      cases failed

theorem AtomicOn.bind_pure (f : α → β) (h : AtomicOn m d) : AtomicOn (m >>= fun a => pure (f a)) d :=
  h.bind fun _ => yields_pure trivial

theorem AtomicOn.map (f : α → β) (h : AtomicOn m d) : AtomicOn (f <$> m) d := by
  rw [map_eq_pure_bind]
  exact h.bind_pure f

end AtomicOn

variable [ConstraintForm F κ] [UniformForm F κ] {a b c x : LinearCombination F} {d : Draft F κ}

/-! ## Operations that do not fail -/

omit [UniformForm F κ] in
theorem succeeds_pin (k : F.Elem) : Succeeds (pin k : Synthesis F κ Wire) := by
  unfold pin
  apply yields_get_bind
  intro d
  split
  · exact yields_pure trivial
  · exact (succeeds_uniform freshWire).bind fun wire _ => (succeeds_uniform (emit _)).bind fun _ _ =>
      (succeeds_rememberConstant k wire).bind fun _ _ => yields_pure trivial

theorem succeeds_toWire (x : LinearCombination F) : Succeeds (toWire x : Synthesis F κ Wire) := by
  unfold toWire
  split
  · exact yields_pure trivial
  · exact succeeds_pin _
  · exact succeeds_uniform _

/-- The result is a bare wire. -/
theorem yields_toWire (x : LinearCombination F) :
    Yields (ofWire <$> toWire x : Synthesis F κ (LinearCombination F)) fun y => ∃ wire, y = ofWire wire :=
  (succeeds_toWire x).map fun wire _ => ⟨wire, rfl⟩

theorem yields_mul (ha : a.asConstant? = none) (hb : b.asConstant? = none) :
    Yields (mul a b : Synthesis F κ (LinearCombination F)) fun y => ∃ wire, y = ofWire wire := by
  rw [mul_of_neither ha hb]
  exact (succeeds_uniform _).bind fun _ _ => (succeeds_uniform _).bind fun _ _ => (succeeds_uniform freshWire).bind
    fun wire _ => (succeeds_uniform (emit _)).bind fun _ _ => yields_pure ⟨wire, rfl⟩

theorem succeeds_mul (a b : LinearCombination F) : Succeeds (mul a b : Synthesis F κ (LinearCombination F)) := by
  cases ha : a.asConstant? with
  | some k =>
      rw [mul_of_constant_left ha]
      exact yields_pure trivial
  | none =>
      cases hb : b.asConstant? with
      | some k =>
          rw [mul_of_constant_right ha hb]
          exact yields_pure trivial
      | none => exact (yields_mul ha hb).succeeds

theorem succeeds_assertEqual (h : (a - b).asConstant? = none) : Succeeds (assertEqual a b : Synthesis F κ Unit) := by
  rw [assertEqual_of_not_constant h]
  exact succeeds_uniform _

theorem succeeds_assertProduct (ha : a.asConstant? = none) (hb : b.asConstant? = none) :
    Succeeds (assertProduct a b c : Synthesis F κ Unit) := by
  rw [assertProduct_of_neither ha hb]
  exact (succeeds_uniform _).bind fun _ _ => (succeeds_uniform _).bind fun _ _ => (succeeds_uniform _).bind
    fun _ _ => succeeds_uniform (emit _)

theorem succeeds_constrainBoolean (x : LinearCombination F) :
    Succeeds (constrainBoolean x : Synthesis F κ Unit) := by
  refine (succeeds_uniform (ConstraintForm.factor x)).bind fun y _ => ?_
  split
  · refine yields_get_bind fun d => ?_
    split
    · exact (succeeds_markBoolean _).bind fun _ _ => succeeds_uniform (emit _)
    · exact yields_pure trivial
  · exact succeeds_uniform (emit _)

theorem yields_hint (name : String) (inputs : List (LinearCombination F)) (outputs : Nat) :
    Yields (hint name inputs outputs : Synthesis F κ (List (LinearCombination F))) fun ys =>
      ∃ wires : List Wire, wires.length = outputs ∧ ys = wires.map ofWire :=
  (succeeds_mapM succeeds_toWire inputs).bind fun wires _ => (yields_bindHint name wires outputs).bind
    fun fresh length => yields_pure ⟨fresh, length, rfl⟩

theorem yields_hintValue (name : String) (inputs : List (LinearCombination F)) :
    Yields (hintValue name inputs : Synthesis F κ (LinearCombination F)) fun y => ∃ wire, y = ofWire wire := by
  refine (yields_hint name inputs 1).bind fun ys one => ?_
  obtain ⟨wires, length, rfl⟩ := one
  obtain ⟨wire, rfl⟩ := List.length_eq_one_iff.mp length
  exact yields_pure ⟨wire, rfl⟩

theorem succeeds_selectOn (hc : c.asConstant? = none) :
    Succeeds (selectOn c a b : Synthesis F κ (LinearCombination F)) := by
  have asserted : Succeeds (assertBoolean c : Synthesis F κ Unit) := by
    rw [assertBoolean_of_not_constant hc]
    exact succeeds_constrainBoolean c
  exact asserted.bind fun _ _ => (succeeds_mul c (a - b)).bind fun _ _ => yields_pure trivial

theorem succeeds_isZero (x : LinearCombination F) : Succeeds (isZero x : Synthesis F κ (LinearCombination F)) := by
  cases hx : x.asConstant? with
  | some k =>
      rw [isZero_of_constant hx]
      exact yields_pure trivial
  | none =>
      rw [isZero_of_not_constant hx]
      refine (yields_hintValue _ _).bind fun _ ⟨inverse, hinverse⟩ => ?_
      refine (yields_mul hx (hinverse ▸ rfl)).bind fun _ ⟨product, hproduct⟩ => ?_
      rw [hproduct]
      exact (succeeds_assertProduct hx (LinearCombination.one_sub_ofWire_not_constant product)).bind
        fun _ _ => yields_pure trivial

/-! ## Operations that fail at once or not at all -/

omit [ConstraintForm F κ] [UniformForm F κ] in
theorem atomicOn_constantInverse (k : F.Elem) (d : Draft F κ) :
    AtomicOn (constantInverse k : Synthesis F κ F.Elem) d := by
  unfold constantInverse
  split
  · exact atomicOn_of_ok (run_pure _)
  · exact atomicOn_fail _

theorem atomicOn_assertEqual (a b : LinearCombination F) (d : Draft F κ) :
    AtomicOn (assertEqual a b : Synthesis F κ Unit) d := by
  cases hk : (a - b).asConstant? with
  | none => exact (succeeds_assertEqual hk).atomicOn d
  | some k =>
      rw [assertEqual_of_constant hk]
      split
      · exact atomicOn_fail _
      · exact atomicOn_of_ok (run_pure ())

theorem atomicOn_assertProduct (a b c : LinearCombination F) (d : Draft F κ) :
    AtomicOn (assertProduct a b c : Synthesis F κ Unit) d := by
  cases ha : a.asConstant? with
  | some k =>
      rw [assertProduct_of_constant_left ha]
      exact atomicOn_assertEqual _ _ d
  | none =>
      cases hb : b.asConstant? with
      | some k =>
          rw [assertProduct_of_constant_right ha hb]
          exact atomicOn_assertEqual _ _ d
      | none => exact (succeeds_assertProduct ha hb).atomicOn d

theorem atomicOn_assertBoolean (x : LinearCombination F) (d : Draft F κ) :
    AtomicOn (assertBoolean x : Synthesis F κ Unit) d := by
  cases hx : x.asConstant? with
  | none =>
      rw [assertBoolean_of_not_constant hx]
      exact (succeeds_constrainBoolean x).atomicOn d
  | some k =>
      rw [assertBoolean_of_constant hx]
      apply atomicOn_get_bind
      split
      · split
        · exact atomicOn_fail _
        · exact atomicOn_of_ok (run_pure ())
      · exact Succeeds.atomicOn ((succeeds_pin k).bind fun wire _ => succeeds_constrainBoolean (ofWire wire)) d

theorem atomicOn_div (a b : LinearCombination F) (d : Draft F κ) :
    AtomicOn (div a b : Synthesis F κ (LinearCombination F)) d := by
  cases hb : b.asConstant? with
  | some k =>
      rw [div_of_constant hb]
      exact (atomicOn_constantInverse k d).map _
  | none =>
      rw [div_of_not_constant hb]
      refine Succeeds.atomicOn ?_ d
      refine (yields_toWire a).bind fun _ _ => (yields_toWire b).bind fun _ ⟨divisor, hdivisor⟩ => ?_
      refine (yields_hintValue _ _).bind fun _ ⟨quotient, hquotient⟩ => ?_
      exact (succeeds_assertProduct (hdivisor ▸ rfl) (hquotient ▸ rfl)).bind fun _ _ => yields_pure trivial

theorem atomicOn_inverse (a : LinearCombination F) (d : Draft F κ) :
    AtomicOn (inverse a : Synthesis F κ (LinearCombination F)) d := by
  cases ha : a.asConstant? with
  | some k =>
      rw [inverse_of_constant ha]
      exact (atomicOn_constantInverse k d).map _
  | none =>
      rw [inverse_of_not_constant ha]
      refine Succeeds.atomicOn ?_ d
      refine (yields_toWire a).bind fun _ ⟨wire, hwire⟩ => (yields_hintValue _ _).bind fun _ ⟨result, hresult⟩ => ?_
      exact (succeeds_assertProduct (hwire ▸ rfl) (hresult ▸ rfl)).bind fun _ _ => yields_pure trivial

theorem atomicOn_select (c a b : LinearCombination F) (d : Draft F κ) :
    AtomicOn (select c a b : Synthesis F κ (LinearCombination F)) d := by
  cases hc : c.asConstant? with
  | none =>
      rw [select_of_not_constant hc]
      exact (succeeds_selectOn hc).atomicOn d
  | some k =>
      rw [select_of_constant hc]
      apply atomicOn_get_bind
      split
      · split
        · exact atomicOn_of_ok (run_pure a)
        · split
          · exact atomicOn_of_ok (run_pure b)
          · exact atomicOn_fail _
      · exact Succeeds.atomicOn ((succeeds_pin k).bind fun wire _ => succeeds_selectOn (c := ofWire wire) rfl) d

/-! ## Operations on wires of the draft -/

section Wires

variable [LawfulForm F κ]

theorem run_digitWires_ok {width : Nat} (pos : 0 < width) (hx : x.Below d.size) :
    ∃ digits d', (digitWires x width : Synthesis F κ (List (LinearCombination F))).run d = .ok digits d' := by
  obtain ⟨wire, d₁, hwire, -⟩ := succeeds_toWire x d
  obtain ⟨d₂, hinted, -, -, -⟩ := run_hint_one hwire Hint.bitsName width
  have asserted : Succeeds (((Wire.span d₁.size width).map ofWire).forM assertBoolean : Synthesis F κ PUnit) := by
    refine succeeds_forM (List.forall_mem_map.mpr fun digit _ => ?_)
    -- a wire is no constant
    rw [assertBoolean_of_not_constant (by rfl)]
    exact succeeds_constrainBoolean (ofWire digit)
  have equated : Succeeds (assertEqual (.ofBits ((Wire.span d₁.size width).map ofWire)) x : Synthesis F κ Unit) :=
    succeeds_assertEqual (sum_not_constant pos (hx.mono (grows_of_ok hwire).size_le))
  obtain ⟨_, d₃, hasserted, -⟩ := asserted d₂
  obtain ⟨_, d₄, hequated, -⟩ := equated d₃
  rw [digitWires, run_bind_ok hinted, run_bind_ok hasserted, run_bind_ok hequated]
  exact ⟨_, _, run_pure _⟩

theorem atomicOn_toBits (hx : x.Below d.size) (width : Nat) :
    AtomicOn (toBits x width : Synthesis F κ (List (LinearCombination F))) d := by
  unfold toBits
  split
  · exact atomicOn_fail _
  · obtain ⟨digits, d', hrun⟩ := run_digitWires_ok (κ := κ) (show 0 < width by omega) hx
    split
    · exact atomicOn_of_ok hrun
    · apply atomicOn_get_bind
      split
      · split
        · exact atomicOn_of_ok (run_pure _)
        · exact atomicOn_fail _
      · exact atomicOn_of_ok hrun

theorem run_packChunks_ok (name : String) (i : Nat) {pieces : List (List (LinearCombination F))}
    (below : ∀ piece ∈ pieces, ∀ x ∈ piece, x.Below d.size) :
    ∃ results d', (packChunks name i pieces : Synthesis F κ (List (LinearCombination F))).run d = .ok results d' := by
  induction pieces generalizing i d with
  | nil => exact ⟨_, _, run_pure _⟩
  | cons piece rest ih =>
      obtain ⟨hpiece, hrest⟩ := List.forall_mem_cons.mp below
      have declared := run_input (d := d) .publicInput s!"{name}[{i}]"
      have different := (LinearCombination.below_ofBits hpiece).sub_ofWire_not_constant
      obtain ⟨_, d₁, hequated, -⟩ := succeeds_assertEqual (κ := κ) different (d.declare .publicInput s!"{name}[{i}]")
      have grows := (Draft.Grows.declare .publicInput s!"{name}[{i}]").trans (grows_of_ok hequated)
      obtain ⟨results, d₂, hpacked⟩ := ih (i + 1) fun piece hpiece x hx => grows.below (hrest piece hpiece x hx)
      rw [packChunks, publicInput, run_bind_ok declared, run_bind_ok hequated, run_bind_ok hpacked]
      exact ⟨_, _, run_pure _⟩

end Wires

end Synthesis

/-! ## Steps -/

/-- A table is looked up by three choices. The first ones have changed the draft when the last one fails. -/
def Operation.checksFirst : Operation F → Bool
  | .lookup2 .. => false
  | _ => true

namespace Synthesis

variable [ConstraintForm F κ] [UniformForm F κ] [LawfulForm F κ] {d : Draft F κ}

theorem atomicOn_synthesize {registers : Registers F} (below : registers.Below d.size) {operation : Operation F}
    (checks : operation.checksFirst) (closed : ∀ x ∈ operation.operands, x.Closed) :
    AtomicOn (operation.synthesize registers : Synthesis F κ (List (LinearCombination F))) d := by
  have read : ∀ x ∈ operation.operands, (registers.read x).Below d.size := fun x hx => below.read (closed x hx)
  cases operation with
  | publicInput name => exact ((yields_input .publicInput name).succeeds.atomicOn d).map _
  | secretInput name => exact ((yields_input .secretInput name).succeeds.atomicOn d).map _
  | constant | add | sub | neg | scale | ofBits | not => exact atomicOn_of_ok (run_pure _)
  | toWire a => exact ((succeeds_toWire _).atomicOn d).bind_pure _
  | mul a b => exact ((succeeds_mul _ _).atomicOn d).map _
  | div a b => exact (atomicOn_div _ _ d).map _
  | inverse a => exact (atomicOn_inverse _ d).map _
  | select c a b => exact (atomicOn_select _ _ _ d).map _
  | assertProduct a b c => exact (atomicOn_assertProduct _ _ _ d).bind_pure _
  | assertEqual a b => exact (atomicOn_assertEqual _ _ d).bind_pure _
  | assertBoolean a => exact (atomicOn_assertBoolean _ d).bind_pure _
  | toBits a width => exact atomicOn_toBits (read a List.mem_cons_self) width
  | hint name inputs outputs => exact (yields_hint name _ outputs).succeeds.atomicOn d
  | and a b => exact ((succeeds_mul _ _).atomicOn d).map _
  | or a b | xor a b => exact (((succeeds_mul _ _).atomicOn d).bind_pure _).map _
  | isZero a => exact ((succeeds_isZero _).atomicOn d).map _
  | isEqual a b => exact ((succeeds_isZero _).atomicOn d).map _
  | assertNonZero a => exact ((atomicOn_inverse _ d).map _).bind_pure _
  | lookup2 => cases checks
  | packIntoInputs name bits =>
      have hbits : ∀ bit ∈ bits.map registers.read, bit.Below d.size := List.forall_mem_map.mpr read
      have hpieces : ∀ piece ∈ chunks F.capacity (bits.map registers.read), ∀ bit ∈ piece, bit.Below d.size :=
        fun _ hpiece bit hbit => hbits bit (mem_of_mem_chunks hpiece hbit)
      obtain ⟨results, d', hrun⟩ := run_packChunks_ok (κ := κ) name 0 hpieces
      exact atomicOn_of_ok hrun
  | packBits bits => exact (((succeeds_toWire _).atomicOn d).map _).map _

end Synthesis

/-! ## Runs -/

namespace Circuit

/-- The steps without those that failed. -/
def succeeding (number : Nat) : List (Step F) → List (StepRecord F) → List (Step F)
  | [], _ => []
  | step :: rest, records =>
    if step.onlyIn.any (· ≠ number) then step :: succeeding number rest records
    else match records with
      | [] => []
      | record :: records =>
        match record.outcome with
        | .ok _ => step :: succeeding number rest records
        | .error _ => succeeding number rest records

section Runs

variable [ConstraintForm F κ] [UniformForm F κ] [LawfulForm F κ]

theorem runSteps_succeeding (prime : F.modulus.Prime) {number : Nat} {steps : List (Step F)}
    (checks : ∀ step ∈ steps, step.operation.checksFirst)
    (closed : ∀ step ∈ steps, ∀ x ∈ step.operation.operands, x.Closed) {d : Draft F κ} (coherent : d.Coherent)
    {registers : Registers F} (below : registers.Below d.size) (keepsGoing : Bool) :
    runSteps keepsGoing number (succeeding number steps (runSteps true number steps registers d).transcript) registers d
      = ⟨(runSteps true number steps registers d).draft,
        (runSteps true number steps registers d).transcript.filter (·.outcome.isOk), none⟩ := by
  induction steps generalizing registers d with
  | nil => rfl
  | cons step rest ih =>
      obtain ⟨hchecks, checks⟩ := List.forall_mem_cons.mp checks
      obtain ⟨hclosed, closed⟩ := List.forall_mem_cons.mp closed
      by_cases skipped : step.onlyIn.any (· ≠ number) = true
      · simp only [runSteps, succeeding, skipped, ↓reduceIte]
        exact ih checks closed coherent below
      · have ensures := Synthesis.ensures_synthesize (κ := κ) prime coherent below step.operation hclosed
        cases hrun : (step.operation.synthesize registers : Synthesis F κ _).run d with
        | ok results d' =>
            obtain ⟨coherent', hresults⟩ := ensures.of_run hrun
            have below' := (below.mono (Synthesis.grows_of_ok hrun).size_le).store step hresults.below
            simp only [runSteps, succeeding, skipped, Bool.false_eq_true, ↓reduceIte, hrun, Definition.prepend]
            rw [ih checks closed coherent' below']
            rfl
        | error e d' =>
            obtain rfl : d' = d := Synthesis.atomicOn_synthesize below hchecks hclosed e d' hrun
            simp only [runSteps, succeeding, skipped, Bool.false_eq_true, ↓reduceIte, hrun, Definition.prepend]
            exact ih checks closed coherent below

end Runs

/-- An operation on constants and on wires of the draft that fails, and is no table, leaves the draft as it was. So
where failed steps are passed over, the circuit without them gives the same draft and the same results, and it does
not fail. -/
theorem failures_leave_no_trace (prime : F.modulus.Prime) (backend : Backend) :
    (∀ (d : Draft F (backend.Form F)) (registers : Registers F), registers.Below d.size →
      ∀ operation : Operation F, operation.checksFirst → (∀ x ∈ operation.operands, x.Closed) →
        ∀ e d', (operation.synthesize registers).run d = .error e d' → d' = d) ∧
    ∀ circuit : Circuit F, circuit.Closed → circuit.keepsGoing → (∀ step ∈ circuit.steps, step.operation.checksFirst) →
      ∀ (sharesConstants : Bool) (number : Nat) (definition : Definition F (backend.Form F)),
        circuit.define (backend.Form F) sharesConstants number = definition →
        Circuit.define (backend.Form F) ⟨succeeding number circuit.steps definition.transcript, false⟩
            sharesConstants number
          = ⟨definition.draft, definition.transcript.filter (·.outcome.isOk), none⟩ := by
  constructor
  · intro d registers below operation checks closed
    exact Synthesis.atomicOn_synthesize below checks closed
  · rintro ⟨steps, keepsGoing⟩ closed rfl checks sharesConstants number definition rfl
    exact runSteps_succeeding prime checks closed (Draft.coherent_empty sharesConstants) Registers.below_nil false

/-- A circuit that divides by zero and goes on. -/
def undeterred : Circuit .seven where
  steps := [
    { operation := .secretInput "x", out := some "x" },
    { operation := .div (.register "x") (.literal .zero), out := some "y" },
    { operation := .inverse (.register "x"), out := some "y" }]
  keepsGoing := true

/-- The division might as well not be there. -/
theorem undeterred_no_trace :
    (∃ e d', (Operation.synthesize [("x", ofWire ⟨0⟩)] (.div (.register "x") (.literal .zero))).run
        (undeterred.define (Backend.gate.Form .seven) true 0).draft = .error e d' ∧
      d' = (undeterred.define (Backend.gate.Form .seven) true 0).draft) ∧
    (Circuit.define (Backend.gate.Form .seven) ⟨[undeterred.steps[0], undeterred.steps[2]], false⟩ true 0).draft
      = (undeterred.define (Backend.gate.Form .seven) true 0).draft := by
  obtain ⟨step, run⟩ := failures_leave_no_trace PrimeField.prime_seven .gate
  constructor
  · have below : Registers.Below (undeterred.define (Backend.gate.Form .seven) true 0).draft.size
        [("x", (ofWire ⟨0⟩ : LinearCombination .seven))] :=
      List.forall_mem_singleton.mpr (LinearCombination.below_ofWire.mpr (by decide))
    obtain ⟨e, d', failed⟩ : ∃ e d', (Operation.synthesize [("x", ofWire ⟨0⟩)]
        (.div (.register "x") (.literal .zero))).run
          (undeterred.define (Backend.gate.Form .seven) true 0).draft = .error e d' := ⟨_, _, rfl⟩
    exact ⟨e, d', failed, step _ _ below _ rfl (by decide) e d' failed⟩
  · have same := run undeterred (by decide) rfl (by decide) true 0 _ rfl
    have steps : succeeding 0 undeterred.steps (undeterred.define (Backend.gate.Form .seven) true 0).transcript
      = [undeterred.steps[0], undeterred.steps[2]] := by decide +kernel
    rw [steps] at same
    rw [same]

/-- A table that fails at its last choice keeps the wires and the constraints of the first two. -/
example : ∃ e d', (Operation.synthesize [("x", ofWire ⟨0⟩), ("y", ofWire ⟨1⟩)] (.lookup2 (.register "x")
      (.literal (.ofConstant 2)) (.register "y") (.literal .zero) (.register "y") (.literal .zero))).run
    (undeterred.define (Backend.gate.Form .seven) true 0).draft = .error e d' ∧
    d'.size ≠ (undeterred.define (Backend.gate.Form .seven) true 0).draft.size :=
  ⟨_, _, rfl, by decide +kernel⟩

end Circuit

end ArithCircuit
