import ArithCircuit.Circuit.Definition
import ArithCircuit.Proofs.Synthesis.Lawful

/-!
# The operations by cases

What an operation does depends on which of its operands are constants. In every case the draft
evolves.
-/

namespace ArithCircuit.Synthesis

variable {F : PrimeField} {κ : Type} [ConstraintForm F κ]

open LinearCombination (ofConstant ofWire)

/-! ## Cases -/

section Cases

variable {d d₁ : Draft F κ} {a b c x : LinearCombination F} {k : F.Elem} {wire : Wire}

theorem toWire_of_wire (h : x.asWire? = some wire) : (toWire x : Synthesis F κ Wire) = pure wire := by
  simp [toWire, h]

theorem toWire_of_constant (hwire : x.asWire? = none) (hk : x.asConstant? = some k) :
    (toWire x : Synthesis F κ Wire) = pin k := by
  simp [toWire, hwire, hk]

theorem toWire_of_neither (hwire : x.asWire? = none) (hk : x.asConstant? = none) :
    (toWire x : Synthesis F κ Wire) = ConstraintForm.materialize x := by
  simp [toWire, hwire, hk]

theorem mul_of_constant_left (h : a.asConstant? = some k) :
    (mul a b : Synthesis F κ (LinearCombination F)) = pure (b.scale k) := by
  simp [mul, h]

theorem mul_of_constant_right (ha : a.asConstant? = none) (hb : b.asConstant? = some k) :
    (mul a b : Synthesis F κ (LinearCombination F)) = pure (a.scale k) := by
  simp [mul, ha, hb]

theorem mul_of_neither (ha : a.asConstant? = none) (hb : b.asConstant? = none) :
    (mul a b : Synthesis F κ (LinearCombination F)) = (do
      let x ← ConstraintForm.factor (κ := κ) a
      let y ← ConstraintForm.factor (κ := κ) b
      let wire ← freshWire
      emit (ConstraintForm.product x y (ConstraintForm.wireFactor (κ := κ) wire))
      return ofWire wire) := by
  simp [mul, ha, hb]

theorem assertEqual_of_constant (h : (a - b).asConstant? = some k) :
    (assertEqual a b : Synthesis F κ Unit)
      = if k ≠ 0 then fail (.malformed · .distinctConstants) else pure () := by
  simp [assertEqual, h]

theorem assertEqual_of_not_constant (h : (a - b).asConstant? = none) :
    (assertEqual a b : Synthesis F κ Unit) = ConstraintForm.enforceZero (a - b) := by
  simp [assertEqual, h]

theorem assertProduct_of_constant_left (h : a.asConstant? = some k) :
    (assertProduct a b c : Synthesis F κ Unit) = assertEqual (b.scale k) c := by
  simp [assertProduct, h]

theorem assertProduct_of_constant_right (ha : a.asConstant? = none) (hb : b.asConstant? = some k) :
    (assertProduct a b c : Synthesis F κ Unit) = assertEqual (a.scale k) c := by
  simp [assertProduct, ha, hb]

theorem assertProduct_of_neither (ha : a.asConstant? = none) (hb : b.asConstant? = none) :
    (assertProduct a b c : Synthesis F κ Unit) = (do
      let x ← ConstraintForm.factor (κ := κ) a
      let y ← ConstraintForm.factor (κ := κ) b
      let z ← ConstraintForm.factor (κ := κ) c
      emit (ConstraintForm.product x y z)) := by
  simp [assertProduct, ha, hb]

theorem assertBoolean_of_not_constant (h : x.asConstant? = none) :
    (assertBoolean x : Synthesis F κ Unit) = constrainBoolean x := by
  simp [assertBoolean, h]

theorem assertBoolean_of_constant (h : x.asConstant? = some k) :
    (assertBoolean x : Synthesis F κ Unit) = (do
      if (← get).sharesConstants then
        if k ≠ 0 ∧ k ≠ 1 then fail (.malformed · .nonBooleanConstant)
      else constrainBoolean (ofWire (← pin k))) := by
  simp [assertBoolean, h]

theorem div_of_constant (h : b.asConstant? = some k) :
    (div a b : Synthesis F κ (LinearCombination F)) = a.scale <$> constantInverse k := by
  simp [div, h]

theorem div_of_not_constant (h : b.asConstant? = none) :
    (div a b : Synthesis F κ (LinearCombination F)) = (do
      let a ← ofWire <$> toWire a
      let b ← ofWire <$> toWire b
      let quotient ← hintValue Hint.divName [a, b]
      assertProduct b quotient a
      return quotient) := by
  simp [div, h]

theorem inverse_of_constant (h : a.asConstant? = some k) :
    (inverse a : Synthesis F κ (LinearCombination F)) = ofConstant <$> constantInverse k := by
  simp [inverse, h]

theorem inverse_of_not_constant (h : a.asConstant? = none) :
    (inverse a : Synthesis F κ (LinearCombination F)) = (do
      let a ← ofWire <$> toWire a
      let y ← hintValue Hint.invertName [a]
      assertProduct a y (ofConstant 1)
      return y) := by
  simp [inverse, h]

theorem select_of_not_constant (h : c.asConstant? = none) :
    (select c a b : Synthesis F κ (LinearCombination F)) = selectOn c a b := by
  simp [select, h]

theorem select_of_constant (h : c.asConstant? = some k) :
    (select c a b : Synthesis F κ (LinearCombination F)) = (do
      if (← get).sharesConstants then
        if k = 1 then return a
        else if k = 0 then return b
        else fail (.malformed · .nonBooleanCondition)
      else selectOn (ofWire (← pin k)) a b) := by
  simp [select, h]

theorem isZero_of_constant (h : x.asConstant? = some k) :
    (isZero x : Synthesis F κ (LinearCombination F)) = pure (ofConstant (if k = 0 then 1 else 0)) := by
  simp [isZero, h]

theorem isZero_of_not_constant (h : x.asConstant? = none) :
    (isZero x : Synthesis F κ (LinearCombination F)) = (do
      let inverse ← hintValue Hint.inverseOrZeroName [x]
      let product ← mul x inverse
      assertProduct x (ofConstant 1 - product) .zero
      return ofConstant 1 - product) := by
  simp [isZero, h]

/-! ## Runs -/

omit [ConstraintForm F κ] in
theorem mem_constants (h : d.constantWire? k = some wire) : (k, wire) ∈ d.constants := by
  obtain ⟨before, after, split, -⟩ := List.lookup_eq_some_iff.mp h
  simp [split]

theorem run_pin_of_known (h : d.constantWire? k = some wire) :
    (pin k : Synthesis F κ Wire).run d = .ok wire d := by
  rw [pin, run_bind_ok run_get, h]
  rfl

theorem run_pin_of_unknown (h : d.constantWire? k = none) :
    (pin k : Synthesis F κ Wire).run d
      = .ok ⟨d.size⟩ ((d.define (ConstraintForm.pinned ⟨d.size⟩ k)).remember k ⟨d.size⟩) := by
  rw [pin, run_bind_ok run_get, h]
  rfl

variable {y : ConstraintForm.Factor κ}

theorem run_constrainBoolean_of_no_wire (hrun : (ConstraintForm.factor x : Synthesis F κ _).run d = .ok y d₁)
    (hwire : ConstraintForm.asWire? y = none) :
    (constrainBoolean x : Synthesis F κ Unit).run d = .ok () (d₁.emit (ConstraintForm.boolean y)) := by
  rw [constrainBoolean, run_bind_ok hrun, hwire]
  rfl

theorem run_constrainBoolean_of_new
    (hrun : (ConstraintForm.factor x : Synthesis F κ _).run d = .ok y d₁)
    (hwire : ConstraintForm.asWire? y = some wire) (new : wire ∉ d₁.booleans) :
    (constrainBoolean x : Synthesis F κ Unit).run d
      = .ok () ((d₁.emit (ConstraintForm.boolean y)).mark wire) := by
  rw [constrainBoolean, run_bind_ok hrun, hwire, run_bind_ok run_get, if_pos new]
  rfl

theorem run_constrainBoolean_of_marked
    (hrun : (ConstraintForm.factor x : Synthesis F κ _).run d = .ok y d₁)
    (hwire : ConstraintForm.asWire? y = some wire) (marked : wire ∈ d₁.booleans) :
    (constrainBoolean x : Synthesis F κ Unit).run d = .ok () d₁ := by
  rw [constrainBoolean, run_bind_ok hrun, hwire, run_bind_ok run_get, if_neg (not_not.mpr marked)]
  rfl

end Cases

variable [LawfulForm F κ]

/-! ## Evolution -/

instance evolving_pin (value : F.Elem) : Evolving (pin value : Synthesis F κ Wire) := by
  unfold pin
  refine @evolving_bind _ _ _ _ _ _ _ evolving_get fun draft => ?_
  split <;> infer_instance

instance evolving_toWire (x : LinearCombination F) : Evolving (toWire x : Synthesis F κ Wire) := by
  unfold toWire
  split <;> infer_instance

instance evolving_mul (a b : LinearCombination F) :
    Evolving (mul a b : Synthesis F κ (LinearCombination F)) := by
  unfold mul
  split <;> infer_instance

instance evolving_assertEqual (a b : LinearCombination F) :
    Evolving (assertEqual a b : Synthesis F κ Unit) := by
  unfold assertEqual
  dsimp only
  split <;> infer_instance

instance evolving_assertProduct (a b c : LinearCombination F) :
    Evolving (assertProduct a b c : Synthesis F κ Unit) := by
  unfold assertProduct
  split <;> infer_instance

instance evolving_constrainBoolean (x : LinearCombination F) :
    Evolving (constrainBoolean x : Synthesis F κ Unit) where
  evolves d := by
    cases hrun : (ConstraintForm.factor x : Synthesis F κ _).run d with
    | error e d₁ =>
        have failed : (constrainBoolean x : Synthesis F κ Unit).run d = .error e d₁ := run_bind_error hrun
        rw [left, failed]
        exact evolves_of_error hrun
    | ok y d₁ =>
        have before := evolves_of_ok hrun
        cases hwire : ConstraintForm.asWire? y with
        | none =>
            rw [left_of_ok (run_constrainBoolean_of_no_wire hrun hwire)]
            exact before.emit _
        | some wire =>
            by_cases marked : wire ∈ d₁.booleans
            · rw [left_of_ok (run_constrainBoolean_of_marked hrun hwire marked)]
              exact before
            · rw [left_of_ok (run_constrainBoolean_of_new hrun hwire marked)]
              exact before.mark hwire

instance evolving_assertBoolean (x : LinearCombination F) :
    Evolving (assertBoolean x : Synthesis F κ Unit) := by
  unfold assertBoolean
  split <;> infer_instance

instance evolving_hint (name : String) (inputs : List (LinearCombination F)) (outputs : Nat) :
    Evolving (hint name inputs outputs : Synthesis F κ (List (LinearCombination F))) := by
  unfold hint
  infer_instance

instance evolving_hintValue (name : String) (inputs : List (LinearCombination F)) :
    Evolving (hintValue name inputs : Synthesis F κ (LinearCombination F)) := by
  unfold hintValue
  refine @evolving_bind _ _ _ _ _ _ _ (evolving_hint name inputs 1) fun outputs => ?_
  split <;> infer_instance

omit [ConstraintForm F κ] [LawfulForm F κ] in
instance evolving_constantInverse (value : F.Elem) :
    Evolving (constantInverse value : Synthesis F κ F.Elem) := by
  unfold constantInverse
  split <;> infer_instance

instance evolving_div (a b : LinearCombination F) :
    Evolving (div a b : Synthesis F κ (LinearCombination F)) := by
  unfold div
  split <;> infer_instance

instance evolving_inverse (a : LinearCombination F) :
    Evolving (inverse a : Synthesis F κ (LinearCombination F)) := by
  unfold inverse
  split <;> infer_instance

instance evolving_selectOn (c a b : LinearCombination F) :
    Evolving (selectOn c a b : Synthesis F κ (LinearCombination F)) := by
  unfold selectOn
  infer_instance

instance evolving_select (c a b : LinearCombination F) :
    Evolving (select c a b : Synthesis F κ (LinearCombination F)) := by
  unfold select
  split <;> infer_instance

instance evolving_digitWires (x : LinearCombination F) (width : Nat) :
    Evolving (digitWires x width : Synthesis F κ (List (LinearCombination F))) := by
  unfold digitWires
  infer_instance

instance evolving_toBits (x : LinearCombination F) (width : Nat) :
    Evolving (toBits x width : Synthesis F κ (List (LinearCombination F))) := by
  unfold toBits
  refine @evolving_ite _ _ _ _ _ _ _ _ (evolving_fail _) ?_
  split
  · infer_instance
  · refine @evolving_bind _ _ _ _ _ _ _ evolving_get fun draft => ?_
    refine @evolving_ite _ _ _ _ _ _ _ _ ?_ (evolving_digitWires x width)
    split <;> infer_instance

instance evolving_and (a b : LinearCombination F) :
    Evolving (and a b : Synthesis F κ (LinearCombination F)) :=
  evolving_mul a b

instance evolving_or (a b : LinearCombination F) :
    Evolving (or a b : Synthesis F κ (LinearCombination F)) := by
  unfold or
  infer_instance

instance evolving_xor (a b : LinearCombination F) :
    Evolving (xor a b : Synthesis F κ (LinearCombination F)) := by
  unfold xor
  infer_instance

instance evolving_isZero (x : LinearCombination F) :
    Evolving (isZero x : Synthesis F κ (LinearCombination F)) := by
  unfold isZero
  split <;> infer_instance

instance evolving_isEqual (a b : LinearCombination F) :
    Evolving (isEqual a b : Synthesis F κ (LinearCombination F)) :=
  evolving_isZero _

instance evolving_assertNonZero (x : LinearCombination F) :
    Evolving (assertNonZero x : Synthesis F κ Unit) :=
  evolving_map _ _

instance evolving_lookup2 (b0 b1 t0 t1 t2 t3 : LinearCombination F) :
    Evolving (lookup2 b0 b1 t0 t1 t2 t3 : Synthesis F κ (LinearCombination F)) := by
  unfold lookup2
  infer_instance

instance evolving_packChunks (name : String) (i : Nat) (bits : List (List (LinearCombination F))) :
    Evolving (packChunks name i bits : Synthesis F κ (List (LinearCombination F))) := by
  induction bits generalizing i with
  | nil => exact evolving_pure _
  | cons chunk rest ih =>
      unfold packChunks
      infer_instance

instance evolving_packIntoInputs (name : String) (bits : List (LinearCombination F)) :
    Evolving (packIntoInputs name bits : Synthesis F κ (List (LinearCombination F))) :=
  evolving_packChunks name 0 _

instance evolving_packBits (bits : List (LinearCombination F)) :
    Evolving (packBits bits : Synthesis F κ (LinearCombination F)) :=
  evolving_map _ _

instance evolving_synthesize (registers : Registers F) (operation : Operation F) :
    Evolving (operation.synthesize registers : Synthesis F κ (List (LinearCombination F))) := by
  cases operation <;> unfold Operation.synthesize <;> infer_instance

end ArithCircuit.Synthesis
