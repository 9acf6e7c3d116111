import ArithCircuit.Proofs.Synthesis.Soundness

/-!
# Constraints leave room for the operations

An assignment of the wires so far that gives the operands values the operation is meant for extends to
the fresh wires of the operation. Only the outputs of a hint are chosen; every other fresh wire has its
value by the constraint that came with it.
-/

namespace ArithCircuit.Synthesis

open scoped Fin.CommRing

open ConstraintForm (factor materialize enforceZero)
open LinearCombination (ofConstant ofWire)

variable {F : PrimeField} {κ α β : Type}

section Rules

variable [ToConstraint F κ] {m : Synthesis F κ α} {d : Draft F κ} {value : Wire → F.Elem}

/-- If there is a result, the assignment extends to the fresh wires such that the draft accepts it. -/
def Admits (m : Synthesis F κ α) (d : Draft F κ) (value : Wire → F.Elem) : Prop :=
  ∀ a d', m.run d = .ok a d' → ∃ value', AgreeBelow d.size value value' ∧ d'.Accepts value'

theorem admits_of_run {a : α} {d' : Draft F κ} {value' : Wire → F.Elem} (h : m.run d = .ok a d')
    (agree : AgreeBelow d.size value value') (accepts : d'.Accepts value') : Admits m d value := by
  intro a₁ d₁ hrun
  obtain ⟨rfl, rfl⟩ := EStateM.Result.ok.inj (h.symm.trans hrun)
  exact ⟨value', agree, accepts⟩

theorem admits_pure {a : α} (accepts : d.Accepts value) : Admits (pure a : Synthesis F κ α) d value :=
  admits_of_run (run_pure a) (.refl _ _) accepts

theorem admits_fail {error : Nat → SynthesisError} : Admits (fail error : Synthesis F κ α) d value :=
  fun _ _ hrun => by cases hrun

theorem admits_get_bind {f : Draft F κ → Synthesis F κ α} (h : Admits (f d) d value) :
    Admits (get >>= f) d value :=
  h

theorem Admits.bind {Q : Draft F κ → α → Prop} {f : α → Synthesis F κ β} [Growing m] (first : Admits m d value)
    (ensures : Ensures m d Q)
    (second : ∀ d' a value', d.Grows d' → d'.Coherent → Q d' a → AgreeBelow d.size value value' →
      d'.Accepts value' → Admits (f a) d' value') : Admits (m >>= f) d value := by
  intro b d₂ hrun
  obtain ⟨a, d₁, hfirst, hsecond⟩ := run_of_bind hrun
  obtain ⟨value₁, agree₁, accepts₁⟩ := first a d₁ hfirst
  obtain ⟨coherent₁, hQ⟩ := ensures.of_run hfirst
  have grows := grows_of_ok hfirst
  obtain ⟨value₂, agree₂, accepts₂⟩ := second d₁ a value₁ grows coherent₁ hQ agree₁ accepts₁ b d₂ hsecond
  exact ⟨value₂, agree₁.trans agree₂ grows.size_le, accepts₂⟩

theorem Admits.map {f : α → β} (first : Admits m d value) : Admits (f <$> m) d value := by
  intro b d₁ hrun
  rw [map_eq_pure_bind] at hrun
  obtain ⟨a, d₂, hfirst, last⟩ := run_of_bind hrun
  obtain ⟨-, rfl⟩ := EStateM.Result.ok.inj last
  exact first a d₂ hfirst

end Rules

variable [ConstraintForm F κ] [LawfulForm F κ] {d : Draft F κ} {a b c x : LinearCombination F}
  {value : Wire → F.Elem}

/-! ## Wires -/

section Operations

variable (coherent : d.Coherent) (accepts : d.Accepts value)
include coherent accepts

theorem admits_pin (k : F.Elem) : Admits (pin k : Synthesis F κ Wire) d value := by
  cases found : d.constantWire? k with
  | some wire => exact admits_of_run (run_pin_of_known found) (.refl _ _) accepts
  | none =>
      have defines := LawfulForm.defines_pinned (κ := κ) ⟨d.size⟩ k
      obtain ⟨value', agree, -, accepts'⟩ := coherent.extend_define defines value
      refine admits_of_run (run_pin_of_unknown found) agree ?_
      exact (Draft.accepts_congr (Draft.constraints_remember _ _ _)).mpr (accepts' accepts)

theorem admits_factor (hx : x.Below d.size) :
    Admits (factor x : Synthesis F κ (ConstraintForm.Factor κ)) d value := by
  obtain ⟨y, d', hrun, elaborates, -, -⟩ := LawfulForm.run_factor (κ := κ) hx
  obtain ⟨value', agree, accepts'⟩ := elaborates.extend coherent value
  exact admits_of_run hrun agree (accepts' accepts)

theorem admits_toWire (hx : x.Below d.size) : Admits (toWire x : Synthesis F κ Wire) d value := by
  cases hwire : x.asWire? with
  | some wire =>
      rw [toWire_of_wire hwire]
      exact admits_pure accepts
  | none =>
      cases hk : x.asConstant? with
      | some k =>
          rw [toWire_of_constant hwire hk]
          exact admits_pin coherent accepts k
      | none =>
          rw [toWire_of_neither hwire hk]
          obtain ⟨wire, d', hrun, computes⟩ := LawfulForm.run_materialize (κ := κ) hx
          obtain ⟨value', agree, accepts'⟩ := computes.elaborates.extend coherent value
          exact admits_of_run hrun agree (accepts' accepts)

/-! ## Products and assertions -/

theorem admits_mul (ha : a.Below d.size) (hb : b.Below d.size) :
    Admits (mul a b : Synthesis F κ (LinearCombination F)) d value := by
  cases hka : a.asConstant? with
  | some k =>
      rw [mul_of_constant_left hka]
      exact admits_pure accepts
  | none =>
      cases hkb : b.asConstant? with
      | some k =>
          rw [mul_of_constant_right hka hkb]
          exact admits_pure accepts
      | none =>
          rw [mul_of_neither hka hkb]
          apply (admits_factor coherent accepts ha).bind (ensures_factor coherent ha)
          intro d₁ x value₁ grows₁ coherent₁ hx agree₁ accepts₁
          apply (admits_factor coherent₁ accepts₁ (grows₁.below hb)).bind (ensures_factor coherent₁ (grows₁.below hb))
          intro d₂ y value₂ grows₂ coherent₂ hy agree₂ accepts₂
          have defines := LawfulForm.defines_product (κ := κ) ⟨d₂.size⟩
            (LawfulForm.factorBelow_mono hx.1 grows₂.size_le) hy.1
          obtain ⟨value₃, agree₃, -, accepts₃⟩ := coherent₂.extend_define defines value₂
          refine admits_of_run (a := ofWire ⟨d₂.size⟩) ?_ agree₃ (accepts₃ accepts₂)
          rfl

theorem admits_assertEqual (ha : a.Below d.size) (hb : b.Below d.size)
    (equal : a.evalWith value = b.evalWith value) : Admits (assertEqual a b : Synthesis F κ Unit) d value := by
  cases hk : (a - b).asConstant? with
  | some k =>
      rw [assertEqual_of_constant hk]
      split
      · exact admits_fail
      · exact admits_pure accepts
  | none =>
      rw [assertEqual_of_not_constant hk]
      obtain ⟨d₁, c, hrun, elaborates, -, holds⟩ := LawfulForm.run_enforceZero (κ := κ) (ha.sub hb)
      obtain ⟨value₁, agree₁, accepts₁⟩ := elaborates.extend coherent value
      refine admits_of_run hrun agree₁ (Draft.accepts_emit.mpr ⟨accepts₁ accepts, ?_⟩)
      refine (holds value₁ (accepts₁ accepts)).mpr ?_
      rw [← (ha.sub hb).evalWith_congr agree₁, LinearCombination.evalWith_sub, equal, sub_self]

theorem admits_assertProduct (ha : a.Below d.size) (hb : b.Below d.size) (hc : c.Below d.size)
    (product : a.evalWith value * b.evalWith value = c.evalWith value) :
    Admits (assertProduct a b c : Synthesis F κ Unit) d value := by
  cases hka : a.asConstant? with
  | some k =>
      rw [assertProduct_of_constant_left hka]
      rw [LinearCombination.eq_ofConstant hka, LinearCombination.evalWith_ofConstant] at product
      exact admits_assertEqual coherent accepts (hb.scale k) hc (by rw [LinearCombination.evalWith_scale, product])
  | none =>
      cases hkb : b.asConstant? with
      | some k =>
          rw [assertProduct_of_constant_right hka hkb]
          rw [LinearCombination.eq_ofConstant hkb, LinearCombination.evalWith_ofConstant, mul_comm] at product
          exact admits_assertEqual coherent accepts (ha.scale k) hc
            (by rw [LinearCombination.evalWith_scale, product])
      | none =>
          rw [assertProduct_of_neither hka hkb]
          apply (admits_factor coherent accepts ha).bind (ensures_factor coherent ha)
          intro d₁ x value₁ grows₁ coherent₁ hx agree₁ accepts₁
          have hb₁ := grows₁.below hb
          apply (admits_factor coherent₁ accepts₁ hb₁).bind (ensures_factor coherent₁ hb₁)
          intro d₂ y value₂ grows₂ coherent₂ hy agree₂ accepts₂
          have hc₂ := grows₂.below (grows₁.below hc)
          apply (admits_factor coherent₂ accepts₂ hc₂).bind (ensures_factor coherent₂ hc₂)
          intro d₃ z value₃ grows₃ coherent₃ hz agree₃ accepts₃
          refine admits_of_run (run_emit _) (.refl _ _) (Draft.accepts_emit.mpr ⟨accepts₃, ?_⟩)
          have accepted₂ := grows₃.accepts accepts₃
          have agree := (agree₁.trans agree₂ grows₁.size_le).trans agree₃ (grows₁.trans grows₂).size_le
          rw [LawfulForm.holds_product, hx.2 value₃ (grows₂.accepts accepted₂), hy.2 value₃ accepted₂,
            hz.2 value₃ accepts₃, ← ha.evalWith_congr agree, ← hb.evalWith_congr agree, ← hc.evalWith_congr agree,
            product]

theorem admits_constrainBoolean (hx : x.Below d.size) (digit : PrimeField.IsDigit (x.evalWith value)) :
    Admits (constrainBoolean x : Synthesis F κ Unit) d value := by
  obtain ⟨y, d₁, hrun, elaborates, -, hvalue⟩ := LawfulForm.run_factor (κ := κ) hx
  obtain ⟨value₁, agree₁, accepts₁⟩ := elaborates.extend coherent value
  have emitted : (d₁.emit (ConstraintForm.boolean y)).Accepts value₁ := by
    refine Draft.accepts_emit.mpr ⟨accepts₁ accepts, LawfulForm.holds_boolean.mpr ?_⟩
    rw [hvalue value₁ (accepts₁ accepts), ← hx.evalWith_congr agree₁]
    rcases digit with zero | one
    · rw [zero, zero_mul]
    · rw [one, sub_self, mul_zero]
  cases hwire : ConstraintForm.asWire? y with
  | none => exact admits_of_run (run_constrainBoolean_of_no_wire hrun hwire) agree₁ emitted
  | some wire =>
      by_cases marked : wire ∈ d₁.booleans
      · exact admits_of_run (run_constrainBoolean_of_marked hrun hwire marked) agree₁ (accepts₁ accepts)
      · exact admits_of_run (run_constrainBoolean_of_new hrun hwire marked) agree₁ emitted

theorem admits_assertBoolean (hx : x.Below d.size) (digit : PrimeField.IsDigit (x.evalWith value)) :
    Admits (assertBoolean x : Synthesis F κ Unit) d value := by
  cases hk : x.asConstant? with
  | none =>
      rw [assertBoolean_of_not_constant hk]
      exact admits_constrainBoolean coherent accepts hx digit
  | some k =>
      rw [assertBoolean_of_constant hk]
      apply admits_get_bind
      split
      · split
        · exact admits_fail
        · exact admits_pure accepts
      · apply (admits_pin coherent accepts k).bind (ensures_pin coherent k)
        intro d₁ wire value₁ grows₁ coherent₁ hwire agree₁ accepts₁
        apply admits_constrainBoolean coherent₁ accepts₁ hwire.has.below
        rw [LinearCombination.eq_ofConstant hk, LinearCombination.evalWith_ofConstant] at digit
        rwa [LinearCombination.evalWith_ofWire, hwire.forces value₁ accepts₁]

/-! ## Hints -/

theorem admits_wires {xs : List (LinearCombination F)} (hxs : ∀ x ∈ xs, x.Below d.size) :
    Admits (xs.mapM toWire : Synthesis F κ (List Wire)) d value := by
  induction xs generalizing d value with
  | nil => exact admits_pure accepts
  | cons x xs ih =>
      obtain ⟨hx, hrest⟩ := List.forall_mem_cons.mp hxs
      rw [List.mapM_cons]
      apply (admits_toWire coherent accepts hx).bind (ensures_toWire coherent hx)
      intro d₁ wire value₁ grows₁ coherent₁ _ _ accepts₁
      have hrest₁ : ∀ y ∈ xs, y.Below d₁.size := fun y hy => grows₁.below (hrest y hy)
      apply (ih coherent₁ accepts₁ hrest₁).bind (ensures_wires coherent₁ hrest₁)
      exact fun d₂ wires value₂ _ _ _ _ accepts₂ => admits_pure accepts₂

/-- The output of a hint may have any value. -/
theorem admits_hintValue_bind {inputs : List (LinearCombination F)} (hinputs : ∀ x ∈ inputs, x.Below d.size)
    (name : String) (v : F.Elem) {f : LinearCombination F → Synthesis F κ β}
    (next : ∀ d' r value', d.Grows d' → d'.Coherent → r.Below d'.size → AgreeBelow d.size value value' →
      d'.Accepts value' → r.evalWith value' = v → Admits (f r) d' value') :
    Admits (hintValue name inputs >>= f) d value := by
  intro b d₂ hrun
  obtain ⟨r, d₁, hinted, rest⟩ := run_of_bind hrun
  obtain ⟨coherent₁, below⟩ := (ensures_hintValue coherent hinputs name).of_run hinted
  have grows := grows_of_ok hinted
  obtain ⟨rs, _, hrs, last⟩ := run_of_bind hinted
  obtain ⟨wires, d₀, hwires, bound⟩ := run_of_bind hrs
  rw [run_bind_ok (run_bindHint name wires 1)] at bound
  obtain ⟨rfl, rfl⟩ := EStateM.Result.ok.inj bound
  obtain ⟨rfl, rfl⟩ := EStateM.Result.ok.inj last
  obtain ⟨value₀, agree₀, accepts₀⟩ := admits_wires coherent accepts hinputs wires d₀ hwires
  have coherent₀ := ((ensures_wires coherent hinputs).of_run hwires).1
  have agree₁ : AgreeBelow d₀.size value₀ (Function.update value₀ ⟨d₀.size⟩ v) := .update _ _ _
  have agree := agree₀.trans agree₁ (grows_of_ok hwires).size_le
  obtain ⟨value₂, agree₂, accepts₂⟩ := next _ _ _ grows coherent₁ below agree
    ((coherent₀.accepts_of_agree agree₁).mp accepts₀) (by simp) b d₂ rest
  exact ⟨value₂, agree.trans agree₂ grows.size_le, accepts₂⟩

/-! ## Inverses and choices -/

section Prime

variable (prime : F.modulus.Prime)
include prime

theorem admits_inverse (ha : a.Below d.size) (nonzero : a.evalWith value ≠ 0) :
    Admits (inverse a : Synthesis F κ (LinearCombination F)) d value := by
  cases hk : a.asConstant? with
  | some k =>
      rw [inverse_of_constant hk]
      apply Admits.map
      unfold constantInverse
      split
      · exact admits_pure accepts
      · exact admits_fail
  | none =>
      rw [inverse_of_not_constant hk]
      obtain ⟨y, hy⟩ := PrimeField.inverse?_isSome nonzero
      apply (admits_toWire coherent accepts ha).map.bind (ensures_asWire coherent ha)
      intro d₁ a' value₁ grows₁ coherent₁ ha' agree₁ accepts₁
      apply admits_hintValue_bind coherent₁ accepts₁ (by simp [ha'.below]) _ y
      intro d₂ r value₂ grows₂ coherent₂ hr agree₂ accepts₂ chosen
      have ha₂ := grows₂.below ha'.below
      have h1 := LinearCombination.below_ofConstant (n := d₂.size) (1 : F.Elem)
      refine (admits_assertProduct coherent₂ accepts₂ ha₂ hr h1 ?_).bind (ensures_assertProduct coherent₂ ha₂ hr h1)
        fun _ _ _ _ _ _ _ accepts₃ => admits_pure accepts₃
      rw [chosen, ← ha'.below.evalWith_congr agree₂, ha'.forces value₁ accepts₁, ← ha.evalWith_congr agree₁,
        LinearCombination.evalWith_ofConstant]
      exact PrimeField.mul_of_inverse? prime hy

theorem admits_selectOn (hc : c.Below d.size) (ha : a.Below d.size) (hb : b.Below d.size)
    (digit : PrimeField.IsDigit (c.evalWith value)) :
    Admits (selectOn c a b : Synthesis F κ (LinearCombination F)) d value := by
  unfold selectOn
  apply (admits_assertBoolean coherent accepts hc digit).bind (ensures_assertBoolean prime coherent hc)
  intro d₁ _ value₁ grows₁ coherent₁ _ _ accepts₁
  have hc₁ := grows₁.below hc
  have hab₁ := grows₁.below (ha.sub hb)
  exact (admits_mul coherent₁ accepts₁ hc₁ hab₁).bind (ensures_mul coherent₁ hc₁ hab₁)
    fun _ _ _ _ _ _ _ accepts₂ => admits_pure accepts₂

theorem admits_select (hc : c.Below d.size) (ha : a.Below d.size) (hb : b.Below d.size)
    (digit : PrimeField.IsDigit (c.evalWith value)) :
    Admits (select c a b : Synthesis F κ (LinearCombination F)) d value := by
  cases hk : c.asConstant? with
  | none =>
      rw [select_of_not_constant hk]
      exact admits_selectOn coherent accepts prime hc ha hb digit
  | some k =>
      rw [select_of_constant hk]
      apply admits_get_bind
      split
      · split
        · exact admits_pure accepts
        · split
          · exact admits_pure accepts
          · exact admits_fail
      · apply (admits_pin coherent accepts k).bind (ensures_pin coherent k)
        intro d₁ wire value₁ grows₁ coherent₁ hwire agree₁ accepts₁
        apply admits_selectOn coherent₁ accepts₁ prime hwire.has.below (grows₁.below ha) (grows₁.below hb)
        rw [LinearCombination.eq_ofConstant hk, LinearCombination.evalWith_ofConstant] at digit
        rwa [LinearCombination.evalWith_ofWire, hwire.forces value₁ accepts₁]

/-! ## Gadgets -/

omit prime in
theorem admits_or (ha : a.Below d.size) (hb : b.Below d.size) :
    Admits (or a b : Synthesis F κ (LinearCombination F)) d value := by
  unfold or
  exact (admits_mul coherent accepts ha hb).bind (ensures_mul coherent ha hb)
    fun _ _ _ _ _ _ _ accepts₁ => admits_pure accepts₁

omit prime in
theorem admits_xor (ha : a.Below d.size) (hb : b.Below d.size) :
    Admits (xor a b : Synthesis F κ (LinearCombination F)) d value := by
  unfold xor
  exact (admits_mul coherent accepts ha hb).bind (ensures_mul coherent ha hb)
    fun _ _ _ _ _ _ _ accepts₁ => admits_pure accepts₁

/-- The hint may offer the inverse, or zero for zero: then the product is one unless the flag is. -/
theorem admits_isZero (hx : x.Below d.size) :
    Admits (isZero x : Synthesis F κ (LinearCombination F)) d value := by
  cases hk : x.asConstant? with
  | some k =>
      rw [isZero_of_constant hk]
      exact admits_pure accepts
  | none =>
      rw [isZero_of_not_constant hk]
      apply admits_hintValue_bind coherent accepts (by simpa using hx) _
        ((PrimeField.inverse? (x.evalWith value)).getD 0)
      intro d₁ y value₁ grows₁ coherent₁ hy agree₁ accepts₁ chosen
      have hx₁ := grows₁.below hx
      apply (admits_mul coherent₁ accepts₁ hx₁ hy).bind (ensures_mul coherent₁ hx₁ hy)
      intro d₂ p value₂ grows₂ coherent₂ hp agree₂ accepts₂
      have hx₂ := grows₂.below hx₁
      have hflag : (ofConstant 1 - p).Below d₂.size := (LinearCombination.below_ofConstant 1).sub hp.below
      have hzero := LinearCombination.below_zero (F := F) (n := d₂.size)
      refine (admits_assertProduct coherent₂ accepts₂ hx₂ hflag hzero ?_).bind
        (ensures_assertProduct coherent₂ hx₂ hflag hzero) fun _ _ _ _ _ _ _ accepts₃ => admits_pure accepts₃
      have flag : (ofConstant 1 - p).evalWith value₂ = PrimeField.zeroFlag (x.evalWith value) := by
        rw [LinearCombination.evalWith_sub, LinearCombination.evalWith_ofConstant, hp.forces value₂ accepts₂,
          ← hx₁.evalWith_congr agree₂, ← hy.evalWith_congr agree₂, ← hx.evalWith_congr agree₁, chosen,
          PrimeField.zeroFlag_eq prime]
      rw [flag, ← hx₁.evalWith_congr agree₂, ← hx.evalWith_congr agree₁, PrimeField.mul_zeroFlag,
        LinearCombination.evalWith_zero]

theorem admits_lookup2 {b0 b1 t0 t1 t2 t3 : LinearCombination F} (hb0 : b0.Below d.size) (hb1 : b1.Below d.size)
    (ht0 : t0.Below d.size) (ht1 : t1.Below d.size) (ht2 : t2.Below d.size) (ht3 : t3.Below d.size)
    (digit0 : PrimeField.IsDigit (b0.evalWith value)) (digit1 : PrimeField.IsDigit (b1.evalWith value)) :
    Admits (lookup2 b0 b1 t0 t1 t2 t3 : Synthesis F κ (LinearCombination F)) d value := by
  unfold lookup2
  apply (admits_select coherent accepts prime hb0 ht1 ht0 digit0).bind (ensures_select prime coherent hb0 ht1 ht0)
  intro d₁ low value₁ grows₁ coherent₁ hlow agree₁ accepts₁
  have hb0₁ := grows₁.below hb0
  have ht2₁ := grows₁.below ht2
  have ht3₁ := grows₁.below ht3
  rw [hb0.evalWith_congr agree₁] at digit0
  rw [hb1.evalWith_congr agree₁] at digit1
  apply (admits_select coherent₁ accepts₁ prime hb0₁ ht3₁ ht2₁ digit0).bind
    (ensures_select prime coherent₁ hb0₁ ht3₁ ht2₁)
  intro d₂ high value₂ grows₂ coherent₂ hhigh agree₂ accepts₂
  have hb1₁ := grows₁.below hb1
  rw [hb1₁.evalWith_congr agree₂] at digit1
  exact admits_select coherent₂ accepts₂ prime (grows₂.below hb1₁) hhigh.below (grows₂.below hlow.below) digit1

end Prime

end Operations

end ArithCircuit.Synthesis
