import ArithCircuit.Proofs.Synthesis.Decomposition

/-!
# Constraints enforce the operations

Whatever the hints return, an assignment that satisfies the constraints of an operation gives its
results the values that the operation is there for.
-/

namespace ArithCircuit.Synthesis

open scoped Fin.CommRing

variable {F : PrimeField} {κ : Type}

variable [ConstraintForm F κ] [LawfulForm F κ] {d : Draft F κ} {a b c x : LinearCombination F}

open ConstraintForm (factor materialize enforceZero)
open LinearCombination (ofConstant ofWire)

/-! ## Wires -/

theorem ensures_pin (coherent : d.Coherent) (k : F.Elem) :
    Ensures (pin k : Synthesis F κ Wire) d fun d' wire => d'.HasWire wire fun _ v => v = k := by
  cases found : d.constantWire? k with
  | some wire =>
      obtain ⟨hlt, hvalue⟩ := coherent.constants (k, wire) (mem_constants found)
      exact ensures_of_run (run_pin_of_known found) coherent ⟨hlt, hvalue⟩
  | none =>
      have defines := LawfulForm.defines_pinned (κ := κ) ⟨d.size⟩ k
      have pinned : (d.define (ConstraintForm.pinned ⟨d.size⟩ k : κ)).HasWire ⟨d.size⟩ fun _ v => v = k :=
        ⟨by simp, fun value accepts => (defines.holds_iff value).mp (Draft.accepts_define.mp accepts).2⟩
      exact ensures_of_run (run_pin_of_unknown found)
        ((coherent.define defines).remember pinned.lt pinned.forces) (pinned.grow (.remember _ _))

theorem ensures_materialize (coherent : d.Coherent) (hx : x.Below d.size) :
    Ensures (materialize x : Synthesis F κ Wire) d fun d' wire =>
      d'.HasWire wire fun value v => v = x.evalWith value := by
  obtain ⟨wire, d', hrun, computes⟩ := LawfulForm.run_materialize (κ := κ) hx
  exact ensures_of_run hrun (computes.elaborates.coherent coherent) ⟨computes.wire_lt, computes.value⟩

theorem ensures_toWire (coherent : d.Coherent) (hx : x.Below d.size) :
    Ensures (toWire x : Synthesis F κ Wire) d fun d' wire =>
      d'.HasWire wire fun value v => v = x.evalWith value := by
  cases hwire : x.asWire? with
  | some wire =>
      rw [toWire_of_wire hwire]
      rw [LinearCombination.eq_ofWire hwire] at hx ⊢
      exact ensures_pure coherent ⟨LinearCombination.below_ofWire.mp hx, fun value _ => by simp⟩
  | none =>
      cases hk : x.asConstant? with
      | some k =>
          rw [toWire_of_constant hwire hk, LinearCombination.eq_ofConstant hk]
          simpa using ensures_pin coherent k
      | none =>
          rw [toWire_of_neither hwire hk]
          exact ensures_materialize coherent hx

theorem ensures_asWire (coherent : d.Coherent) (hx : x.Below d.size) :
    Ensures (ofWire <$> toWire x : Synthesis F κ (LinearCombination F)) d fun d' r =>
      d'.Has r fun value v => v = x.evalWith value :=
  (ensures_toWire coherent hx).map fun _ _ _ hwire => hwire.has

theorem ensures_factor (coherent : d.Coherent) (hx : x.Below d.size) :
    Ensures (factor x : Synthesis F κ (ConstraintForm.Factor κ)) d fun d' y =>
      LawfulForm.FactorBelow d'.size y ∧
        d'.Forces fun value => LawfulForm.factorValue value y = x.evalWith value := by
  obtain ⟨y, d', hrun, elaborates, below, hvalue⟩ := LawfulForm.run_factor (κ := κ) hx
  exact ensures_of_run hrun (elaborates.coherent coherent) ⟨below, hvalue⟩

/-! ## Products and assertions -/

theorem ensures_mul (coherent : d.Coherent) (ha : a.Below d.size) (hb : b.Below d.size) :
    Ensures (mul a b : Synthesis F κ (LinearCombination F)) d fun d' r =>
      d'.Has r fun value v => v = a.evalWith value * b.evalWith value := by
  cases hka : a.asConstant? with
  | some k =>
      rw [mul_of_constant_left hka, LinearCombination.eq_ofConstant hka]
      exact ensures_pure coherent ⟨hb.scale k, fun value _ => by simp⟩
  | none =>
      cases hkb : b.asConstant? with
      | some k =>
          rw [mul_of_constant_right hka hkb, LinearCombination.eq_ofConstant hkb]
          exact ensures_pure coherent ⟨ha.scale k, fun value _ => by simp [mul_comm]⟩
      | none =>
          rw [mul_of_neither hka hkb]
          apply (ensures_factor coherent ha).bind
          intro d₁ x grows₁ coherent₁ hx
          apply (ensures_factor coherent₁ (grows₁.below hb)).bind
          intro d₂ y grows₂ coherent₂ hy
          have defines := LawfulForm.defines_product (κ := κ) ⟨d₂.size⟩
            (LawfulForm.factorBelow_mono hx.1 grows₂.size_le) hy.1
          refine ensures_of_run (a := ofWire ⟨d₂.size⟩) ?_ (coherent₂.define defines) ?_
          · rfl
          refine Draft.HasWire.has ⟨by simp, fun value accepts => ?_⟩
          obtain ⟨accepts₂, holds⟩ := Draft.accepts_define.mp accepts
          rw [(defines.holds_iff value).mp holds, hx.2 value (grows₂.accepts accepts₂), hy.2 value accepts₂]

theorem ensures_assertEqual (coherent : d.Coherent) (ha : a.Below d.size) (hb : b.Below d.size) :
    Ensures (assertEqual a b : Synthesis F κ Unit) d fun d' _ =>
      d'.Forces fun value => a.evalWith value = b.evalWith value := by
  cases hk : (a - b).asConstant? with
  | some k =>
      by_cases hzero : k = 0
      · have run : (assertEqual a b : Synthesis F κ Unit).run d = .ok () d := by
          rw [assertEqual_of_constant hk, if_neg (not_not.mpr hzero), run_pure]
        exact ensures_of_run run coherent (assertEqual_forces run)
      · rw [assertEqual_of_constant hk, if_pos hzero]
        exact ensures_fail coherent
  | none =>
      obtain ⟨d₁, c, hrun, elaborates, wires, -⟩ := LawfulForm.run_enforceZero (κ := κ) (ha.sub hb)
      rw [← assertEqual_of_not_constant hk] at hrun
      exact ensures_of_run hrun ((elaborates.coherent coherent).emit wires) (assertEqual_forces hrun)

theorem ensures_assertProduct (coherent : d.Coherent) (ha : a.Below d.size) (hb : b.Below d.size)
    (hc : c.Below d.size) :
    Ensures (assertProduct a b c : Synthesis F κ Unit) d fun d' _ =>
      d'.Forces fun value => a.evalWith value * b.evalWith value = c.evalWith value := by
  cases hka : a.asConstant? with
  | some k =>
      rw [assertProduct_of_constant_left hka, LinearCombination.eq_ofConstant hka]
      simpa using ensures_assertEqual coherent (hb.scale k) hc
  | none =>
      cases hkb : b.asConstant? with
      | some k =>
          rw [assertProduct_of_constant_right hka hkb, LinearCombination.eq_ofConstant hkb]
          simpa [mul_comm] using ensures_assertEqual coherent (ha.scale k) hc
      | none =>
          rw [assertProduct_of_neither hka hkb]
          apply (ensures_factor coherent ha).bind
          intro d₁ x grows₁ coherent₁ hx
          apply (ensures_factor coherent₁ (grows₁.below hb)).bind
          intro d₂ y grows₂ coherent₂ hy
          apply (ensures_factor coherent₂ (grows₂.below (grows₁.below hc))).bind
          intro d₃ z grows₃ coherent₃ hz
          have wires := LawfulForm.product_lt (κ := κ)
            (LawfulForm.factorBelow_mono hx.1 (grows₂.trans grows₃).size_le)
            (LawfulForm.factorBelow_mono hy.1 grows₃.size_le) hz.1
          apply ensures_of_run (run_emit _) (coherent₃.emit wires)
          intro value accepts
          obtain ⟨accepts₃, holds⟩ := Draft.accepts_emit.mp accepts
          have product := LawfulForm.holds_product.mp holds
          have accepts₂ := grows₃.accepts accepts₃
          rwa [hx.2 value (grows₂.accepts accepts₂), hy.2 value accepts₂, hz.2 value accepts₃] at product

theorem ensures_constrainBoolean (prime : F.modulus.Prime) (coherent : d.Coherent) (hx : x.Below d.size) :
    Ensures (constrainBoolean x : Synthesis F κ Unit) d fun d' _ =>
      d'.Forces fun value => PrimeField.IsDigit (x.evalWith value) := by
  obtain ⟨y, d₁, hrun, elaborates, below, -⟩ := LawfulForm.run_factor (κ := κ) hx
  have coherent₁ := elaborates.coherent coherent
  have wires := LawfulForm.boolean_lt (κ := κ) below
  cases hwire : ConstraintForm.asWire? y with
  | none =>
      have run := run_constrainBoolean_of_no_wire hrun hwire
      exact ensures_of_run run (coherent₁.emit wires) (constrainBoolean_forces prime coherent.guarded hx run)
  | some wire =>
      by_cases marked : wire ∈ d₁.booleans
      · have run := run_constrainBoolean_of_marked hrun hwire marked
        exact ensures_of_run run coherent₁ (constrainBoolean_forces prime coherent.guarded hx run)
      · have run := run_constrainBoolean_of_new hrun hwire marked
        obtain ⟨hlt, hfactor⟩ := LawfulForm.asWire?_spec hwire
        have root : ∀ value, (d₁.emit (ConstraintForm.boolean y)).Accepts value →
            value wire * (value wire - 1) = 0 := fun value accepts => by
          rw [← hfactor value]
          exact LawfulForm.holds_boolean.mp (Draft.accepts_emit.mp accepts).2
        exact ensures_of_run run ((coherent₁.emit wires).mark (hlt _ below) root)
          (constrainBoolean_forces prime coherent.guarded hx run)

theorem ensures_assertBoolean (prime : F.modulus.Prime) (coherent : d.Coherent) (hx : x.Below d.size) :
    Ensures (assertBoolean x : Synthesis F κ Unit) d fun d' _ =>
      d'.Forces fun value => PrimeField.IsDigit (x.evalWith value) := by
  cases hk : x.asConstant? with
  | none =>
      rw [assertBoolean_of_not_constant hk]
      exact ensures_constrainBoolean prime coherent hx
  | some k =>
      rw [assertBoolean_of_constant hk, LinearCombination.eq_ofConstant hk]
      apply ensures_get_bind
      split
      · split
        · exact ensures_fail coherent
        · rename_i digit
          apply ensures_pure coherent
          intro value _
          show PrimeField.IsDigit ((ofConstant k).evalWith value)
          rw [LinearCombination.evalWith_ofConstant]
          exact or_iff_not_and_not.mpr digit
      · apply (ensures_pin coherent k).bind
        intro d₁ wire _ coherent₁ hwire
        apply (ensures_constrainBoolean prime coherent₁ hwire.has.below).imp
        intro d₂ _ grows₂ _ digit value accepts
        have digit' : PrimeField.IsDigit ((ofWire wire).evalWith value) := digit value accepts
        rw [LinearCombination.evalWith_ofWire, hwire.forces value (grows₂.accepts accepts)] at digit'
        show PrimeField.IsDigit ((ofConstant k).evalWith value)
        rwa [LinearCombination.evalWith_ofConstant]

/-! ## Hints -/

theorem ensures_wires (coherent : d.Coherent) {xs : List (LinearCombination F)}
    (hxs : ∀ x ∈ xs, x.Below d.size) :
    Ensures (xs.mapM toWire : Synthesis F κ (List Wire)) d fun d' wires =>
      ∀ wire ∈ wires, wire.index < d'.size := by
  induction xs generalizing d with
  | nil => exact ensures_pure coherent (by simp)
  | cons x xs ih =>
      rw [List.mapM_cons]
      apply (ensures_toWire coherent (hxs x (by simp))).bind
      intro d₁ wire grows₁ coherent₁ hwire
      refine (ih coherent₁ fun y hy => grows₁.below (hxs y (by simp [hy]))).bind
        fun d₂ wires grows₂ coherent₂ hwires => ensures_pure coherent₂ fun other hother => ?_
      rcases List.mem_cons.mp hother with rfl | hother
      · exact (hwire.grow grows₂).lt
      · exact hwires other hother

theorem ensures_bindHint (coherent : d.Coherent) {inputs : List Wire}
    (hinputs : ∀ wire ∈ inputs, wire.index < d.size) (name : String) (outputs : Nat) :
    Ensures (bindHint name inputs outputs : Synthesis F κ (List Wire)) d fun d' wires =>
      wires.length = outputs ∧ ∀ wire ∈ wires, wire.index < d'.size := by
  refine ensures_of_run (run_bindHint name inputs outputs) (coherent.bind hinputs rfl rfl)
    ⟨Wire.length_span _ _, fun wire hwire => ?_⟩
  simpa using (Wire.mem_span.mp hwire).2

theorem ensures_hint (coherent : d.Coherent) {inputs : List (LinearCombination F)}
    (hinputs : ∀ x ∈ inputs, x.Below d.size) (name : String) (outputs : Nat) :
    Ensures (hint name inputs outputs : Synthesis F κ (List (LinearCombination F))) d fun d' rs =>
      rs.length = outputs ∧ ∀ r ∈ rs, r.Below d'.size := by
  unfold hint
  apply (ensures_wires coherent hinputs).bind
  intro d₁ wires _ coherent₁ hwires
  apply (ensures_bindHint coherent₁ hwires name outputs).map
  rintro d₂ rs _ ⟨length, hrs⟩
  refine ⟨by simp [length], fun r hr => ?_⟩
  obtain ⟨wire, hwire, rfl⟩ := List.mem_map.mp hr
  exact LinearCombination.below_ofWire.mpr (hrs wire hwire)

theorem ensures_hintValue (coherent : d.Coherent) {inputs : List (LinearCombination F)}
    (hinputs : ∀ x ∈ inputs, x.Below d.size) (name : String) :
    Ensures (hintValue name inputs : Synthesis F κ (LinearCombination F)) d fun d' r => r.Below d'.size := by
  unfold hintValue
  apply (ensures_hint coherent hinputs name 1).bind
  intro d₁ rs _ coherent₁ hrs
  split
  · rename_i r hr
    exact ensures_pure coherent₁ (hrs.2 r (List.mem_of_getLast? hr))
  · exact ensures_fail coherent₁

/-! ## Quotients, choices and digits -/

section Prime

variable (prime : F.modulus.Prime)
include prime

omit [ConstraintForm F κ] [LawfulForm F κ] in
theorem ensures_constantInverse [ToConstraint F κ] (coherent : d.Coherent) (k : F.Elem) :
    Ensures (constantInverse k : Synthesis F κ F.Elem) d fun _ y => k * y = 1 := by
  unfold constantInverse
  split
  · rename_i y hy
    exact ensures_pure coherent (PrimeField.mul_of_inverse? prime hy)
  · exact ensures_fail coherent

theorem ensures_div (coherent : d.Coherent) (ha : a.Below d.size) (hb : b.Below d.size) :
    Ensures (div a b : Synthesis F κ (LinearCombination F)) d fun d' r =>
      d'.Has r fun value v => b.evalWith value * v = a.evalWith value := by
  cases hk : b.asConstant? with
  | some k =>
      rw [div_of_constant hk, LinearCombination.eq_ofConstant hk]
      apply (ensures_constantInverse prime coherent k).map
      intro d₁ y grows₁ hy
      refine ⟨(grows₁.below ha).scale y, fun value _ => ?_⟩
      simp only [LinearCombination.evalWith_ofConstant, LinearCombination.evalWith_scale]
      linear_combination a.evalWith value * hy
  | none =>
      rw [div_of_not_constant hk]
      apply (ensures_asWire coherent ha).bind
      intro d₁ a' grows₁ coherent₁ ha'
      apply (ensures_asWire coherent₁ (grows₁.below hb)).bind
      intro d₂ b' grows₂ coherent₂ hb'
      have ha₂ := ha'.grow grows₂
      apply (ensures_hintValue coherent₂ (by simp [ha₂.below, hb'.below]) _).bind
      intro d₃ q grows₃ coherent₃ hq
      have ha₃ := ha₂.grow grows₃
      have hb₃ := hb'.grow grows₃
      refine (ensures_assertProduct coherent₃ hb₃.below hq ha₃.below).bind
        fun d₄ _ grows₄ coherent₄ product => ensures_pure coherent₄ ⟨grows₄.below hq, fun value accepts => ?_⟩
      rw [← hb₃.forces value (grows₄.accepts accepts), ← ha₃.forces value (grows₄.accepts accepts)]
      exact product value accepts

theorem ensures_inverse (coherent : d.Coherent) (ha : a.Below d.size) :
    Ensures (inverse a : Synthesis F κ (LinearCombination F)) d fun d' r =>
      d'.Has r fun value v => a.evalWith value * v = 1 := by
  cases hk : a.asConstant? with
  | some k =>
      rw [inverse_of_constant hk, LinearCombination.eq_ofConstant hk]
      apply (ensures_constantInverse prime coherent k).map
      intro d₁ y grows₁ hy
      exact ⟨LinearCombination.below_ofConstant y, fun value _ => by simpa using hy⟩
  | none =>
      rw [inverse_of_not_constant hk]
      apply (ensures_asWire coherent ha).bind
      intro d₁ a' grows₁ coherent₁ ha'
      apply (ensures_hintValue coherent₁ (by simp [ha'.below]) _).bind
      intro d₂ y grows₂ coherent₂ hy
      have ha₂ := ha'.grow grows₂
      refine (ensures_assertProduct coherent₂ ha₂.below hy (LinearCombination.below_ofConstant 1)).bind
        fun d₃ _ grows₃ coherent₃ product => ensures_pure coherent₃ ⟨grows₃.below hy, fun value accepts => ?_⟩
      rw [← ha₂.forces value (grows₃.accepts accepts)]
      simpa using product value accepts

theorem ensures_selectOn (coherent : d.Coherent) (hc : c.Below d.size) (ha : a.Below d.size)
    (hb : b.Below d.size) :
    Ensures (selectOn c a b : Synthesis F κ (LinearCombination F)) d fun d' r =>
      d'.Has r fun value => PrimeField.IsChoice (c.evalWith value) (a.evalWith value) (b.evalWith value) := by
  unfold selectOn
  apply (ensures_assertBoolean prime coherent hc).bind
  intro d₁ _ grows₁ coherent₁ digit
  refine (ensures_mul coherent₁ (grows₁.below hc) (grows₁.below (ha.sub hb))).bind
    fun d₂ r grows₂ coherent₂ hr => ensures_pure coherent₂
      ⟨hr.below.add (grows₂.below (grows₁.below hb)), fun value accepts => ?_⟩
  have product : r.evalWith value = c.evalWith value * (a - b).evalWith value := hr.forces value accepts
  rw [LinearCombination.evalWith_sub] at product
  rw [LinearCombination.evalWith_add, product]
  rcases digit value (grows₂.accepts accepts) with zero | one
  · exact .inr ⟨zero, by rw [zero]; ring⟩
  · exact .inl ⟨one, by rw [one]; ring⟩

theorem ensures_select (coherent : d.Coherent) (hc : c.Below d.size) (ha : a.Below d.size)
    (hb : b.Below d.size) :
    Ensures (select c a b : Synthesis F κ (LinearCombination F)) d fun d' r =>
      d'.Has r fun value => PrimeField.IsChoice (c.evalWith value) (a.evalWith value) (b.evalWith value) := by
  cases hk : c.asConstant? with
  | none =>
      rw [select_of_not_constant hk]
      exact ensures_selectOn prime coherent hc ha hb
  | some k =>
      rw [select_of_constant hk, LinearCombination.eq_ofConstant hk]
      apply ensures_get_bind
      split
      · split
        · rename_i one
          exact ensures_pure coherent ⟨ha, fun value _ => .inl ⟨by simpa using one, rfl⟩⟩
        · split
          · rename_i zero
            exact ensures_pure coherent ⟨hb, fun value _ => .inr ⟨by simpa using zero, rfl⟩⟩
          · exact ensures_fail coherent
      · apply (ensures_pin coherent k).bind
        intro d₁ wire grows₁ coherent₁ hwire
        refine (ensures_selectOn prime coherent₁ hwire.has.below (grows₁.below ha) (grows₁.below hb)).imp
          fun d₂ r grows₂ _ hr => hr.imp fun value v accepts choice => ?_
        rwa [LinearCombination.evalWith_ofWire, hwire.forces value (grows₂.accepts accepts),
          ← show (ofConstant k).evalWith value = k from LinearCombination.evalWith_ofConstant k] at choice

theorem ensures_digits (coherent : d.Coherent) {xs : List (LinearCombination F)}
    (hxs : ∀ x ∈ xs, x.Below d.size) :
    Ensures (xs.forM assertBoolean : Synthesis F κ PUnit) d fun _ _ => True := by
  induction xs generalizing d with
  | nil => exact ensures_pure coherent trivial
  | cons x xs ih =>
      apply (ensures_assertBoolean prime coherent (hxs x (by simp))).bind
      exact fun d₁ _ grows₁ coherent₁ _ => ih coherent₁ fun y hy => grows₁.below (hxs y (by simp [hy]))

theorem ensures_digitWires (coherent : d.Coherent) (hx : x.Below d.size) (width : Nat) :
    Ensures (digitWires x width : Synthesis F κ (List (LinearCombination F))) d fun d' rs =>
      ∀ r ∈ rs, r.Below d'.size := by
  unfold digitWires
  apply (ensures_hint coherent (by simpa using hx) _ width).bind
  rintro d₁ rs grows₁ coherent₁ ⟨-, hrs⟩
  apply (ensures_digits prime coherent₁ hrs).bind
  intro d₂ _ grows₂ coherent₂ _
  have hrs₂ : ∀ r ∈ rs, r.Below d₂.size := fun r hr => grows₂.below (hrs r hr)
  exact (ensures_assertEqual coherent₂ (LinearCombination.below_ofBits hrs₂)
    (grows₂.below (grows₁.below hx))).bind fun d₃ _ grows₃ coherent₃ _ =>
      ensures_pure coherent₃ fun r hr => grows₃.below (hrs₂ r hr)

theorem ensures_toBits (coherent : d.Coherent) (hx : x.Below d.size) (width : Nat) :
    Ensures (toBits x width : Synthesis F κ (List (LinearCombination F))) d fun d' rs =>
      d'.HasAll rs fun value digits =>
        digits.length = width ∧ PrimeField.IsDecomposition (x.evalWith value) digits := by
  have ensures : Ensures (toBits x width : Synthesis F κ (List (LinearCombination F))) d fun d' rs =>
      ∀ r ∈ rs, r.Below d'.size := by
    unfold toBits
    split
    · exact ensures_fail coherent
    · cases hk : x.asConstant? with
      | none => exact ensures_digitWires prime coherent hx width
      | some k =>
          apply ensures_get_bind
          split
          · split
            · exact ensures_pure coherent
                (List.forall_mem_map.mpr fun bit _ => LinearCombination.below_ofConstant _)
            · exact ensures_fail coherent
          · exact ensures_digitWires prime coherent hx width
  apply ensures.imp_of_run
  intro d' rs hrun _ below
  obtain ⟨-, length, forces, -⟩ := toBits_forces prime coherent.guarded hrun
  exact ⟨below, fun value accepts => ⟨by simpa using length, forces value accepts⟩⟩

end Prime

/-! ## Gadgets -/

theorem ensures_and (coherent : d.Coherent) (ha : a.Below d.size) (hb : b.Below d.size) :
    Ensures (and a b : Synthesis F κ (LinearCombination F)) d fun d' r =>
      d'.Has r fun value v => v = a.evalWith value * b.evalWith value :=
  ensures_mul coherent ha hb

theorem ensures_or (coherent : d.Coherent) (ha : a.Below d.size) (hb : b.Below d.size) :
    Ensures (or a b : Synthesis F κ (LinearCombination F)) d fun d' r =>
      d'.Has r fun value v =>
        v = a.evalWith value + b.evalWith value - a.evalWith value * b.evalWith value := by
  unfold or
  refine (ensures_mul coherent ha hb).bind fun d₁ r grows coherent₁ hr => ensures_pure coherent₁
    ⟨(grows.below (ha.add hb)).sub hr.below, fun value accepts => ?_⟩
  rw [LinearCombination.evalWith_sub, LinearCombination.evalWith_add, hr.forces value accepts]

theorem ensures_xor (coherent : d.Coherent) (ha : a.Below d.size) (hb : b.Below d.size) :
    Ensures (xor a b : Synthesis F κ (LinearCombination F)) d fun d' r =>
      d'.Has r fun value v =>
        v = a.evalWith value + b.evalWith value - (1 + 1) * (a.evalWith value * b.evalWith value) := by
  unfold xor
  refine (ensures_mul coherent ha hb).bind fun d₁ r grows coherent₁ hr => ensures_pure coherent₁
    ⟨(grows.below (ha.add hb)).subScaled hr.below _, fun value accepts => ?_⟩
  rw [LinearCombination.evalWith_subScaled, LinearCombination.evalWith_add, hr.forces value accepts]

theorem ensures_isZero (prime : F.modulus.Prime) (coherent : d.Coherent) (hx : x.Below d.size) :
    Ensures (isZero x : Synthesis F κ (LinearCombination F)) d fun d' r =>
      d'.Has r fun value v => v = PrimeField.zeroFlag (x.evalWith value) := by
  cases hk : x.asConstant? with
  | some k =>
      rw [isZero_of_constant hk, LinearCombination.eq_ofConstant hk]
      exact ensures_pure coherent ⟨LinearCombination.below_ofConstant _, fun value _ => by simp [PrimeField.zeroFlag]⟩
  | none =>
      rw [isZero_of_not_constant hk]
      apply (ensures_hintValue coherent (by simpa using hx) _).bind
      intro d₁ y grows₁ coherent₁ hy
      have hx₁ := grows₁.below hx
      apply (ensures_mul coherent₁ hx₁ hy).bind
      intro d₂ p grows₂ coherent₂ hp
      have below : (ofConstant 1 - p).Below d₂.size := (LinearCombination.below_ofConstant 1).sub hp.below
      refine (ensures_assertProduct coherent₂ (grows₂.below hx₁) below LinearCombination.below_zero).bind
        fun d₃ _ grows₃ coherent₃ product => ensures_pure coherent₃ ⟨grows₃.below below, fun value accepts => ?_⟩
      apply PrimeField.eq_zeroFlag prime (y := y.evalWith value)
      · rw [LinearCombination.evalWith_sub, LinearCombination.evalWith_ofConstant,
          hp.forces value (grows₃.accepts accepts)]
      · simpa using product value accepts

theorem ensures_isEqual (prime : F.modulus.Prime) (coherent : d.Coherent) (ha : a.Below d.size)
    (hb : b.Below d.size) :
    Ensures (isEqual a b : Synthesis F κ (LinearCombination F)) d fun d' r =>
      d'.Has r fun value v => v = PrimeField.zeroFlag (a.evalWith value - b.evalWith value) := by
  have isZero := ensures_isZero (κ := κ) prime coherent (ha.sub hb)
  simp only [LinearCombination.evalWith_sub] at isZero
  exact isZero

theorem ensures_assertNonZero (prime : F.modulus.Prime) (coherent : d.Coherent) (ha : a.Below d.size) :
    Ensures (assertNonZero a : Synthesis F κ Unit) d fun d' _ =>
      d'.Forces fun value => a.evalWith value ≠ 0 := by
  apply (ensures_inverse prime coherent ha).map
  intro d₁ y _ hy value accepts zero
  have one := hy.forces value accepts
  rw [zero, zero_mul] at one
  exact PrimeField.one_ne_zero one.symm

theorem ensures_lookup2 (prime : F.modulus.Prime) (coherent : d.Coherent)
    {b0 b1 t0 t1 t2 t3 : LinearCombination F} (hb0 : b0.Below d.size) (hb1 : b1.Below d.size)
    (ht0 : t0.Below d.size) (ht1 : t1.Below d.size) (ht2 : t2.Below d.size) (ht3 : t3.Below d.size) :
    Ensures (lookup2 b0 b1 t0 t1 t2 t3 : Synthesis F κ (LinearCombination F)) d fun d' r =>
      d'.Has r fun value => PrimeField.IsEntry (b0.evalWith value) (b1.evalWith value) (t0.evalWith value)
        (t1.evalWith value) (t2.evalWith value) (t3.evalWith value) := by
  unfold lookup2
  apply (ensures_select prime coherent hb0 ht1 ht0).bind
  intro d₁ low grows₁ coherent₁ hlow
  apply (ensures_select prime coherent₁ (grows₁.below hb0) (grows₁.below ht3) (grows₁.below ht2)).bind
  intro d₂ high grows₂ coherent₂ hhigh
  have hlow₂ := hlow.grow grows₂
  refine (ensures_select prime coherent₂ (grows₂.below (grows₁.below hb1)) hhigh.below hlow₂.below).imp
    fun d₃ r grows₃ _ hr => hr.imp fun value v accepts choice => ?_
  have accepts₂ := grows₃.accepts accepts
  exact PrimeField.isEntry_of_choices (hlow₂.forces value accepts₂) (hhigh.forces value accepts₂) choice

theorem ensures_publicInput (coherent : d.Coherent) (name : String) :
    Ensures (publicInput name : Synthesis F κ (LinearCombination F)) d fun d' r => r.Below d'.size :=
  ensures_of_run (run_input .publicInput name) (coherent.declare (by simp) name)
    (LinearCombination.below_ofWire.mpr (by simp))

theorem ensures_secretInput (coherent : d.Coherent) (name : String) :
    Ensures (secretInput name : Synthesis F κ (LinearCombination F)) d fun d' r => r.Below d'.size :=
  ensures_of_run (run_input .secretInput name) (coherent.declare (by simp) name)
    (LinearCombination.below_ofWire.mpr (by simp))

theorem ensures_packChunks (coherent : d.Coherent) (name : String) (i : Nat)
    {bits : List (List (LinearCombination F))} (hbits : ∀ chunk ∈ bits, ∀ bit ∈ chunk, bit.Below d.size) :
    Ensures (packChunks name i bits : Synthesis F κ (List (LinearCombination F))) d fun d' rs =>
      d'.HasAll rs fun value vs =>
        vs = bits.map fun chunk => PrimeField.ofDigits (chunk.map (·.evalWith value)) := by
  induction bits generalizing d i with
  | nil => exact ensures_pure coherent ⟨by simp, fun _ _ => rfl⟩
  | cons chunk rest ih =>
      unfold packChunks
      apply (ensures_publicInput coherent _).bind
      intro d₁ packed grows₁ coherent₁ hpacked
      have hchunk : (LinearCombination.ofBits chunk).Below d₁.size :=
        LinearCombination.below_ofBits fun bit hbit => grows₁.below (hbits chunk (by simp) bit hbit)
      apply (ensures_assertEqual coherent₁ hchunk hpacked).bind
      intro d₂ _ grows₂ coherent₂ equal
      refine (ih coherent₂ (i + 1) fun chunk' hchunk' bit hbit =>
        grows₂.below (grows₁.below (hbits chunk' (by simp [hchunk']) bit hbit))).bind
          fun d₃ rs grows₃ coherent₃ hrs => ensures_pure coherent₃ ⟨fun r hr => ?_, fun value accepts => ?_⟩
      · rcases List.mem_cons.mp hr with rfl | hr
        · exact grows₃.below (grows₂.below hpacked)
        · exact hrs.below r hr
      · have first : (LinearCombination.ofBits chunk).evalWith value = packed.evalWith value :=
          equal value (grows₃.accepts accepts)
        rw [List.map_cons, List.map_cons, hrs.forces value accepts, ← first,
          LinearCombination.evalWith_ofBits]

theorem ensures_packIntoInputs (coherent : d.Coherent) (name : String) {bits : List (LinearCombination F)}
    (hbits : ∀ bit ∈ bits, bit.Below d.size) :
    Ensures (packIntoInputs name bits : Synthesis F κ (List (LinearCombination F))) d fun d' rs =>
      d'.HasAll rs fun value vs =>
        vs = (chunks F.capacity (bits.map (·.evalWith value))).map PrimeField.ofDigits := by
  have below : ∀ chunk ∈ chunks F.capacity bits, ∀ bit ∈ chunk, bit.Below d.size :=
    fun _ hchunk bit hbit => hbits bit (mem_of_mem_chunks hchunk hbit)
  have packed := ensures_packChunks (κ := κ) coherent name 0 below
  simp only [← map_chunks, List.map_map]
  exact packed

theorem ensures_packBits (coherent : d.Coherent) {bits : List (LinearCombination F)}
    (hbits : ∀ bit ∈ bits, bit.Below d.size) :
    Ensures (packBits bits : Synthesis F κ (LinearCombination F)) d fun d' r =>
      d'.Has r fun value v => v
        = PrimeField.ofDigits ((bits.map (·.evalWith value)).take F.capacity) := by
  have below : (LinearCombination.ofBits (bits.take F.capacity)).Below d.size :=
    LinearCombination.below_ofBits fun bit hbit => hbits bit (List.mem_of_mem_take hbit)
  have wire := ensures_asWire (κ := κ) coherent below
  simp only [LinearCombination.evalWith_ofBits, List.map_take] at wire
  exact wire

end ArithCircuit.Synthesis
