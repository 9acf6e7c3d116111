import ArithCircuit.Proofs.Synthesis.Following
import ArithCircuit.Proofs.Synthesis.Operations

/-!
# The operations follow their evaluation

Every operation leaves an honest assignment with the values of its evaluation, or ends up with the
constraint or the hint at which the evaluation stops.
-/

namespace ArithCircuit

open scoped Fin.CommRing

variable {F : PrimeField} {κ : Type} [ConstraintForm F κ] [LawfulForm F κ] {registry : HintRegistry}
  {given : Supply F} {s s₁ : Stage registry given κ}

/-! ## Factors -/

/-- A factor and its value under every assignment that goes on from here. -/
structure Stage.FactorValue (s : Stage registry given κ) (y : ConstraintForm.Factor κ) (v : F.Elem) : Prop where
  below : LawfulForm.FactorBelow s.draft.size y
  eq : ∀ value, AgreeBelow s.draft.size s.value value → s.draft.Accepts value →
    LawfulForm.factorValue value y = v

theorem Stage.FactorValue.grow {y : ConstraintForm.Factor κ} {v : F.Elem} (h : s.FactorValue y v)
    (grows : s.Grows s₁) : s₁.FactorValue y v where
  below := LawfulForm.factorBelow_mono h.below grows.draft.size_le
  eq value agree accepts :=
    h.eq value (grows.agree.trans agree grows.draft.size_le) (grows.draft.accepts accepts)

theorem Stage.FactorValue.now {y : ConstraintForm.Factor κ} {v : F.Elem} (h : s.FactorValue y v) :
    LawfulForm.factorValue s.value y = v :=
  h.eq s.value (.refl _ _) s.honest.accepts

namespace Synthesis

variable {a b c x : LinearCombination F} {u v w : F.Elem}

open ConstraintForm (factor materialize enforceZero)
open LinearCombination (ofConstant ofWire)
open Evaluation (demand demand_of demand_of_not)
open PrimeField (IsDigit)

theorem follows_factor (hx : s.HasValue x v) :
    Follows s (factor (κ := κ) x) (pure v) fun s₁ y v => s₁.FactorValue y v := by
  obtain ⟨y, d', hrun, elaborates, below, hvalue⟩ := LawfulForm.run_factor (κ := κ) hx.below
  obtain ⟨s₁, rfl, rest, grows⟩ := s.exists_elaborate elaborates
  have hx₁ := hx.grow grows
  refine follows_of_run s₁ hrun rest grows ⟨below, fun value agree accepts => ?_⟩
  rw [hvalue value accepts, ← hx₁.below.evalWith_congr agree, hx₁.eq]

/-! ## Wires -/

theorem follows_pin (s : Stage registry given κ) (k : F.Elem) :
    Follows s (pin k) (pure k) Stage.WireValue := by
  cases found : s.draft.constantWire? k with
  | some wire =>
      obtain ⟨hlt, constant⟩ := s.coherent.constants (k, wire) (mem_constants found)
      exact follows_of_run s (run_pin_of_known found) rfl (.refl s) ⟨hlt, constant s.value s.honest.accepts⟩
  | none =>
      have defines := LawfulForm.defines_pinned (κ := κ) ⟨s.draft.size⟩ k
      obtain ⟨s₁, hdraft, rest₁, grows₁, hwire⟩ := s.exists_computes (.single defines) fun _ _ _ => rfl
      have constant : ∀ value, s₁.draft.Accepts value → value ⟨s.draft.size⟩ = k := fun value accepts => by
        rw [hdraft] at accepts
        exact (defines.holds_iff value).mp (Draft.accepts_define.mp accepts).2
      obtain ⟨s₂, hdraft₂, rest₂, grows₂⟩ := s₁.exists_remember hwire.lt constant
      refine follows_of_run s₂ ?_ (rest₂.trans rest₁) (grows₁.trans grows₂) (hwire.grow grows₂)
      rw [hdraft₂, hdraft]
      exact run_pin_of_unknown found

theorem follows_toWire (hx : s.HasValue x v) : Follows s (toWire x) (pure v) Stage.WireValue := by
  cases hwire : x.asWire? with
  | some wire =>
      rw [toWire_of_wire hwire]
      rw [LinearCombination.eq_ofWire hwire] at hx
      exact follows_pure ⟨LinearCombination.below_ofWire.mp hx.below,
        (LinearCombination.evalWith_ofWire wire).symm.trans hx.eq⟩
  | none =>
      cases hk : x.asConstant? with
      | some k =>
          rw [toWire_of_constant hwire hk, hx.eq_of_asConstant? hk]
          exact follows_pin s k
      | none =>
          rw [toWire_of_neither hwire hk]
          obtain ⟨wire, d', hrun, computes⟩ := LawfulForm.run_materialize (κ := κ) hx.below
          obtain ⟨s₁, rfl, rest, grows, hwire⟩ := s.exists_computes computes fun value agree _ =>
            (hx.below.evalWith_congr agree).symm.trans hx.eq
          exact follows_of_run s₁ hrun rest grows hwire

theorem follows_asWire (hx : s.HasValue x v) :
    Follows s (ofWire <$> toWire x) (pure v) Stage.HasValue :=
  (follows_toWire hx).map (g := id) fun _ _ _ hwire => hwire.hasValue

/-! ## Products and assertions -/

theorem follows_mul (ha : s.HasValue a v) (hb : s.HasValue b w) :
    Follows s (mul a b) (pure (v * w)) Stage.HasValue := by
  cases hka : a.asConstant? with
  | some k =>
      rw [mul_of_constant_left hka, ha.eq_of_asConstant? hka]
      exact follows_pure (hb.scale k)
  | none =>
      cases hkb : b.asConstant? with
      | some k =>
          rw [mul_of_constant_right hka hkb, hb.eq_of_asConstant? hkb, mul_comm]
          exact follows_pure (ha.scale k)
      | none =>
          rw [mul_of_neither hka hkb]
          apply (follows_factor ha).before
          intro s₁ x grows₁ hx
          apply (follows_factor (hb.grow grows₁)).before
          intro s₂ y grows₂ hy
          have hx₂ := hx.grow grows₂
          have defines := LawfulForm.defines_product (κ := κ) ⟨s₂.draft.size⟩ hx₂.below hy.below
          obtain ⟨s₃, hdraft, rest, grows₃, hwire⟩ := s₂.exists_computes (.single defines) (v := v * w)
            fun value agree accepts => by
              have accepts₂ := (Draft.accepts_define.mp accepts).1
              rw [hx₂.eq value agree accepts₂, hy.eq value agree accepts₂]
          refine follows_of_run s₃ ?_ rest grows₃ hwire.hasValue
          rw [hdraft]
          rfl

theorem follows_assertEqual (ha : s.HasValue a v) (hb : s.HasValue b w) :
    Follows s (assertEqual a b) (demand (v = w)) fun _ _ _ => True := by
  have difference := ha.sub hb
  cases hk : (a - b).asConstant? with
  | some k =>
      rw [assertEqual_of_constant hk]
      split
      · rename_i distinct
        have other : v ≠ w := fun same =>
          distinct ((difference.eq_of_asConstant? hk).symm.trans (sub_eq_zero.mpr same))
        rw [demand_of_not other]
        exact follows_fail rfl
      · rename_i zero
        have same : v - w = 0 := (difference.eq_of_asConstant? hk).trans (not_not.mp zero)
        rw [demand_of (sub_eq_zero.mp same)]
        exact follows_pure trivial
  | none =>
      rw [assertEqual_of_not_constant hk]
      obtain ⟨d₁, c, hrun, elaborates, wires, holds⟩ := LawfulForm.run_enforceZero (κ := κ) difference.below
      obtain ⟨s₁, rfl, rest, grows⟩ := s.exists_elaborate elaborates
      apply follows_of_emit s₁ hrun grows rest wires
      rw [holds s₁.value s₁.honest.accepts, (difference.grow grows).eq, sub_eq_zero]

theorem follows_assertProduct (ha : s.HasValue a v) (hb : s.HasValue b w) (hc : s.HasValue c u) :
    Follows s (assertProduct a b c) (demand (v * w = u)) fun _ _ _ => True := by
  cases hka : a.asConstant? with
  | some k =>
      rw [assertProduct_of_constant_left hka, ha.eq_of_asConstant? hka]
      exact follows_assertEqual (hb.scale k) hc
  | none =>
      cases hkb : b.asConstant? with
      | some k =>
          rw [assertProduct_of_constant_right hka hkb, hb.eq_of_asConstant? hkb, mul_comm v]
          exact follows_assertEqual (ha.scale k) hc
      | none =>
          rw [assertProduct_of_neither hka hkb]
          apply (follows_factor ha).before
          intro s₁ x grows₁ hx
          apply (follows_factor (hb.grow grows₁)).before
          intro s₂ y grows₂ hy
          apply (follows_factor (hc.grow (grows₁.trans grows₂))).before
          intro s₃ z grows₃ hz
          have hx₃ := hx.grow (grows₂.trans grows₃)
          have hy₃ := hy.grow grows₃
          refine follows_of_emit s₃ rfl (.refl s₃) rfl
            (LawfulForm.product_lt (κ := κ) hx₃.below hy₃.below hz.below) ?_
          rw [LawfulForm.holds_product, hx₃.now, hy₃.now, hz.now]

theorem follows_constrainBoolean (prime : F.modulus.Prime) (hx : s.HasValue x v) :
    Follows s (constrainBoolean x) (demand (IsDigit v)) fun _ _ _ => True := by
  obtain ⟨y, d', hrun, elaborates, below, hvalue⟩ := LawfulForm.run_factor (κ := κ) hx.below
  obtain ⟨s₁, rfl, rest, grows⟩ := s.exists_elaborate elaborates
  have hy : LawfulForm.factorValue s₁.value y = v :=
    (hvalue s₁.value s₁.honest.accepts).trans (hx.grow grows).eq
  have wires := LawfulForm.boolean_lt (κ := κ) below
  have holds : (toConstraint (ConstraintForm.boolean y : κ)).Holds s₁.value ↔ IsDigit v := by
    rw [LawfulForm.holds_boolean, hy]
    exact PrimeField.mul_sub_one_eq_zero prime
  cases hwire : ConstraintForm.asWire? y with
  | none => exact follows_of_emit s₁ (run_constrainBoolean_of_no_wire hrun hwire) grows rest wires holds
  | some wire =>
      obtain ⟨hlt, hvalue⟩ := LawfulForm.asWire?_spec hwire
      by_cases marked : wire ∈ s₁.draft.booleans
      · have root := (s₁.coherent.booleans wire marked).2 s₁.value s₁.honest.accepts
        rw [← hvalue s₁.value, hy, PrimeField.mul_sub_one_eq_zero prime] at root
        rw [demand_of (show IsDigit v from root)]
        exact follows_of_run s₁ (run_constrainBoolean_of_marked hrun hwire marked) rest grows trivial
      · have run := run_constrainBoolean_of_new hrun hwire marked
        by_cases digit : IsDigit v
        · rw [demand_of digit]
          let s₂ := (s₁.emit wires (holds.mpr digit)).mark (hlt _ below) fun value accepts => by
            have root := LawfulForm.holds_boolean.mp (Draft.accepts_emit.mp accepts).2
            rwa [hvalue] at root
          have grows₂ : s₁.Grows s₂ := Stage.grows_emit.trans Stage.grows_mark
          exact follows_of_run s₂ run rest (grows.trans grows₂) trivial
        · rw [demand_of_not digit]
          exact .stops s₁ run rfl (.violated wires (fun h => digit (holds.mp h)) (.mark wire))

theorem follows_assertBoolean (prime : F.modulus.Prime) (hx : s.HasValue x v) :
    Follows s (assertBoolean x) (demand (IsDigit v)) fun _ _ _ => True := by
  cases hk : x.asConstant? with
  | none =>
      rw [assertBoolean_of_not_constant hk]
      exact follows_constrainBoolean prime hx
  | some k =>
      rw [assertBoolean_of_constant hk, hx.eq_of_asConstant? hk]
      apply follows_shares
      · split
        · rename_i other
          rw [demand_of_not (show ¬ IsDigit k by unfold IsDigit; tauto)]
          exact follows_fail rfl
        · rename_i digit
          rw [demand_of (show IsDigit k by unfold IsDigit; tauto)]
          exact follows_pure trivial
      · exact (follows_pin s k).before fun s₁ wire _ hwire => follows_constrainBoolean prime hwire.hasValue

/-! ## Hints -/

theorem follows_wires {xs : List (LinearCombination F)} {vs : List F.Elem} (hxs : s.HasValues xs vs) :
    Follows s (xs.mapM toWire) (pure vs) Stage.WireValues := by
  induction xs generalizing s vs with
  | nil =>
      cases hxs
      exact follows_pure .nil
  | cons x xs ih =>
      cases hxs with
      | cons hx hrest =>
          rw [List.mapM_cons]
          apply (follows_toWire hx).before
          intro s₁ wire grows₁ hwire
          apply (ih (Stage.HasValues.grow hrest grows₁)).before
          intro s₂ wires grows₂ hwires
          exact follows_pure (.cons (hwire.grow grows₂) hwires)

theorem follows_bindHint {wires : List Wire} {vs : List F.Elem} (hwires : s.WireValues wires vs) (name : String)
    {n : Nat} (asks : 0 < n ∨ registry.IsLenient) :
    Follows s (bindHint name wires n) (Evaluation.call registry name vs n) Stage.WireValues := by
  have inputs : wires.map (fun wire => (s.value wire).val) = vs.map (·.val) := by
    rw [← hwires.eq, List.map_map]
    rfl
  have run := run_bindHint (κ := κ) (d := s.draft) name wires n
  cases invoked : registry.invoke name F.modulus (vs.map (·.val)) n with
  | ok outputs =>
      obtain ⟨s₁, hdraft, rest, grows, gives⟩ := s.exists_bind hwires.lt (inputs ▸ invoked)
      have hspan : s₁.WireValues (Wire.span s.draft.size n) ((Wire.span s.draft.size n).map s₁.value) :=
        .of_map fun wire hwire => by
          rw [hdraft, Draft.size_bind, Draft.size_freshMany]
          exact (Wire.mem_span.mp hwire).2
      have evaluates : Evaluation.call registry name vs n = pure (outputs.map F.ofNat) := by
        rw [Evaluation.call, invoked]
      rw [evaluates]
      refine follows_of_run s₁ ?_ rest grows (gives ▸ hspan)
      rw [hdraft]
      exact run
  | error error =>
      have evaluates : Evaluation.call registry name vs n = throw (.hint error) := by
        rw [Evaluation.call, invoked]
      rw [evaluates]
      refine .stops s run rfl (.hint hwires.lt rfl rfl (fun known found => ?_) ?_ (.refl _))
      · have found' : registry.lookup name (vs.map (·.val)).length n = .ok known := by
          rw [← inputs, List.length_map, ← HintRegistry.lookup_canonicalName, found]
        exact HintRegistry.outputs_pos_of_error asks found' invoked
      · rw [inputs, HintRegistry.invoke_canonicalName, invoked]

theorem follows_hint {xs : List (LinearCombination F)} {vs : List F.Elem} (hxs : s.HasValues xs vs) (name : String)
    {n : Nat} (asks : 0 < n ∨ registry.IsLenient) :
    Follows s (hint name xs n) (Evaluation.call registry name vs n) Stage.HasValues := by
  unfold hint
  apply (follows_wires hxs).before
  intro s₁ wires _ hwires
  exact (follows_bindHint hwires name asks).after fun _ _ _ _ houtputs => follows_pure houtputs.hasValues

omit [ConstraintForm F κ] [LawfulForm F κ] in
theorem eq_singleton_of_run {e : Evaluation F F.Elem} {supply rest : Supply F} {vs : List F.Elem}
    (evaluates : (List.singleton <$> e).run supply = .ok (vs, rest)) : ∃ v, vs = [v] := by
  rw [StateT.run_map] at evaluates
  cases he : e.run supply with
  | error stop => simp [he] at evaluates
  | ok result =>
      rw [he] at evaluates
      exact ⟨result.1, ((Prod.mk.inj (Except.ok.inj evaluates)).1).symm⟩

theorem follows_hintValue {xs : List (LinearCombination F)} {vs : List F.Elem} (hxs : s.HasValues xs vs)
    {name : String} {e : Evaluation F F.Elem} (gives : Evaluation.call registry name vs 1 = List.singleton <$> e) :
    Follows s (hintValue name xs) e Stage.HasValue := by
  have first := (follows_hint (κ := κ) hxs name (.inl Nat.one_pos)).evaluated
  rw [gives] at first
  have last : e = (List.singleton <$> e) >>= fun vs => pure (vs.getLast?.getD 0) := by
    simp [List.singleton]
  rw [last]
  unfold hintValue
  refine @Follows.bind _ _ _ _ _ _ _ _ _ _ _ _ _ _ _ _ (fun rs => ?_) first fun s₁ rs vs₁ _ ⟨evaluates, hrs⟩ => ?_
  · split <;> infer_instance
  obtain ⟨v, rfl⟩ := eq_singleton_of_run evaluates
  rw [← hrs.eq, List.getLast?_map]
  cases hlast : rs.getLast? with
  | none =>
      rw [List.getLast?_eq_none_iff.mp hlast] at hrs
      cases hrs
  | some r => exact follows_pure ⟨hrs.below r (List.mem_of_getLast? hlast), rfl⟩

/-! ## Quotients, choices and digits -/

section Builtin

variable (answers : registry.AnswersBuiltin)
include answers

omit [ConstraintForm F κ] [LawfulForm F κ] in
theorem call_div (v w : F.Elem) :
    Evaluation.call registry Hint.divName [v, w] 1 = List.singleton <$> Evaluation.quotient v w := by
  obtain ⟨other, built, same⟩ := answers
  have invoked := HintRegistry.invoke_div built v w
  rw [← same _ _ _ 1 Nat.one_ne_zero] at invoked
  simp only [Evaluation.call, Evaluation.quotient, List.map_cons, List.map_nil, invoked]
  cases PrimeField.inverse? w with
  | none => rfl
  | some y => simp [List.singleton]

theorem call_invert (v : F.Elem) :
    Evaluation.call registry Hint.invertName [v] 1 = List.singleton <$> Evaluation.inverse v := by
  obtain ⟨other, built, same⟩ := answers
  have invoked := HintRegistry.invoke_invert built v
  rw [← same _ _ _ 1 Nat.one_ne_zero] at invoked
  simp only [Evaluation.call, Evaluation.inverse, List.map_cons, List.map_nil, invoked]
  cases PrimeField.inverse? v with
  | none => rfl
  | some y => simp [List.singleton]

theorem call_inverseOrZero (v : F.Elem) :
    Evaluation.call registry Hint.inverseOrZeroName [v] 1
      = List.singleton <$> (pure ((PrimeField.inverse? v).getD 0) : Evaluation F F.Elem) := by
  obtain ⟨other, built, same⟩ := answers
  have invoked := HintRegistry.invoke_inverseOrZero built v
  rw [← same _ _ _ 1 Nat.one_ne_zero] at invoked
  simp [Evaluation.call, invoked, List.singleton]

theorem call_bits (v : F.Elem) {width : Nat} (positive : 0 < width) :
    Evaluation.call registry Hint.bitsName [v] width = Evaluation.digits v width := by
  obtain ⟨other, built, same⟩ := answers
  have invoked := HintRegistry.invoke_bits built v width
  rw [← same _ _ _ width (Nat.ne_of_gt positive)] at invoked
  simp only [Evaluation.call, Evaluation.digits, List.map_cons, List.map_nil, invoked]
  cases PrimeField.decompose? v width with
  | none => rfl
  | some bits => simp [Function.comp_def]

theorem follows_div (prime : F.modulus.Prime) (ha : s.HasValue a v) (hb : s.HasValue b w) :
    Follows s (div a b) (Evaluation.quotient v w) Stage.HasValue := by
  unfold Evaluation.quotient
  cases hk : b.asConstant? with
  | some k =>
      rw [div_of_constant hk, hb.eq_of_asConstant? hk, constantInverse]
      cases PrimeField.inverse? k with
      | none => exact .rejects rfl rfl
      | some y =>
          have scaled := ha.scale y
          rw [mul_comm] at scaled
          exact follows_pure scaled
  | none =>
      rw [div_of_not_constant hk]
      apply (follows_asWire ha).before
      intro s₁ p grows₁ hp
      apply (follows_asWire (hb.grow grows₁)).before
      intro s₂ q grows₂ hq
      have hp₂ := hp.grow grows₂
      have first := follows_hintValue (κ := κ) (.cons hp₂ (.cons hq .nil)) (call_div answers v w)
      unfold Evaluation.quotient at first
      cases hy : PrimeField.inverse? w with
      | none =>
          rw [hy] at first
          exact first.stopped
      | some y =>
          rw [hy] at first
          apply first.before
          intro s₃ r grows₃ hr
          have product := follows_assertProduct (κ := κ) (hq.grow grows₃) hr (hp₂.grow grows₃)
          rw [demand_of (by rw [mul_left_comm, PrimeField.mul_of_inverse? prime hy, mul_one])] at product
          exact product.before fun s₄ _ grows₄ _ => follows_pure (hr.grow grows₄)

theorem follows_inverse (prime : F.modulus.Prime) (ha : s.HasValue a v) :
    Follows s (inverse a) (Evaluation.inverse v) Stage.HasValue := by
  unfold Evaluation.inverse
  cases hk : a.asConstant? with
  | some k =>
      rw [inverse_of_constant hk, ha.eq_of_asConstant? hk, constantInverse]
      cases PrimeField.inverse? k with
      | none => exact .rejects rfl rfl
      | some y => exact follows_pure (.ofConstant y)
  | none =>
      rw [inverse_of_not_constant hk]
      apply (follows_asWire ha).before
      intro s₁ p grows₁ hp
      have first := follows_hintValue (κ := κ) (.cons hp .nil) (call_invert answers v)
      unfold Evaluation.inverse at first
      cases hy : PrimeField.inverse? v with
      | none =>
          rw [hy] at first
          exact first.stopped
      | some y =>
          rw [hy] at first
          apply first.before
          intro s₂ r grows₂ hr
          have product := follows_assertProduct (κ := κ) (hp.grow grows₂) hr (.ofConstant 1)
          rw [demand_of (PrimeField.mul_of_inverse? prime hy)] at product
          exact product.before fun s₃ _ grows₃ _ => follows_pure (hr.grow grows₃)

omit answers in
/-- A choice is a product, once the condition is a digit. -/
theorem choose_eq (v a b : F.Elem) :
    Evaluation.choose v a b = (do demand (IsDigit v); pure (v * (a - b) + b)) := by
  unfold Evaluation.choose
  split
  · rename_i one
    rw [demand_of (show IsDigit v from .inr one), one, one_mul, sub_add_cancel]
    rfl
  · split
    · rename_i zero
      rw [demand_of (show IsDigit v from .inl zero), zero, zero_mul, zero_add]
      rfl
    · rename_i one zero
      rw [demand_of_not (show ¬ IsDigit v from not_or.mpr ⟨zero, one⟩)]
      rfl

omit answers in
theorem follows_selectOn (prime : F.modulus.Prime) (hc : s.HasValue c u) (ha : s.HasValue a v) (hb : s.HasValue b w) :
    Follows s (selectOn c a b) (Evaluation.choose u v w) Stage.HasValue := by
  rw [choose_eq]
  unfold selectOn
  apply (follows_assertBoolean prime hc).bind
  intro s₁ _ _ grows₁ _
  apply (follows_mul (hc.grow grows₁) ((ha.sub hb).grow grows₁)).before
  intro s₂ r grows₂ hr
  exact follows_pure (hr.add (hb.grow (grows₁.trans grows₂)))

omit answers in
theorem follows_select (prime : F.modulus.Prime) (hc : s.HasValue c u) (ha : s.HasValue a v) (hb : s.HasValue b w) :
    Follows s (select c a b) (Evaluation.choose u v w) Stage.HasValue := by
  cases hk : c.asConstant? with
  | none =>
      rw [select_of_not_constant hk]
      exact follows_selectOn prime hc ha hb
  | some k =>
      rw [select_of_constant hk, hc.eq_of_asConstant? hk]
      apply follows_shares
      · unfold Evaluation.choose
        split
        · exact follows_pure ha
        · split
          · exact follows_pure hb
          · exact follows_fail rfl
      · apply (follows_pin s k).before
        intro s₁ wire grows₁ hwire
        exact follows_selectOn prime hwire.hasValue (ha.grow grows₁) (hb.grow grows₁)

omit answers in
theorem follows_digits (prime : F.modulus.Prime) {xs : List (LinearCombination F)} {vs : List F.Elem}
    (hxs : s.HasValues xs vs) (digits : ∀ v ∈ vs, IsDigit v) :
    Follows s (xs.forM assertBoolean) (pure ()) fun _ _ _ => True := by
  induction xs generalizing s vs with
  | nil => exact follows_pure trivial
  | cons x xs ih =>
      cases hxs with
      | cons hx hrest =>
          obtain ⟨digit, others⟩ := List.forall_mem_cons.mp digits
          have first := follows_assertBoolean (κ := κ) prime hx
          rw [demand_of digit] at first
          exact first.before fun s₁ _ grows₁ _ => ih (Stage.HasValues.grow hrest grows₁) others

theorem follows_digitWires (prime : F.modulus.Prime) (hx : s.HasValue x v) {width : Nat} (positive : 0 < width) :
    Follows s (digitWires x width) (Evaluation.digits v width) Stage.HasValues := by
  unfold digitWires
  have first := follows_hint (κ := κ) (.cons hx .nil) Hint.bitsName (.inl positive)
  rw [call_bits answers v positive] at first
  unfold Evaluation.digits at first ⊢
  rw [PrimeField.decompose?_eq] at first ⊢
  by_cases fits : v.val < 2 ^ width
  · rw [if_pos fits] at first ⊢
    have decomposition := PrimeField.isDecomposition_lowBits fits
    apply first.before
    intro s₁ rs grows₁ hrs
    apply (follows_digits prime hrs decomposition.isDigit).before
    intro s₂ _ grows₂ _
    have hrs₂ := hrs.grow grows₂
    have sum := follows_assertEqual (κ := κ) hrs₂.ofBits (hx.grow (grows₁.trans grows₂))
    rw [demand_of decomposition.sum] at sum
    exact sum.before fun s₃ _ grows₃ _ => follows_pure (hrs₂.grow grows₃)
  · rw [if_neg fits] at first ⊢
    exact first.stopped

theorem follows_toBits (prime : F.modulus.Prime) (hx : s.HasValue x v) {width : Nat} (positive : 0 < width)
    (fits : width ≤ F.numBits) :
    Follows s (toBits x width) (Evaluation.digits v width) Stage.HasValues := by
  unfold toBits
  rw [if_neg (show ¬ (width = 0 ∨ F.numBits < width) by omega)]
  have wires := follows_digitWires (κ := κ) answers prime hx positive
  cases hk : x.asConstant? with
  | none => exact wires
  | some k =>
      refine follows_shares ?_ wires
      rw [hx.eq_of_asConstant? hk]
      unfold Evaluation.digits
      cases PrimeField.decompose? k width with
      | none => exact follows_fail rfl
      | some bits =>
          refine follows_pure (List.forall₂_map_left_iff.mpr (List.forall₂_map_right_iff.mpr ?_))
          exact List.forall₂_same.mpr fun bit _ => .ofConstant _

/-! ## Gadgets -/

omit answers in
theorem follows_or (ha : s.HasValue a v) (hb : s.HasValue b w) :
    Follows s (or a b) (pure (v + w - v * w)) Stage.HasValue := by
  unfold or
  apply (follows_mul ha hb).before
  intro s₁ r grows₁ hr
  exact follows_pure (((ha.add hb).grow grows₁).sub hr)

omit answers in
theorem follows_xor (ha : s.HasValue a v) (hb : s.HasValue b w) :
    Follows s (xor a b) (pure (v + w - (1 + 1) * (v * w))) Stage.HasValue := by
  unfold xor
  apply (follows_mul ha hb).before
  intro s₁ r grows₁ hr
  exact follows_pure (((ha.add hb).grow grows₁).subScaled hr _)

theorem follows_isZero (prime : F.modulus.Prime) (hx : s.HasValue x v) :
    Follows s (isZero x) (pure (PrimeField.zeroFlag v)) Stage.HasValue := by
  cases hk : x.asConstant? with
  | some k =>
      rw [isZero_of_constant hk, hx.eq_of_asConstant? hk]
      exact follows_pure (.ofConstant _)
  | none =>
      rw [isZero_of_not_constant hk]
      apply (follows_hintValue (.cons hx .nil) (call_inverseOrZero answers v)).before
      intro s₁ y grows₁ hy
      apply (follows_mul (hx.grow grows₁) hy).before
      intro s₂ p grows₂ hp
      have flag := (Stage.HasValue.ofConstant 1).sub hp
      rw [← PrimeField.zeroFlag_eq prime] at flag
      have product := follows_assertProduct (κ := κ) (hx.grow (grows₁.trans grows₂)) flag .zero
      rw [demand_of (PrimeField.mul_zeroFlag v)] at product
      exact product.before fun s₃ _ grows₃ _ => follows_pure (flag.grow grows₃)

omit answers in
theorem follows_lookup2 (prime : F.modulus.Prime) {b0 b1 t0 t1 t2 t3 : LinearCombination F}
    {w0 w1 v0 v1 v2 v3 : F.Elem} (hb0 : s.HasValue b0 w0) (hb1 : s.HasValue b1 w1) (ht0 : s.HasValue t0 v0)
    (ht1 : s.HasValue t1 v1) (ht2 : s.HasValue t2 v2) (ht3 : s.HasValue t3 v3) :
    Follows s (lookup2 b0 b1 t0 t1 t2 t3) (Evaluation.lookup2 w0 w1 v0 v1 v2 v3) Stage.HasValue := by
  unfold lookup2 Evaluation.lookup2
  apply (follows_select prime hb0 ht1 ht0).bind
  intro s₁ low vlow grows₁ hlow
  apply (follows_select prime (hb0.grow grows₁) (ht3.grow grows₁) (ht2.grow grows₁)).bind
  intro s₂ high vhigh grows₂ hhigh
  exact follows_select prime (hb1.grow (grows₁.trans grows₂)) hhigh (hlow.grow grows₂)

end Builtin

theorem follows_input (s : Stage registry given κ) {role : Role} (external : role ≠ .internal) (name : String) :
    Follows s (input role name) (Evaluation.input role) Stage.HasValue := by
  obtain ⟨s₁, v, evaluates, hdraft, grows, hwire⟩ := s.exists_declare external name
  refine .results s₁ ?_ evaluates grows hwire.hasValue
  rw [hdraft]
  exact run_input role name

theorem follows_packChunks (name : String) (i : Nat) {bits : List (List (LinearCombination F))}
    {values : List (List F.Elem)} (hbits : List.Forall₂ s.HasValues bits values) :
    Follows s (packChunks name i bits) (Evaluation.pack values) Stage.HasValues := by
  induction bits generalizing s values i with
  | nil =>
      cases hbits
      exact follows_pure .nil
  | cons chunk rest ih =>
      cases hbits with
      | cons hchunk hrest =>
          unfold packChunks Evaluation.pack
          apply (follows_input s (by simp) _).bind
          intro s₁ p v grows₁ hp
          apply (follows_assertEqual (Stage.HasValues.grow hchunk grows₁).ofBits hp).bind
          intro s₂ _ _ grows₂ _
          have hrest₂ := hrest.imp fun _ _ h => Stage.HasValues.grow h (grows₁.trans grows₂)
          apply (ih (i + 1) hrest₂).bind
          intro s₃ rs vs grows₃ hrs
          exact follows_pure (.cons (hp.grow (grows₂.trans grows₃)) hrs)

theorem follows_packBits {bits : List (LinearCombination F)} {values : List F.Elem} (hbits : s.HasValues bits values) :
    Follows s (packBits bits) (pure (PrimeField.ofDigits (values.take F.capacity))) Stage.HasValue :=
  follows_asWire (hbits.take F.capacity).ofBits

end Synthesis

end ArithCircuit
