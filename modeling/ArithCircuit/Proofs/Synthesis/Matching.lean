import ArithCircuit.Proofs.Synthesis.Twins

/-!
# The operations match

Begun in twins, every operation matches itself. What the gates add on their own, to sum up wide
expressions, is an elaboration.
-/

namespace ArithCircuit.Synthesis

open scoped Fin.CommRing

variable {F : PrimeField} {s : Twins F} {a a' b b' c c' x x' : LinearCombination F}

open ConstraintForm (factor materialize enforceZero)
open LinearCombination (ofConstant ofWire)

/-! ## Wires -/

theorem constantWire?_gates (s : Twins F) (k : F.Elem) :
    s.gates.constantWire? k = (s.triples.constantWire? k).map (Wire.rename s.names) := by
  unfold Draft.constantWire?
  rw [s.simulates.constants]
  induction s.triples.constants with
  | nil => rfl
  | cons entry rest ih =>
      obtain ⟨value, wire⟩ := entry
      cases same : k == value <;> simp [List.lookup_cons, same, ih]

theorem matches_pin (s : Twins F) (k : F.Elem) : Matches s (pin k) (pin k) Twins.WireImage := by
  have gates := constantWire?_gates s k
  cases found : s.triples.constantWire? k with
  | some wire =>
      rw [found] at gates
      exact .results s (run_pin_of_known found) (run_pin_of_known gates) (.refl s)
        ⟨(s.simulates.coherent.constants _ (mem_constants found)).1, rfl⟩
  | none =>
      rw [found] at gates
      have defines := Triple.defines_pinned ⟨s.triples.size⟩ k
      let s₁ := s.define defines (Constraint.defines_pinned_gate ⟨s.gates.size⟩ k) fun _ _ => rfl
      have image : s₁.WireImage ⟨s.triples.size⟩ ⟨s.gates.size⟩ := Twins.wireImage_define
      let s₂ := s₁.remember image fun value accepts =>
        (defines.holds_iff value).mp (Draft.accepts_define.mp accepts).2
      have grows : s₁.Grows s₂ := Twins.grows_remember
      exact .results s₂ (run_pin_of_unknown found) (run_pin_of_unknown gates)
        (Twins.grows_define.trans grows) (image.grow grows)

theorem matches_materialize (hx : s.Image x x') :
    Matches s (materialize x) (materialize x') Twins.WireImage := by
  obtain ⟨wire, d', hrun, computes⟩ := Gate.run_materialize hx.below_gates
  obtain ⟨d₁, c, e, elaborates, defines, rfl, rfl, result⟩ :=
    computes.exists_last s.simulates.coherent' fun _ _ agree => hx.below_gates.evalWith_congr agree
  let s₁ := s.elaborate elaborates
  have hx₁ : s₁.Image x x' := hx.grow (Twins.grows_elaborate elaborates)
  let s₂ := s₁.define (Triple.defines_equation hx₁.below) defines fun value' accepts =>
    (result value' accepts).trans (hx₁.evalWith value')
  exact .results s₂ rfl hrun ((Twins.grows_elaborate elaborates).trans Twins.grows_define)
    Twins.wireImage_define

theorem matches_toWire (hx : s.Image x x') : Matches s (toWire x) (toWire x') Twins.WireImage := by
  have gates := hx.asWire?
  cases hwire : x.asWire? with
  | some wire =>
      rw [hwire] at gates
      rw [toWire_of_wire hwire, toWire_of_wire gates]
      exact matches_pure (hx.wire hwire)
  | none =>
      rw [hwire] at gates
      cases hk : x.asConstant? with
      | some k =>
          rw [toWire_of_constant hwire hk, toWire_of_constant gates (hx.asConstant?.trans hk)]
          exact matches_pin s k
      | none =>
          rw [toWire_of_neither hwire hk, toWire_of_neither gates (hx.asConstant?.trans hk)]
          exact matches_materialize hx

theorem matches_asWire (hx : s.Image x x') :
    Matches s (ofWire <$> toWire x) (ofWire <$> toWire x') Twins.Image :=
  (matches_toWire hx).map fun _ _ _ image => image.image

theorem matches_factor (hx : s.Image x x') : Matches s (factor (κ := Triple F) x) (factor (κ := Gate F) x')
    fun s₁ y y' => s₁.FactorImage y y' := by
  obtain ⟨y', d', hrun, elaborates, below, hvalue⟩ := Gate.run_factor hx.below_gates
  refine .results (s.elaborate elaborates) rfl hrun (Twins.grows_elaborate elaborates)
    ⟨hx.below, below, fun value' accepts => ?_⟩
  rw [hvalue value' accepts]
  exact (hx.grow (Twins.grows_elaborate elaborates)).evalWith value'

/-! ## Products and assertions -/

theorem matches_mul (ha : s.Image a a') (hb : s.Image b b') :
    Matches s (mul a b) (mul a' b') Twins.Image := by
  cases hka : a.asConstant? with
  | some k =>
      rw [mul_of_constant_left hka, mul_of_constant_left (ha.asConstant?.trans hka)]
      exact matches_pure (hb.scale k)
  | none =>
      have hka' := ha.asConstant?.trans hka
      cases hkb : b.asConstant? with
      | some k =>
          rw [mul_of_constant_right hka hkb, mul_of_constant_right hka' (hb.asConstant?.trans hkb)]
          exact matches_pure (ha.scale k)
      | none =>
          rw [mul_of_neither hka hkb, mul_of_neither hka' (hb.asConstant?.trans hkb)]
          apply (matches_factor ha).bind
          intro s₁ x x' grows₁ hx
          apply (matches_factor (hb.grow grows₁)).bind
          intro s₂ y y' grows₂ hy
          have hx₂ := hx.grow grows₂
          let s₃ := s₂.define
            (LawfulForm.defines_product (κ := Triple F) ⟨s₂.triples.size⟩ hx₂.below hy.below)
            (Gate.defines_product ⟨s₂.gates.size⟩ hx₂.below_gates hy.below_gates)
            fun value' accepts => by
              rw [hx₂.evalWith value' accepts, hy.evalWith value' accepts]
              rfl
          exact .results s₃ rfl rfl Twins.grows_define Twins.wireImage_define.image

theorem matches_enforceZero (hx : s.Image x x') :
    Matches s (enforceZero (κ := Triple F) x) (enforceZero (κ := Gate F) x') fun _ _ _ => True := by
  obtain ⟨d₁, c, hrun, elaborates, wires, holds⟩ := Gate.run_enforceZero hx.below_gates
  let s₁ := s.elaborate elaborates
  have hx₁ : s₁.Image x x' := hx.grow (Twins.grows_elaborate elaborates)
  let s₂ := s₁.emit (Triple.equation_zero_lt hx₁.below) wires fun value' accepts => by
    rw [holds value' accepts, Triple.holds_equation_zero, hx₁.evalWith value']
  exact .results s₂ rfl hrun ((Twins.grows_elaborate elaborates).trans Twins.grows_emit) trivial

theorem matches_assertEqual (ha : s.Image a a') (hb : s.Image b b') :
    Matches s (assertEqual a b) (assertEqual a' b') fun _ _ _ => True := by
  have difference := ha.sub hb
  cases hk : (a - b).asConstant? with
  | some k =>
      rw [assertEqual_of_constant hk, assertEqual_of_constant (difference.asConstant?.trans hk)]
      split
      · exact matches_fail fun n n' => .malformed n n' _
      · exact matches_pure trivial
  | none =>
      rw [assertEqual_of_not_constant hk, assertEqual_of_not_constant (difference.asConstant?.trans hk)]
      exact matches_enforceZero difference

theorem matches_assertProduct (ha : s.Image a a') (hb : s.Image b b') (hc : s.Image c c') :
    Matches s (assertProduct a b c) (assertProduct a' b' c') fun _ _ _ => True := by
  cases hka : a.asConstant? with
  | some k =>
      rw [assertProduct_of_constant_left hka, assertProduct_of_constant_left (ha.asConstant?.trans hka)]
      exact matches_assertEqual (hb.scale k) hc
  | none =>
      have hka' := ha.asConstant?.trans hka
      cases hkb : b.asConstant? with
      | some k =>
          rw [assertProduct_of_constant_right hka hkb,
            assertProduct_of_constant_right hka' (hb.asConstant?.trans hkb)]
          exact matches_assertEqual (ha.scale k) hc
      | none =>
          rw [assertProduct_of_neither hka hkb, assertProduct_of_neither hka' (hb.asConstant?.trans hkb)]
          apply (matches_factor ha).bind
          intro s₁ x x' grows₁ hx
          apply (matches_factor (hb.grow grows₁)).bind
          intro s₂ y y' grows₂ hy
          apply (matches_factor (hc.grow (grows₁.trans grows₂))).bind
          intro s₃ z z' grows₃ hz
          have hx₃ := hx.grow (grows₂.trans grows₃)
          have hy₃ := hy.grow grows₃
          let s₄ := s₃.emit
            (LawfulForm.product_lt (κ := Triple F) hx₃.below hy₃.below hz.below)
            (Gate.product_lt hx₃.below_gates hy₃.below_gates hz.below_gates) fun value' accepts => by
              rw [Gate.holds_product, hx₃.evalWith value' accepts, hy₃.evalWith value' accepts,
                hz.evalWith value' accepts]
              exact (LawfulForm.holds_product (κ := Triple F)).symm
          exact .results s₄ rfl rfl Twins.grows_emit trivial

/-- A narrow expression is a wire for both forms or for none. -/
theorem matches_constrainBoolean_of_narrow (hx : s.Image x x') (few : x'.terms.length ≤ 1) :
    Matches s (constrainBoolean x) (constrainBoolean x') fun _ _ _ => True := by
  obtain ⟨y', hrun, below, asWire, hvalue⟩ := Gate.run_factor_of_narrow s.gates few
  rw [hx.asWire?] at asWire
  have hy : s.FactorImage x y' := ⟨hx.below, below _ hx.below_gates, fun value' _ =>
    (hvalue value').trans (hx.evalWith value')⟩
  cases hwire : x.asWire? with
  | none =>
      rw [hwire] at asWire
      exact .results (s.boolean hy) (run_constrainBoolean_of_no_wire rfl hwire)
        (run_constrainBoolean_of_no_wire hrun asWire) (Twins.grows_boolean hy) trivial
  | some wire =>
      rw [hwire] at asWire
      have image := (hx.wire hwire).grow (Twins.grows_boolean hy)
      by_cases marked : wire ∈ s.triples.booleans
      · exact .results s (run_constrainBoolean_of_marked rfl hwire marked)
          (run_constrainBoolean_of_marked hrun asWire ((s.simulates.booleans wire).mp marked)) (.refl s) trivial
      · have marked' : wire.rename s.names ∉ s.gates.booleans := fun h =>
          marked ((s.simulates.booleans wire).mpr h)
        let s₁ := (s.boolean hy).mark image fun value accepts => by
          have root := (LawfulForm.holds_boolean (κ := Triple F)).mp (Draft.accepts_emit.mp accepts).2
          rwa [(LawfulForm.asWire?_spec (κ := Triple F) hwire).2 value] at root
        exact .results s₁ (run_constrainBoolean_of_new rfl hwire marked)
          (run_constrainBoolean_of_new hrun asWire marked') ((Twins.grows_boolean hy).trans Twins.grows_mark)
          trivial

/-- A wide expression becomes a wire of the gates alone, and is marked there. -/
theorem matches_constrainBoolean_of_wide (hx : s.Image x x') (many : 1 < x'.terms.length) :
    Matches s (constrainBoolean x) (constrainBoolean x') fun _ _ _ => True := by
  obtain ⟨wire, d', hrun, computes⟩ := Gate.run_factor_of_wide many hx.below_gates
  have hwire : x.asWire? = none := by
    rw [hx.eq] at many
    obtain ⟨terms, constant⟩ := x
    match terms with
    | [] => rfl
    | [_] => simp [LinearCombination.rename] at many
    | _ :: _ :: _ => rfl
  have new : wire ∉ d'.booleans := by
    rw [computes.elaborates.sameFrame.booleans]
    exact fun h => Nat.not_lt_of_le computes.size_le (s.simulates.coherent'.booleans wire h).1
  let s₁ := s.elaborate computes.elaborates
  have hy : s₁.FactorImage x (.ofWire wire) :=
    { below := hx.below
      below_gates := SlotFactor.below_ofWire.mpr computes.wire_lt
      evalWith := fun value' accepts => by
        rw [SlotFactor.evalWith_ofWire, computes.value value' accepts]
        exact (hx.grow (Twins.grows_elaborate computes.elaborates)).evalWith value' }
  have own : ∀ other : Wire, other.rename s₁.names ≠ wire := fun other same =>
    s.simulates.embeds.lengthen_ne computes.size_le computes.wire_lt (congrArg Wire.index same)
  let s₂ := (s₁.boolean hy).markGates computes.wire_lt own fun value accepts => by
    have root := Gate.holds_boolean.mp (Draft.accepts_emit.mp accepts).2
    rwa [SlotFactor.evalWith_ofWire] at root
  exact .results s₂ (run_constrainBoolean_of_no_wire rfl hwire) 
    (run_constrainBoolean_of_new hrun (SlotFactor.asWire?_ofWire wire) new)
    (((Twins.grows_elaborate computes.elaborates).trans (Twins.grows_boolean hy)).trans Twins.grows_markGates)
    trivial

theorem matches_constrainBoolean (hx : s.Image x x') :
    Matches s (constrainBoolean x) (constrainBoolean x') fun _ _ _ => True := by
  rcases Nat.lt_or_ge 1 x'.terms.length with many | few
  · exact matches_constrainBoolean_of_wide hx many
  · exact matches_constrainBoolean_of_narrow hx few

theorem matches_assertBoolean (hx : s.Image x x') :
    Matches s (assertBoolean x) (assertBoolean x') fun _ _ _ => True := by
  cases hk : x.asConstant? with
  | none =>
      rw [assertBoolean_of_not_constant hk, assertBoolean_of_not_constant (hx.asConstant?.trans hk)]
      exact matches_constrainBoolean hx
  | some k =>
      rw [assertBoolean_of_constant hk, assertBoolean_of_constant (hx.asConstant?.trans hk)]
      apply matches_shares
      · split
        · exact matches_fail fun n n' => .malformed n n' _
        · exact matches_pure trivial
      · exact (matches_pin s k).bind fun s₁ wire wire' _ image => matches_constrainBoolean image.image

/-! ## Hints -/

theorem matches_wires {xs xs' : List (LinearCombination F)} (hxs : s.Images xs xs') :
    Matches s (xs.mapM toWire) (xs'.mapM toWire) Twins.WireImages := by
  induction xs generalizing s xs' with
  | nil =>
      cases hxs
      exact matches_pure .nil
  | cons x xs ih =>
      cases hxs with
      | cons image rest =>
          rw [List.mapM_cons, List.mapM_cons]
          apply (matches_toWire image).bind
          intro s₁ wire wire' grows₁ first
          apply (ih (Twins.Images.grow rest grows₁)).bind
          intro s₂ wires wires' grows₂ others
          exact matches_pure (.cons (first.grow grows₂) others)

theorem matches_bindHint {wires wires' : List Wire} (images : s.WireImages wires wires') (name : String) (n : Nat) :
    Matches s (bindHint name wires n) (bindHint name wires' n) Twins.WireImages :=
  .results (s.bind images (canonicalName name) n) (run_bindHint name wires n) (run_bindHint name wires' n)
    (Twins.grows_bind images _ n) (Twins.wireImages_bind images _ n)

theorem matches_hint {xs xs' : List (LinearCombination F)} (hxs : s.Images xs xs') (name : String) (n : Nat) :
    Matches s (hint name xs n) (hint name xs' n) Twins.Images := by
  unfold hint
  apply (matches_wires hxs).bind
  intro s₁ wires wires' _ images
  exact (matches_bindHint images name n).map fun _ _ _ images => images.images

theorem matches_hintValue {xs xs' : List (LinearCombination F)} (hxs : s.Images xs xs') (name : String) :
    Matches s (hintValue name xs) (hintValue name xs') Twins.Image := by
  unfold hintValue
  apply (matches_hint hxs name 1).bind
  intro s₁ rs rs' _ images
  rw [images.eq, List.getLast?_map]
  cases hlast : rs.getLast? with
  | none => exact matches_fail fun n n' => .malformed n n' _
  | some r => exact matches_pure ⟨images.below r (List.mem_of_getLast? hlast), rfl⟩

/-! ## Quotients, choices and digits -/

theorem matches_constantInverse (s : Twins F) (k : F.Elem) :
    Matches s (constantInverse k) (constantInverse k) fun _ y y' => y' = y := by
  unfold constantInverse
  split
  · exact matches_pure rfl
  · exact matches_fail .divisionByZero

theorem matches_div (ha : s.Image a a') (hb : s.Image b b') :
    Matches s (div a b) (div a' b') Twins.Image := by
  cases hk : b.asConstant? with
  | some k =>
      rw [div_of_constant hk, div_of_constant (hb.asConstant?.trans hk), map_eq_pure_bind, map_eq_pure_bind]
      apply (matches_constantInverse s k).bind
      intro s₁ y y' grows₁ same
      subst same
      exact matches_pure ((ha.grow grows₁).scale _)
  | none =>
      rw [div_of_not_constant hk, div_of_not_constant (hb.asConstant?.trans hk)]
      apply (matches_asWire ha).bind
      intro s₁ p p' grows₁ hp
      apply (matches_asWire (hb.grow grows₁)).bind
      intro s₂ q q' grows₂ hq
      have hp₂ := hp.grow grows₂
      apply (matches_hintValue (.cons hp₂ (.cons hq .nil)) _).bind
      intro s₃ r r' grows₃ hr
      apply (matches_assertProduct (hq.grow grows₃) hr (hp₂.grow grows₃)).bind
      intro s₄ _ _ grows₄ _
      exact matches_pure (hr.grow grows₄)

theorem matches_inverse (ha : s.Image a a') : Matches s (inverse a) (inverse a') Twins.Image := by
  cases hk : a.asConstant? with
  | some k =>
      rw [inverse_of_constant hk, inverse_of_constant (ha.asConstant?.trans hk)]
      exact (matches_constantInverse s k).map fun s₁ y y' same => by
        subst same
        exact .ofConstant _
  | none =>
      rw [inverse_of_not_constant hk, inverse_of_not_constant (ha.asConstant?.trans hk)]
      apply (matches_asWire ha).bind
      intro s₁ p p' grows₁ hp
      apply (matches_hintValue (.cons hp .nil) _).bind
      intro s₂ r r' grows₂ hr
      apply (matches_assertProduct (hp.grow grows₂) hr (.ofConstant 1)).bind
      intro s₃ _ _ grows₃ _
      exact matches_pure (hr.grow grows₃)

theorem matches_selectOn (hc : s.Image c c') (ha : s.Image a a') (hb : s.Image b b') :
    Matches s (selectOn c a b) (selectOn c' a' b') Twins.Image := by
  unfold selectOn
  apply (matches_assertBoolean hc).bind
  intro s₁ _ _ grows₁ _
  apply (matches_mul (hc.grow grows₁) ((ha.sub hb).grow grows₁)).bind
  intro s₂ r r' grows₂ hr
  exact matches_pure (hr.add (hb.grow (grows₁.trans grows₂)))

theorem matches_select (hc : s.Image c c') (ha : s.Image a a') (hb : s.Image b b') :
    Matches s (select c a b) (select c' a' b') Twins.Image := by
  cases hk : c.asConstant? with
  | none =>
      rw [select_of_not_constant hk, select_of_not_constant (hc.asConstant?.trans hk)]
      exact matches_selectOn hc ha hb
  | some k =>
      rw [select_of_constant hk, select_of_constant (hc.asConstant?.trans hk)]
      apply matches_shares
      · split
        · exact matches_pure ha
        · split
          · exact matches_pure hb
          · exact matches_fail fun n n' => .malformed n n' _
      · apply (matches_pin s k).bind
        intro s₁ wire wire' grows₁ image
        exact matches_selectOn image.image (ha.grow grows₁) (hb.grow grows₁)

theorem matches_digits {xs xs' : List (LinearCombination F)} (hxs : s.Images xs xs') :
    Matches s (xs.forM assertBoolean) (xs'.forM assertBoolean) fun _ _ _ => True := by
  induction xs generalizing s xs' with
  | nil =>
      cases hxs
      exact matches_pure trivial
  | cons x xs ih =>
      cases hxs with
      | cons image rest =>
          exact (matches_assertBoolean image).bind fun s₁ _ _ grows₁ _ => ih (Twins.Images.grow rest grows₁)

theorem matches_digitWires (hx : s.Image x x') (width : Nat) :
    Matches s (digitWires x width) (digitWires x' width) Twins.Images := by
  unfold digitWires
  apply (matches_hint (.cons hx .nil) _ width).bind
  intro s₁ rs rs' grows₁ images
  apply (matches_digits images).bind
  intro s₂ _ _ grows₂ _
  have images₂ := images.grow grows₂
  apply (matches_assertEqual images₂.ofBits (hx.grow (grows₁.trans grows₂))).bind
  intro s₃ _ _ grows₃ _
  exact matches_pure (images₂.grow grows₃)

theorem matches_toBits (hx : s.Image x x') (width : Nat) :
    Matches s (toBits x width) (toBits x' width) Twins.Images := by
  unfold toBits
  rw [hx.asConstant?]
  split
  · exact matches_fail fun n n' => .malformed n n' _
  · cases x.asConstant? with
    | none => exact matches_digitWires hx width
    | some k =>
        refine matches_shares ?_ (matches_digitWires hx width)
        split
        · refine matches_pure (List.forall₂_map_left_iff.mpr (List.forall₂_map_right_iff.mpr ?_))
          exact List.forall₂_same.mpr fun bit _ => .ofConstant _
        · exact matches_fail fun n n' => .malformed n n' _

/-! ## Gadgets -/

theorem matches_or (ha : s.Image a a') (hb : s.Image b b') : Matches s (or a b) (or a' b') Twins.Image := by
  unfold or
  apply (matches_mul ha hb).bind
  intro s₁ r r' grows₁ hr
  exact matches_pure (((ha.add hb).grow grows₁).sub hr)

theorem matches_xor (ha : s.Image a a') (hb : s.Image b b') : Matches s (xor a b) (xor a' b') Twins.Image := by
  unfold xor
  apply (matches_mul ha hb).bind
  intro s₁ r r' grows₁ hr
  exact matches_pure (((ha.add hb).grow grows₁).subScaled hr _)

theorem matches_isZero (hx : s.Image x x') : Matches s (isZero x) (isZero x') Twins.Image := by
  cases hk : x.asConstant? with
  | some k =>
      rw [isZero_of_constant hk, isZero_of_constant (hx.asConstant?.trans hk)]
      exact matches_pure (.ofConstant _)
  | none =>
      rw [isZero_of_not_constant hk, isZero_of_not_constant (hx.asConstant?.trans hk)]
      apply (matches_hintValue (.cons hx .nil) _).bind
      intro s₁ y y' grows₁ hy
      apply (matches_mul (hx.grow grows₁) hy).bind
      intro s₂ p p' grows₂ hp
      have flag := (Twins.Image.ofConstant 1).sub hp
      apply (matches_assertProduct (hx.grow (grows₁.trans grows₂)) flag .zero).bind
      intro s₃ _ _ grows₃ _
      exact matches_pure (flag.grow grows₃)

theorem matches_lookup2 {b0 b1 t0 t1 t2 t3 b0' b1' t0' t1' t2' t3' : LinearCombination F}
    (hb0 : s.Image b0 b0') (hb1 : s.Image b1 b1') (ht0 : s.Image t0 t0') (ht1 : s.Image t1 t1')
    (ht2 : s.Image t2 t2') (ht3 : s.Image t3 t3') :
    Matches s (lookup2 b0 b1 t0 t1 t2 t3) (lookup2 b0' b1' t0' t1' t2' t3') Twins.Image := by
  unfold lookup2
  apply (matches_select hb0 ht1 ht0).bind
  intro s₁ low low' grows₁ hlow
  apply (matches_select (hb0.grow grows₁) (ht3.grow grows₁) (ht2.grow grows₁)).bind
  intro s₂ high high' grows₂ hhigh
  exact matches_select (hb1.grow (grows₁.trans grows₂)) hhigh (hlow.grow grows₂)

theorem matches_input (s : Twins F) (role : Role) (external : role ≠ .internal) (name : String) :
    Matches s (input role name) (input role name) Twins.Image := by
  refine .results (s.declare external name) (run_input role name) (run_input role name)
    (Twins.grows_declare external name) (Twins.WireImage.image ⟨?_, s.simulates.embeds.rename_next.symm⟩)
  show s.triples.size < (s.triples.declare role name).size
  simp

theorem matches_packChunks (name : String) (i : Nat) {bits bits' : List (List (LinearCombination F))}
    (hbits : List.Forall₂ s.Images bits bits') :
    Matches s (packChunks name i bits) (packChunks name i bits') Twins.Images := by
  induction bits generalizing s bits' i with
  | nil =>
      cases hbits
      exact matches_pure .nil
  | cons chunk rest ih =>
      cases hbits with
      | cons images others =>
          unfold packChunks
          apply (matches_input s .publicInput (by simp) _).bind
          intro s₁ p p' grows₁ hp
          apply (matches_assertEqual (images.grow grows₁).ofBits hp).bind
          intro s₂ _ _ grows₂ _
          have others₂ := others.imp fun _ _ images => Twins.Images.grow images (grows₁.trans grows₂)
          apply (ih (i + 1) others₂).bind
          intro s₃ rs rs' grows₃ hrs
          exact matches_pure (.cons (hp.grow (grows₂.trans grows₃)) hrs)

theorem matches_packBits {bits bits' : List (LinearCombination F)} (hbits : s.Images bits bits') :
    Matches s (packBits bits) (packBits bits') Twins.Image :=
  matches_asWire (hbits.take F.capacity).ofBits

end ArithCircuit.Synthesis
