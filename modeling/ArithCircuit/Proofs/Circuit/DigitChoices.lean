import ArithCircuit.Proofs.Circuit.Reached

/-!
# The choices of digits that a decomposition leaves

Take the constraints of one decomposition by themselves. They allow for the digits of every number that
has the operand's residue and is no wider than the decomposition, and for nothing else.
-/

namespace ArithCircuit

open scoped Fin.CommRing

open LinearCombination (ofWire)
open PrimeField (IsDigit IsDecomposition Spells ofBit)

variable {F : PrimeField} {κ : Type}

/-! ## The digits of a residue -/

namespace PrimeField

variable {x : F.Elem} {digits : List F.Elem}

theorem ofNat_eq_iff {n : Nat} : F.ofNat n = x ↔ n ≡ x.val [MOD F.modulus] := by
  rw [Fin.ext_iff, val_ofNat, Nat.ModEq, Nat.mod_eq_of_lt x.isLt]

theorem ofDigits_eq (digits : List F.Elem) : ofDigits digits = F.ofNat (Nat.ofDigits 2 (digits.map Fin.val)) := by
  induction digits with
  | nil => rfl
  | cons digit digits ih =>
      rw [ofDigits, ih, List.map_cons, Nat.ofDigits_cons, Nat.two_mul, ofNat_add, ofNat_add]
      simp

/-- The digits are those of an integer with the residue of the element. -/
theorem isDecomposition_iff_modEq : IsDecomposition x digits ↔
    (∀ digit ∈ digits, IsDigit digit) ∧ Nat.ofDigits 2 (digits.map Fin.val) ≡ x.val [MOD F.modulus] := by
  constructor
  · rintro ⟨isDigit, sum⟩
    exact ⟨isDigit, ofNat_eq_iff.mp (by rw [← ofDigits_eq, sum])⟩
  · rintro ⟨isDigit, congruent⟩
    exact ⟨isDigit, by rw [ofDigits_eq, ofNat_eq_iff.mpr congruent]⟩

theorem ofBit_injective : Function.Injective (ofBit : Bool → F.Elem) := by
  intro bit bit' same
  cases bit <;> cases bit'
  · rfl
  · exact absurd same.symm one_ne_zero
  · exact absurd same one_ne_zero
  · rfl

theorem Spells.eq_of_same {n n' : Nat} (h : Spells digits n) (h' : Spells digits n') : n = n' := by
  have same := List.map_injective_iff.mpr (ofBit_injective (F := F)) (h.eq.symm.trans h'.eq)
  have number := congrArg ofBits same
  rwa [ofBits_lowBits, ofBits_lowBits, Nat.mod_eq_of_lt h.lt, Nat.mod_eq_of_lt h'.lt] at number

theorem spells_iff {n width : Nat} (length : digits.length = width) :
    Spells digits n ↔ n < 2 ^ width ∧ digits = (lowBits width n).map ofBit := by
  subst length
  exact ⟨fun h => ⟨h.lt, h.eq⟩, fun h => ⟨h.1, h.2⟩⟩

/-! ### Counting -/

/-- So many digits that add up to the element. -/
def decompositions (x : F.Elem) (width : Nat) : Set (List F.Elem) :=
  {digits | digits.length = width ∧ IsDecomposition x digits}

theorem mem_decompositions {width : Nat} (narrow : width ≤ F.numBits) :
    digits ∈ decompositions x width ↔
      (x.val < 2 ^ width ∧ digits = (lowBits width x.val).map ofBit) ∨
        (x.val + F.modulus < 2 ^ width ∧ digits = (lowBits width (x.val + F.modulus)).map ofBit) := by
  constructor
  · rintro ⟨rfl, decomposes⟩
    exact ((isDecomposition_iff narrow).mp decomposes).imp (spells_iff rfl).mp (spells_iff rfl).mp
  · intro spelled
    have length : digits.length = width := by
      rcases spelled with ⟨-, rfl⟩ | ⟨-, rfl⟩ <;> simp [length_lowBits]
    exact ⟨length, (isDecomposition_iff (length ▸ narrow)).mpr
      (spelled.imp (spells_iff length).mpr (spells_iff length).mpr)⟩

theorem decompositions_of_lt {width : Nat} (narrow : width < F.numBits) (fits : x.val < 2 ^ width) :
    decompositions x width = {(lowBits width x.val).map ofBit} := by
  have alone : ¬ x.val + F.modulus < 2 ^ width := by
    have := two_pow_le_modulus narrow
    omega
  ext digits
  rw [mem_decompositions narrow.le]
  simp [fits, alone]

theorem decompositions_of_le {width : Nat} (narrow : width < F.numBits) (large : 2 ^ width ≤ x.val) :
    decompositions x width = ∅ := by
  have none : ¬ x.val < 2 ^ width := by omega
  have alone : ¬ x.val + F.modulus < 2 ^ width := by omega
  ext digits
  rw [mem_decompositions narrow.le]
  simp [none, alone]

theorem ncard_decompositions (x : F.Elem) :
    (decompositions x F.numBits).ncard = if x.val + F.modulus < 2 ^ F.numBits then 2 else 1 := by
  have fits : x.val < 2 ^ F.numBits := val_lt_two_pow le_rfl x
  split
  · rename_i next
    have pair : decompositions x F.numBits
        = {(lowBits F.numBits x.val).map ofBit, (lowBits F.numBits (x.val + F.modulus)).map ofBit} := by
      ext digits
      rw [mem_decompositions le_rfl]
      simp [fits, next]
    rw [pair, Set.ncard_pair]
    intro same
    have number := (spells_lowBits (F := F) fits).eq_of_same (same ▸ spells_lowBits next)
    have := F.two_le
    omega
  · rename_i alone
    have single : decompositions x F.numBits = {(lowBits F.numBits x.val).map ofBit} := by
      ext digits
      rw [mem_decompositions le_rfl]
      simp [fits, alone]
    rw [single, Set.ncard_singleton]

end PrimeField

namespace Synthesis

/-! ## Fresh digits -/

theorem exists_assignment (value : Wire → F.Elem) (n : Nat) (digits : List F.Elem) :
    ∃ value', AgreeBelow n value value' ∧ (Wire.span n digits.length).map value' = digits := by
  refine ⟨fun wire => if wire.index < n then value wire else digits.getD (wire.index - n) 0,
    fun wire hwire => (if_pos hwire).symm, ?_⟩
  apply List.ext_getElem (by simp [Wire.length_span])
  intro i hi hi'
  simp [Wire.span, hi']

variable [ConstraintForm F κ] [LawfulForm F κ] [UniformForm F κ] {d : Draft F κ} {x : LinearCombination F}

open ConstraintForm (wireFactor boolean)

theorem holds_boolean_iff (prime : F.modulus.Prime) {wire : Wire} {value : Wire → F.Elem} :
    (toConstraint (boolean (wireFactor (κ := κ) wire))).Holds value ↔ IsDigit (value wire) := by
  rw [LawfulForm.holds_boolean, (LawfulForm.asWire?_spec (UniformForm.asWire?_wireFactor wire)).2 value]
  exact PrimeField.mul_sub_one_eq_zero prime

omit [LawfulForm F κ] in
/-- Wires that are not marked yet are constrained to be digits, one by one. -/
theorem run_assertBooleans {wires : List Wire} (distinct : wires.Nodup) (new : ∀ wire ∈ wires, wire ∉ d.booleans) :
    ∃ d' : Draft F κ, ((wires.map ofWire).forM assertBoolean : Synthesis F κ PUnit).run d = .ok () d' ∧
      d'.constraints.toList = d.constraints.toList ++ wires.map (fun wire => boolean (wireFactor (κ := κ) wire)) ∧
      d'.size = d.size := by
  induction wires generalizing d with
  | nil => exact ⟨d, rfl, by simp, rfl⟩
  | cons wire wires ih =>
      obtain ⟨first, rest⟩ := List.nodup_cons.mp distinct
      obtain ⟨hwire, hwires⟩ := List.forall_mem_cons.mp new
      have hrun := run_constrainBoolean_of_new (x := ofWire wire)
        (by rw [UniformForm.factor_ofWire]; exact run_pure (d := d) _) (UniformForm.asWire?_wireFactor wire) hwire
      obtain ⟨d', behind, constraints, size⟩ := ih rest
        (d := (d.emit (boolean (wireFactor (κ := κ) wire))).mark wire) fun other hother marked => by
          rcases List.mem_cons.mp marked with rfl | marked
          · exact first hother
          · exact hwires other hother marked
      refine ⟨d', ?_, ?_, size⟩
      · -- a wire is no constant
        rw [← assertBoolean_of_not_constant (by rfl)] at hrun
        exact (run_bind_ok hrun).trans behind
      · rw [constraints]
        simp [Draft.mark, Draft.emit]

omit [UniformForm F κ] in
theorem evalWith_digits (wires : List Wire) (value : Wire → F.Elem) :
    (.ofBits (wires.map ofWire) - x : LinearCombination F).evalWith value
      = PrimeField.ofDigits (wires.map value) - x.evalWith value := by
  simp [LinearCombination.evalWith_sub, LinearCombination.evalWith_ofBits, Function.comp_def]

omit [ConstraintForm F κ] [LawfulForm F κ] [UniformForm F κ] in
/-- The sum of fresh digits is no constant away from what was there before. -/
theorem sum_not_constant {n width : Nat} (pos : 0 < width) (hx : x.Below n) :
    (.ofBits ((Wire.span n width).map ofWire) - x : LinearCombination F).asConstant? = none := by
  obtain ⟨width, rfl⟩ := Nat.exists_eq_succ_of_ne_zero pos.ne'
  -- the first digit alone makes a difference
  have sum (first : F.Elem) : ∃ value,
      (.ofBits ((Wire.span n (width + 1)).map ofWire) - x : LinearCombination F).evalWith value
        = PrimeField.ofDigits (first :: List.replicate width 0) - x.evalWith fun _ => 0 := by
    obtain ⟨value, agree, digits⟩ := exists_assignment (fun _ => 0) n (first :: List.replicate width 0)
    rw [List.length_cons, List.length_replicate] at digits
    exact ⟨value, by rw [evalWith_digits, digits, hx.evalWith_congr agree]⟩
  obtain ⟨value, zero⟩ := sum 0
  obtain ⟨value', one⟩ := sum 1
  refine LinearCombination.asConstant?_eq_none value value' fun same => ?_
  rw [zero, one, sub_left_inj, PrimeField.ofDigits, PrimeField.ofDigits, add_left_inj] at same
  exact PrimeField.one_ne_zero same.symm

omit [UniformForm F κ] [LawfulForm F κ] in
theorem run_hint_one {wire : Wire} {d₁ : Draft F κ} (hwire : (toWire x : Synthesis F κ Wire).run d = .ok wire d₁)
    (name : String) (width : Nat) :
    ∃ d₂ : Draft F κ, (hint name [x] width : Synthesis F κ _).run d = .ok ((Wire.span d₁.size width).map ofWire) d₂ ∧
      d₂.constraints = d₁.constraints ∧ d₂.booleans = d₁.booleans ∧ d₂.size = d₁.size + width := by
  have run : (hint name [x] width : Synthesis F κ _).run d = .ok ((Wire.span d₁.size width).map ofWire)
      ((d₁.freshMany width).bind {
        name := canonicalName name, inputs := [wire], outputs := Wire.span d₁.size width
        position := (d₁.freshMany width).constraints.size }) := by
    rw [hint, List.mapM_cons, List.mapM_nil]
    simp only [bind_assoc, pure_bind]
    rw [run_bind_ok hwire, run_bind_ok (run_bindHint name [wire] width)]
    rfl
  exact ⟨_, run, rfl, rfl, Draft.size_freshMany width⟩

omit [LawfulForm F κ] [UniformForm F κ] in
theorem run_toBits_of_kept {width : Nat} (pos : 1 ≤ width) (fits : width ≤ F.numBits)
    (kept : x.asConstant? = none ∨ d.sharesConstants = false) :
    (toBits x width : Synthesis F κ (List (LinearCombination F))).run d = (digitWires x width).run d := by
  rw [toBits, if_neg (by omega)]
  cases hk : x.asConstant? with
  | none => rfl
  | some k =>
      have separate : d.sharesConstants = false := kept.resolve_left (by simp [hk])
      rw [run_bind_ok run_get, separate]
      rfl

/-- What a decomposition into the wires from `n` on adds: something for the wire that the hint reads, one
constraint for each digit, and something for their sum. -/
structure AddsDigits (d d' : Draft F κ) (x : LinearCombination F) (n width : Nat) (before after : List κ) : Prop where
  size_le : d.size ≤ n
  constraints : d'.constraints.toList = d.constraints.toList
    ++ (before ++ (Wire.span n width).map (fun wire => boolean (wireFactor (κ := κ) wire)) ++ after)
  scope : ∀ value value', AgreeBelow n value value' → (AllHold before value ↔ AllHold before value')
  free : ∀ value, ∃ value', AgreeBelow d.size value value' ∧ AllHold before value'
  sum : ∀ value, AllHold after value → PrimeField.ofDigits ((Wire.span n width).map value) = x.evalWith value
  extend : ∀ value, PrimeField.ofDigits ((Wire.span n width).map value) = x.evalWith value →
    ∃ value', AgreeBelow (n + width) value value' ∧ AllHold after value'

theorem run_digitWires {width : Nat} (pos : 0 < width) (hx : x.Below d.size)
    (marked : ∀ wire ∈ d.booleans, wire.index < d.size) :
    ∃ d' n before after, (digitWires x width : Synthesis F κ (List (LinearCombination F))).run d
      = .ok ((Wire.span n width).map ofWire) d' ∧ AddsDigits d d' x n width before after := by
  obtain ⟨wire, d₁, before, hwire, adds₁, free⟩ := toWire_adds hx
  obtain ⟨d₂, hinted, constraints₂, booleans₂, size₂⟩ := run_hint_one hwire Hint.bitsName width
  have new : ∀ wire ∈ Wire.span d₁.size width, wire ∉ d₂.booleans := fun wire hwire old => by
    rw [booleans₂, adds₁.booleans] at old
    exact absurd (marked wire old) (Nat.not_lt_of_le (adds₁.size_le.trans (Wire.mem_span.mp hwire).1))
  obtain ⟨d₃, asserted, constraints₃, size₃⟩ := run_assertBooleans (Wire.nodup_span d₁.size width) new
  have hx₁ : x.Below d₁.size := hx.mono adds₁.size_le
  have size : d₃.size = d₁.size + width := size₃.trans size₂
  have below : (.ofBits ((Wire.span d₁.size width).map ofWire) - x : LinearCombination F).Below d₃.size := by
    rw [size]
    refine (LinearCombination.below_ofBits (List.forall_mem_map.mpr fun wire hwire => ?_)).sub
      (hx₁.mono (Nat.le_add_right _ _))
    exact LinearCombination.below_ofWire.mpr (Wire.mem_span.mp hwire).2
  obtain ⟨d₄, after, equated, adds₄, zero, extend⟩ := enforceZero_adds below
  rw [← assertEqual_of_not_constant (sum_not_constant pos hx₁)] at equated
  refine ⟨d₄, d₁.size, before, after, ?_, adds₁.size_le, ?_, fun _ _ => adds₁.congr, free, fun value holds => ?_,
    fun value sum => ?_⟩
  · rw [digitWires, run_bind_ok hinted, run_bind_ok asserted, run_bind_ok equated]
    rfl
  · rw [adds₄.constraints, constraints₃, constraints₂, adds₁.constraints]
    simp
  · have difference := zero value holds
    rw [evalWith_digits] at difference
    exact sub_eq_zero.mp difference
  · rw [← size]
    exact extend value (by rw [evalWith_digits, sum, sub_self])

/-- The values for the results that extend an assignment of the wires before to one under which all constraints
hold that were added since. -/
def choices (d d' : Draft F κ) (results : List (LinearCombination F)) (value : Wire → F.Elem) :
    Set (List F.Elem) :=
  {digits | ∃ value', AgreeBelow d.size value value' ∧ results.map (·.evalWith value') = digits ∧
    AllHold (d'.constraints.toList.drop d.constraints.size) value'}

theorem AddsDigits.choices_eq (prime : F.modulus.Prime) {d' : Draft F κ} {n width : Nat} {before after : List κ}
    (adds : AddsDigits d d' x n width before after) (hx : x.Below d.size) (value : Wire → F.Elem) :
    choices d d' ((Wire.span n width).map ofWire) value = PrimeField.decompositions (x.evalWith value) width := by
  have read (value' : Wire → F.Elem) :
      ((Wire.span n width).map ofWire).map (·.evalWith value') = (Wire.span n width).map value' := by
    simp [Function.comp_def]
  have digits_hold (value' : Wire → F.Elem) :
      AllHold ((Wire.span n width).map fun wire => boolean (wireFactor (κ := κ) wire)) value' ↔
        ∀ digit ∈ (Wire.span n width).map value', IsDigit digit := by
    simp only [AllHold, List.forall_mem_map, holds_boolean_iff prime]
  ext digits
  simp only [choices, Set.mem_ofPred_eq, adds.constraints, read, allHold_append, digits_hold,
    List.drop_left' Array.length_toList]
  constructor
  · rintro ⟨value', agree, rfl, ⟨-, isDigit⟩, sum⟩
    refine ⟨by simp [Wire.length_span], isDigit, ?_⟩
    rw [adds.sum value' sum, hx.evalWith_congr agree]
  · rintro ⟨rfl, isDigit, sum⟩
    obtain ⟨value₁, agree₁, before₁⟩ := adds.free value
    obtain ⟨value₂, agree₂, chosen⟩ := exists_assignment value₁ n digits
    have agree := agree₁.trans agree₂ adds.size_le
    obtain ⟨value₃, agree₃, after₃⟩ := adds.extend value₂ (by rw [chosen, sum, hx.evalWith_congr agree])
    have kept : (Wire.span n digits.length).map value₃ = digits := by
      refine Eq.trans (List.map_congr_left fun wire hwire => ?_) chosen
      exact (agree₃ wire (Wire.mem_span.mp hwire).2).symm
    have agree' := agree₃.mono (Nat.le_add_right n digits.length)
    refine ⟨value₃, agree.trans agree' adds.size_le, kept, ⟨?_, by rwa [kept]⟩, after₃⟩
    exact (adds.scope _ _ agree').mp ((adds.scope _ _ agree₂).mp before₁)

end Synthesis

/-- A decomposition that is not folded is made, and the values of the wires before it may be any: its constraints
allow for the digits of just those numbers that have the residue of the operand. Below the width of the modulus
that is the residue itself, if it fits; at that width the next such number may fit too. -/
theorem toBits_choices (prime : F.modulus.Prime) {backend : Backend} {d : Draft F (backend.Form F)}
    (reached : d.Reached) {x : LinearCombination F} (hx : x.Below d.size) {width : Nat} (pos : 1 ≤ width)
    (fits : width ≤ F.numBits) (kept : x.asConstant? = none ∨ d.sharesConstants = false) :
    ∃ results d', (Synthesis.toBits x width).run d = .ok results d' ∧ results.length = width ∧
      ∀ (value : Wire → F.Elem) (v : Nat), (x.evalWith value).val = v →
        Synthesis.choices d d' results value = {digits | digits.length = width ∧
          (∀ digit ∈ digits, IsDigit digit) ∧ Nat.ofDigits 2 (digits.map Fin.val) ≡ v [MOD F.modulus]} ∧
        (width < F.numBits → v < 2 ^ width →
          Synthesis.choices d d' results value = {(lowBits width v).map ofBit}) ∧
        (width < F.numBits → 2 ^ width ≤ v → Synthesis.choices d d' results value = ∅) ∧
        (width = F.numBits →
          (Synthesis.choices d d' results value).ncard = if v + F.modulus < 2 ^ width then 2 else 1) := by
  have marked : ∀ wire ∈ d.booleans, wire.index < d.size := fun wire hwire =>
    ((reached.coherent prime).booleans wire hwire).1
  obtain ⟨d', n, before, after, hrun, adds⟩ := Synthesis.run_digitWires pos hx marked
  rw [← Synthesis.run_toBits_of_kept pos fits kept] at hrun
  refine ⟨_, d', hrun, by simp [Wire.length_span], ?_⟩
  rintro value v rfl
  rw [adds.choices_eq prime hx value]
  refine ⟨?_, fun narrow => PrimeField.decompositions_of_lt narrow,
    fun narrow => PrimeField.decompositions_of_le narrow, ?_⟩
  · ext digits
    exact and_congr_right fun _ => PrimeField.isDecomposition_iff_modEq
  · rintro rfl
    exact PrimeField.ncard_decompositions _

/-- Two digits after the example circuit, for an operand of two and of five. -/
theorem toBits_fiveForZero : ∃ results d',
    (Synthesis.toBits (ofWire ⟨3⟩) 2).run (Circuit.fiveForZero.define (Backend.gate.Form .seven) true 0).draft
      = .ok results d' ∧
    Synthesis.choices (Circuit.fiveForZero.define (Backend.gate.Form .seven) true 0).draft d' results
      (fun _ => 2) = {[0, 1]} ∧
    Synthesis.choices (Circuit.fiveForZero.define (Backend.gate.Form .seven) true 0).draft d' results
      (fun _ => 5) = ∅ := by
  have reached : (Circuit.fiveForZero.define (Backend.gate.Form .seven) true 0).draft.Reached :=
    ⟨Circuit.fiveForZero, true, 0, by decide, rfl⟩
  have below : (ofWire ⟨3⟩ : LinearCombination .seven).Below
      (Circuit.fiveForZero.define (Backend.gate.Form .seven) true 0).draft.size :=
    LinearCombination.below_ofWire.mpr (by decide)
  obtain ⟨results, d', hrun, -, choices⟩ :=
    toBits_choices PrimeField.prime_seven reached below (by decide : 1 ≤ 2) (by decide) (.inl rfl)
  exact ⟨results, d', hrun, (choices (fun _ => 2) 2 (by decide)).2.1 (by decide) (by decide),
    (choices (fun _ => 5) 5 (by decide)).2.2.1 (by decide) (by decide)⟩

end ArithCircuit
