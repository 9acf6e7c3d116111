import ArithCircuit.Proofs.Hint.Registry

/-!
# What the built-in hints compute

A quotient modulo a prime is the only residue that meets the constraint it is asked for, and binary digits add up
to the number. A hint refuses where there is no such answer.
-/

namespace ArithCircuit

open scoped Fin.CommRing

open PrimeField (inverse? ofBit)

variable {p : Nat}

/-- The residue is the only one modulo `p` with the property. -/
structure IsOnlyResidue (p : Nat) (property : Nat → Prop) (y : Nat) : Prop where
  lt : y < p
  holds : property y
  only : ∀ z < p, property z → z = y

/-- There is one value, and it is the only residue with the property. -/
def IsAnswer (p : Nat) (property : Nat → Prop) (values : List Nat) : Prop :=
  ∃ y, values = [y] ∧ IsOnlyResidue p property y

/-- The values are so many binary digits, least significant first, and add up to the number. -/
structure AreDigits (x width : Nat) (values : List Nat) : Prop where
  length : values.length = width
  digits : ∀ digit ∈ values, digit = 0 ∨ digit = 1
  sum : Nat.ofDigits 2 values = x

/-- The outcome is the refusal if the condition holds, and otherwise values as they should be. -/
inductive AnswersUnless (bad : Prop) (refusal : HintError) (good : List Nat → Prop) :
    Except HintError (List Nat) → Prop
  | refuses : bad → AnswersUnless bad refusal good (.error refusal)
  | answers {values : List Nat} : ¬ bad → good values → AnswersUnless bad refusal good (.ok values)

/-! ## Quotients -/

/-- A number that is no multiple of the prime divides in one way. -/
theorem isOnlyResidue_quotient (prime : p.Prime) {a b q : Nat} (hb : b < p) (nonzero : b ≠ 0) (hq : q < p)
    (quotient : b * q ≡ a [MOD p]) : IsOnlyResidue p (fun q => b * q ≡ a [MOD p]) q where
  lt := hq
  holds := quotient
  only z hz other := by
    have coprime : Nat.gcd p b = 1 :=
      prime.coprime_iff_not_dvd.mpr fun divides => nonzero (Nat.eq_zero_of_dvd_of_lt divides hb)
    have same : z ≡ q [MOD p] := Nat.ModEq.cancel_left_of_coprime coprime (other.trans quotient.symm)
    exact same.eq_of_lt_of_lt hz hq

namespace PrimeField

variable {F : PrimeField} {a b x y : F.Elem}

theorem modEq_of_mul_eq (h : x * y = a) : x.val * y.val ≡ a.val [MOD F.modulus] := by
  have values := congrArg Fin.val h
  rw [Fin.val_mul] at values
  rw [Nat.ModEq, values, Nat.mod_eq_of_lt a.isLt]

theorem isOnlyResidue_div (prime : F.modulus.Prime) (inverts : inverse? b = some y) :
    IsOnlyResidue F.modulus (fun q => b.val * q ≡ a.val [MOD F.modulus]) (a * y).val := by
  have cancels := mul_of_inverse? prime inverts
  have nonzero : b ≠ 0 := fun zero => by
    rw [inverse?_eq_none.mpr zero] at inverts
    cases inverts
  exact isOnlyResidue_quotient prime b.isLt (fun zero => nonzero (Fin.ext zero)) (a * y).isLt
    (modEq_of_mul_eq (by linear_combination a * cancels))

theorem isOnlyResidue_inverse (prime : F.modulus.Prime) (inverts : inverse? x = some y) :
    IsOnlyResidue F.modulus (fun y => x.val * y ≡ 1 [MOD F.modulus]) y.val := by
  have only := isOnlyResidue_div (a := 1) prime inverts
  rwa [one_mul, show (1 : F.Elem).val = 1 from Nat.mod_eq_of_lt F.one_lt_modulus] at only

theorem val_eq_zero : x.val = 0 ↔ x = 0 := ⟨fun zero => Fin.ext zero, congrArg Fin.val⟩

end PrimeField

/-! ## Digits -/

theorem areDigits_lowBits {x width : Nat} (fits : x < 2 ^ width) :
    AreDigits x width ((lowBits width x).map Bool.toNat) where
  length := by simp
  digits digit hdigit := by
    obtain ⟨bit, -, rfl⟩ := List.mem_map.mp hdigit
    cases bit <;> simp
  sum := by rw [ofDigits_map_toNat, ofBits_lowBits, Nat.mod_eq_of_lt fits]

/-! ## The hints -/

namespace HintRegistry

/-- What any hint gives is as long as it is asked to be, and reduced. -/
theorem reduced_of_invoke {registry : HintRegistry} {name : String} {inputs values : List Nat} {outputs : Nat}
    (positive : 0 < p) (invoked : registry.invoke name p inputs outputs = .ok values) :
    values.length = outputs ∧ ∀ value ∈ values, value < p := by
  obtain ⟨given, rfl⟩ := exists_of_invoke invoked
  refine ⟨by simp [reduceOutputs], fun value hvalue => ?_⟩
  obtain ⟨i, -, rfl⟩ := List.mem_map.mp hvalue
  exact Nat.mod_lt _ positive

section Builtin

variable {F : PrimeField} {registry : HintRegistry} (built : FromBuiltin registry)
include built

theorem FromBuiltin.div_answers (prime : F.modulus.Prime) (a b : F.Elem) :
    AnswersUnless (b.val = 0) (.failed Hint.divName [a.val, b.val] "division by zero")
      (IsAnswer F.modulus fun q => b.val * q ≡ a.val [MOD F.modulus])
      (registry.invoke Hint.divName F.modulus [a.val, b.val] 1) := by
  rw [PrimeField.val_eq_zero, ← PrimeField.inverse?_eq_none, invoke_div built]
  cases inverts : inverse? b with
  | none => exact .refuses rfl
  | some y => exact .answers (by simp) ⟨_, rfl, PrimeField.isOnlyResidue_div prime inverts⟩

theorem FromBuiltin.invert_answers (prime : F.modulus.Prime) (x : F.Elem) :
    AnswersUnless (x.val = 0) (.failed Hint.invertName [x.val] "inverse of zero")
      (IsAnswer F.modulus fun y => x.val * y ≡ 1 [MOD F.modulus])
      (registry.invoke Hint.invertName F.modulus [x.val] 1) := by
  rw [PrimeField.val_eq_zero, ← PrimeField.inverse?_eq_none, invoke_invert built]
  cases inverts : inverse? x with
  | none => exact .refuses rfl
  | some y => exact .answers (by simp) ⟨_, rfl, PrimeField.isOnlyResidue_inverse prime inverts⟩

theorem FromBuiltin.inverseOrZero_answers (prime : F.modulus.Prime) (x : F.Elem) :
    ∃ y, registry.invoke Hint.inverseOrZeroName F.modulus [x.val] 1 = .ok [y] ∧ (x.val = 0 → y = 0) ∧
      (x.val ≠ 0 → IsOnlyResidue F.modulus (fun y => x.val * y ≡ 1 [MOD F.modulus]) y) := by
  refine ⟨_, invoke_inverseOrZero built x, fun zero => ?_, fun nonzero => ?_⟩
  · rw [PrimeField.inverse?_eq_none.mpr (PrimeField.val_eq_zero.mp zero)]
    rfl
  · obtain ⟨y, inverts⟩ := PrimeField.inverse?_isSome fun zero => nonzero (PrimeField.val_eq_zero.mpr zero)
    rw [inverts]
    exact PrimeField.isOnlyResidue_inverse prime inverts

theorem FromBuiltin.bits_answers (x : F.Elem) (width : Nat) :
    AnswersUnless (2 ^ width ≤ x.val) (.failed Hint.bitsName [x.val] s!"{x.val} does not fit in {width} bits")
      (AreDigits x.val width) (registry.invoke Hint.bitsName F.modulus [x.val] width) := by
  have binary : (fun bit => (ofBit bit : F.Elem).val) = Bool.toNat := by
    funext bit
    exact Nat.mod_eq_of_lt (Nat.lt_of_lt_of_le (Bool.toNat_lt bit) F.two_le)
  rw [invoke_bits built, PrimeField.decompose?_eq]
  by_cases fits : x.val < 2 ^ width
  · rw [if_pos fits, binary]
    exact .answers (Nat.not_le_of_lt fits) (areDigits_lowBits fits)
  · rw [if_neg fits]
    exact .refuses (Nat.le_of_not_lt fits)

end Builtin

/-- The built-in hints at a prime modulus: on residues each gives the values that its constraints ask for, and
refuses only where there are none. Whatever its handler does, no hint gives more or fewer values than it is asked
for, or values that are not reduced. -/
theorem builtin_answers (prime : p.Prime) :
    (∀ x < p, AnswersUnless (x = 0) (.failed Hint.invertName [x] "inverse of zero")
      (IsAnswer p fun y => x * y ≡ 1 [MOD p]) (builtin.invoke Hint.invertName p [x] 1)) ∧
    (∀ a < p, ∀ b < p, AnswersUnless (b = 0) (.failed Hint.divName [a, b] "division by zero")
      (IsAnswer p fun q => b * q ≡ a [MOD p]) (builtin.invoke Hint.divName p [a, b] 1)) ∧
    (∀ x < p, ∃ y, builtin.invoke Hint.inverseOrZeroName p [x] 1 = .ok [y] ∧ (x = 0 → y = 0) ∧
      (x ≠ 0 → IsOnlyResidue p (fun y => x * y ≡ 1 [MOD p]) y)) ∧
    (∀ x < p, ∀ width, AnswersUnless (2 ^ width ≤ x)
      (.failed Hint.bitsName [x] s!"{x} does not fit in {width} bits") (AreDigits x width)
      (builtin.invoke Hint.bitsName p [x] width)) ∧
    ∀ (registry : HintRegistry) (name : String) (inputs : List Nat) (outputs : Nat) (values : List Nat),
      registry.invoke name p inputs outputs = .ok values →
      values.length = outputs ∧ ∀ value ∈ values, value < p := by
  let F : PrimeField := ⟨p, 0, prime.two_le⟩
  refine ⟨fun x hx => ?invert, fun a ha b hb => ?div, fun x hx => ?inverseOrZero, fun x hx width => ?bits,
    fun registry name inputs outputs values => reduced_of_invoke prime.pos⟩
  case invert => exact FromBuiltin.builtin.invert_answers (F := F) prime ⟨x, hx⟩
  case div => exact FromBuiltin.builtin.div_answers (F := F) prime ⟨a, ha⟩ ⟨b, hb⟩
  case inverseOrZero => exact FromBuiltin.builtin.inverseOrZero_answers (F := F) prime ⟨x, hx⟩
  case bits => exact FromBuiltin.builtin.bits_answers (F := F) ⟨x, hx⟩ width

/-- Five thirds and the digits of six modulo seven. -/
theorem builtin_answers_mod_seven : Nat.Prime 7 ∧ 3 < 7 ∧ 5 < 7 ∧ 6 < 7 ∧
    AnswersUnless (3 = 0) (.failed Hint.divName [5, 3] "division by zero") (IsAnswer 7 fun q => 3 * q ≡ 5 [MOD 7])
      (builtin.invoke Hint.divName 7 [5, 3] 1) ∧
    AnswersUnless (2 ^ 3 ≤ 6) (.failed Hint.bitsName [6] s!"{6} does not fit in {3} bits") (AreDigits 6 3)
      (builtin.invoke Hint.bitsName 7 [6] 3) ∧
    builtin.invoke Hint.bitsName 7 [6] 3 = .ok [0, 1, 1] ∧ ([0, 1, 1] : List Nat).length = 3 ∧
    ∀ value ∈ ([0, 1, 1] : List Nat), value < 7 :=
  have answers := builtin_answers Nat.prime_seven
  ⟨Nat.prime_seven, by decide, by decide, by decide, answers.2.1 5 (by decide) 3 (by decide),
    answers.2.2.2.1 6 (by decide) 3, rfl, answers.2.2.2.2 builtin Hint.bitsName [6] 3 [0, 1, 1] rfl⟩

end HintRegistry

end ArithCircuit
