import ArithCircuit.Field.Basic
import Mathlib.FieldTheory.Finite.Basic
import Mathlib.Tactic.LinearCombination

/-!
# The arithmetic of field elements

The elements form a commutative ring for every modulus. For a prime modulus no product of non-zero
elements is zero, and the power to the modulus less two is the inverse.
-/

namespace ArithCircuit

open scoped Fin.CommRing

/-! ## Modular powers -/

/-- So many bits are enough for the numbers below that power of two, and for no other. -/
theorem bitLength_le {n width : Nat} : bitLength n ≤ width ↔ n < 2 ^ width := by
  unfold bitLength
  split
  · rename_i zero
    simp [zero]
  · rename_i positive
    rw [Nat.succ_le_iff, Nat.log2_lt positive]

theorem bitLength_spec (n : Nat) : n < 2 ^ bitLength n := bitLength_le.mp le_rfl

theorem two_pow_bitLength_le {n : Nat} (h : n ≠ 0) : 2 ^ bitLength n ≤ 2 * n := by
  have half := Nat.log2_self_le h
  rw [bitLength, if_neg h, Nat.pow_succ]
  omega

theorem powModBits_eq (modulus base : Nat) : (bits exponent : Nat) → exponent < 2 ^ bits →
    powModBits modulus base bits exponent = base ^ exponent % modulus
  | 0, exponent, h => by
    obtain rfl : exponent = 0 := by simpa using h
    simp [powModBits]
  | bits + 1, exponent, h => by
    have half := powModBits_eq modulus base bits (exponent / 2) (by omega)
    -- the exponent is twice its half, and one more if it is odd
    have split : base ^ exponent
        = base ^ (exponent / 2) * base ^ (exponent / 2) * base ^ (exponent % 2) := by
      rw [← pow_add, ← pow_add]
      congr 1
      omega
    simp only [powModBits, half]
    rcases Nat.mod_two_eq_zero_or_one exponent with even | odd
    · simp [even, split, Nat.mul_mod]
    · simp [odd, split, Nat.mul_mod]

theorem powMod_eq (modulus base exponent : Nat) :
    powMod modulus base exponent = base ^ exponent % modulus :=
  powModBits_eq modulus base _ exponent (bitLength_spec exponent)

namespace PrimeField

variable {F : PrimeField}

/-! ## Elements and numbers -/

theorem one_lt_modulus (F : PrimeField) : 1 < F.modulus := F.two_le

@[simp]
theorem val_ofNat (n : Nat) : (F.ofNat n).val = n % F.modulus := rfl

@[simp]
theorem ofNat_val (x : F.Elem) : F.ofNat x.val = x :=
  Fin.ext (Nat.mod_eq_of_lt x.isLt)

theorem one_ne_zero : (1 : F.Elem) ≠ 0 := by
  intro h
  have hval := congrArg Fin.val h
  have hone : ((1 : F.Elem) : Nat) = 1 % F.modulus := rfl
  have hzero : ((0 : F.Elem) : Nat) = 0 := rfl
  rw [hone, hzero, Nat.mod_eq_of_lt F.one_lt_modulus] at hval
  cases hval

/-! ## Inverses -/

theorem inverse?_eq_none {x : F.Elem} : inverse? x = none ↔ x = 0 := by
  unfold inverse?
  split <;> simp_all

theorem inverse?_isSome {x : F.Elem} (h : x ≠ 0) : ∃ y, inverse? x = some y := by
  cases hx : inverse? x with
  | none => exact absurd (inverse?_eq_none.mp hx) h
  | some y => exact ⟨y, rfl⟩

theorem not_dvd_val {x : F.Elem} (h : x ≠ 0) : ¬ F.modulus ∣ x.val := by
  intro hdvd
  exact h (Fin.ext (Nat.eq_zero_of_dvd_of_lt hdvd x.isLt))

section Prime

variable (prime : F.modulus.Prime)
include prime

/-- The power to the modulus less two is the inverse modulo a prime. -/
theorem mul_pow_mod {x : Nat} (h : ¬ F.modulus ∣ x) :
    x * powMod F.modulus x (F.modulus - 2) % F.modulus = 1 := by
  have coprime : Nat.Coprime x F.modulus := (prime.coprime_iff_not_dvd.mpr h).symm
  have fermat : x ^ (F.modulus - 1) ≡ 1 [MOD F.modulus] := by
    simpa [Nat.totient_prime prime] using Nat.ModEq.pow_totient coprime
  have two := F.two_le
  rw [powMod_eq, Nat.mul_mod_mod, ← pow_succ', show F.modulus - 2 + 1 = F.modulus - 1 by omega,
    fermat, Nat.mod_eq_of_lt F.one_lt_modulus]

theorem mul_of_inverse? {x y : F.Elem} (h : inverse? x = some y) : x * y = 1 := by
  unfold inverse? at h
  split at h
  · cases h
  · rename_i hx
    cases h
    apply Fin.ext
    have hone : ((1 : F.Elem) : Nat) = 1 % F.modulus := rfl
    rw [Fin.val_mul, val_ofNat, Nat.mul_mod_mod, mul_pow_mod prime (not_dvd_val hx), hone,
      Nat.mod_eq_of_lt F.one_lt_modulus]

theorem mul_eq_zero {x y : F.Elem} : x * y = 0 ↔ x = 0 ∨ y = 0 := by
  constructor
  · intro h
    by_cases hx : x = 0
    · exact .inl hx
    · obtain ⟨z, hz⟩ := inverse?_isSome hx
      have hxz := mul_of_inverse? prime hz
      exact .inr (by linear_combination z * h - y * hxz)
  · rintro (rfl | rfl) <;> ring

/-- A root of `x · (x - 1)` is a binary digit. -/
theorem mul_sub_one_eq_zero {x : F.Elem} : x * (x - 1) = 0 ↔ x = 0 ∨ x = 1 := by
  rw [mul_eq_zero prime, sub_eq_zero]

end Prime

/-- A field for examples. -/
def seven : PrimeField := ⟨7, 3, by decide⟩

theorem prime_seven : seven.modulus.Prime := Nat.prime_seven

end PrimeField

end ArithCircuit
