import ArithCircuit.Field.Bytes
import ArithCircuit.Proofs.Field.Number

/-!
# Numbers and elements as bytes

A number that fits into so many bytes is what they spell, and an element fits into the bytes of the
modulus.
-/

namespace ArithCircuit

/-! ## Numbers -/

@[simp]
theorem length_bigEndian (width n : Nat) : (bigEndian width n).length = width := by
  induction width with
  | zero => rfl
  | succ width ih => rw [bigEndian, List.length_cons, ih]

theorem foldl_bigEndian (width n start : Nat) :
    (bigEndian width n).foldl (fun n byte => 256 * n + byte.toNat) start = start * 256 ^ width + n % 256 ^ width := by
  induction width generalizing start with
  | zero => simp [bigEndian, Nat.mod_one]
  | succ width ih =>
      have first : (UInt8.ofNat (n >>> (8 * width))).toNat = n / 256 ^ width % 256 := by
        rw [UInt8.toNat_ofNat', Nat.shiftRight_eq_div_pow, Nat.pow_mul]
      rw [bigEndian, List.foldl_cons, ih, first, Nat.mod_pow_succ, pow_succ]
      ring

/-- A number is what its bytes spell, if there are enough of them. -/
theorem ofBigEndian_bigEndian {width n : Nat} (fits : n < 256 ^ width) : ofBigEndian (bigEndian width n) = n := by
  rw [ofBigEndian, foldl_bigEndian, Nat.zero_mul, Nat.zero_add, Nat.mod_eq_of_lt fits]

theorem ofBigEndian_eq_ofDigits (bytes : List UInt8) :
    ofBigEndian bytes = Nat.ofDigits 256 (bytes.map UInt8.toNat).reverse := by
  induction bytes using List.reverseRecOn with
  | nil => rfl
  | append_singleton bytes byte ih =>
      rw [ofBigEndian, List.foldl_append, List.map_append, List.reverse_append, ← ofBigEndian, ih]
      exact Nat.add_comm ..

theorem digits_lt (bytes : List UInt8) : ∀ digit ∈ (bytes.map UInt8.toNat).reverse, digit < 256 := by
  intro digit hdigit
  obtain ⟨byte, -, rfl⟩ := List.mem_map.mp (List.mem_reverse.mp hdigit)
  exact byte.toNat_lt

theorem ofBigEndian_lt (bytes : List UInt8) : ofBigEndian bytes < 256 ^ bytes.length := by
  have bound := Nat.ofDigits_lt_base_pow_length (by decide) (digits_lt bytes)
  rwa [← ofBigEndian_eq_ofDigits, List.length_reverse, List.length_map] at bound

/-- Bytes are the spelling of the number that they spell. -/
theorem bigEndian_ofBigEndian (bytes : List UInt8) : bigEndian bytes.length (ofBigEndian bytes) = bytes := by
  have same := ofBigEndian_bigEndian (ofBigEndian_lt bytes)
  rw [ofBigEndian_eq_ofDigits, ofBigEndian_eq_ofDigits] at same
  have digits := Nat.ofDigits_inj_of_len_eq (by decide) (by simp) (digits_lt _) (digits_lt _) same
  rw [← ofBigEndian_eq_ofDigits] at digits
  exact List.map_injective_iff.mpr (fun _ _ => UInt8.toNat_inj.mp) (List.reverse_injective digits)

/-- Bytes beyond the ones of a number are zero. -/
theorem bigEndian_add (pad : Nat) {width n : Nat} (fits : n < 256 ^ width) :
    bigEndian (pad + width) n = List.replicate pad 0 ++ bigEndian width n := by
  induction pad with
  | zero => rw [Nat.zero_add, List.replicate_zero, List.nil_append]
  | succ pad ih =>
      have first : n >>> (8 * (pad + width)) = 0 := by
        rw [Nat.shiftRight_eq_div_pow, Nat.pow_mul, Nat.div_eq_of_lt]
        exact Nat.lt_of_lt_of_le fits (Nat.pow_le_pow_right (by decide) (Nat.le_add_left width pad))
      rw [Nat.succ_add, bigEndian, ih, first, List.replicate_succ, List.cons_append]
      rfl

theorem lt_pow_iff_bitLength {n width : Nat} : n < 256 ^ width ↔ bitLength n ≤ 8 * width := by
  rw [bitLength_le, Nat.pow_mul]

theorem minimalBigEndian_fits (n : Nat) : n < 256 ^ max 1 ((bitLength n + 7) / 8) := by
  rw [lt_pow_iff_bitLength]
  omega

/-! ## Elements -/

namespace PrimeField

open scoped Fin.CommRing

variable {F : PrimeField}

theorem modulus_lt (F : PrimeField) : F.modulus < 256 ^ F.byteLength := by
  rw [lt_pow_iff_bitLength, byteLength, numBits]
  omega

/-- No fewer bytes hold the modulus. -/
theorem byteLength_isLeast (F : PrimeField) : IsLeast {width | F.modulus < 256 ^ width} F.byteLength := by
  refine ⟨F.modulus_lt, fun width (fits : F.modulus < 256 ^ width) => ?_⟩
  rw [lt_pow_iff_bitLength] at fits
  rw [byteLength, numBits]
  omega

/-- The bytes of the number behind zeros are the fixed number of bytes of the residue. -/
theorem toBytes_eq (x : F.Elem) : toBytes x = bigEndian F.byteLength x.val := by
  have positive : 0 < F.byteLength := by
    by_contra none
    have small := F.modulus_lt
    rw [Nat.eq_zero_of_not_pos none] at small
    exact Nat.not_lt.mpr (Nat.le_of_lt F.one_lt_modulus) small
  have narrow : max 1 ((bitLength x.val + 7) / 8) ≤ F.byteLength := by
    have fits := lt_pow_iff_bitLength.mp (Nat.lt_trans x.isLt F.modulus_lt)
    omega
  rw [toBytes, toNumber_eq, minimalBigEndian, length_bigEndian, ← bigEndian_add _ (minimalBigEndian_fits _),
    Nat.sub_add_cancel narrow]

@[simp]
theorem length_toBytes (x : F.Elem) : (toBytes x).length = F.byteLength := by
  rw [toBytes_eq, length_bigEndian]

theorem ofBigEndian_toBytes (x : F.Elem) : ofBigEndian (toBytes x) = x.val := by
  rw [toBytes_eq, ofBigEndian_bigEndian (Nat.lt_trans x.isLt F.modulus_lt)]

theorem ofBytes?_eq_none {bytes : List UInt8} :
    F.ofBytes? bytes = none ↔ bytes.length ≠ F.byteLength ∨ F.modulus ≤ ofBigEndian bytes := by
  simp [ofBytes?, or_iff_not_imp_left]

/-- An element is read from its own bytes and from no others. -/
theorem ofBytes?_eq_some {bytes : List UInt8} {x : F.Elem} : F.ofBytes? bytes = some x ↔ bytes = toBytes x := by
  constructor
  · intro read
    unfold ofBytes? at read
    dsimp only at read
    split at read
    · cases read
    · rename_i canonical
      obtain ⟨length, small⟩ := not_or.mp canonical
      obtain rfl := Option.some.inj read
      rw [toBytes_eq, ofNumber_eq, val_ofNat, Nat.mod_eq_of_lt (Nat.not_le.mp small), ← not_not.mp length,
        bigEndian_ofBigEndian]
  · rintro rfl
    have canonical : ¬ ((toBytes x).length ≠ F.byteLength ∨ F.modulus ≤ ofBigEndian (toBytes x)) := by
      rw [length_toBytes, ofBigEndian_toBytes]
      exact not_or.mpr ⟨not_not_intro rfl, Nat.not_le.mpr x.isLt⟩
    rw [ofBytes?, if_neg canonical, ofNumber_eq, ofBigEndian_toBytes, ofNat_val]

theorem ofBytes?_toBytes (x : F.Elem) : F.ofBytes? (toBytes x) = some x := ofBytes?_eq_some.mpr rfl

/-- An element has one spelling. -/
theorem toBytes_of_ofBytes? {bytes : List UInt8} {x : F.Elem} (h : F.ofBytes? bytes = some x) : toBytes x = bytes :=
  (ofBytes?_eq_some.mp h).symm

theorem toNumber_neg_one (F : PrimeField) : toNumber (-1 : F.Elem) + 1 = F.modulus := by
  have one : ((1 : F.Elem) : Nat) = 1 := Nat.mod_eq_of_lt F.one_lt_modulus
  have two := F.two_le
  rw [toNumber_eq, Fin.val_neg', one, Nat.mod_eq_of_lt (by omega)]
  omega

/-- Numbers of any size enter the field as their residues, and elements leave it as theirs. The bytes of an
element are as many as the modulus needs, and no other bytes are read as that element. -/
theorem conversions_exact (F : PrimeField) :
    toNumber (-1 : F.Elem) + 1 = F.modulus ∧
    (∀ n, toNumber (F.ofNumber n) = n % F.modulus) ∧
    (∀ x : F.Elem, F.ofNumber (toNumber x) = x ∧
      (∀ width, F.numBits ≤ width → F.numberOfBits (lowBits width x.val) = toNumber x) ∧
      (toBytes x).length = F.byteLength ∧ ofBigEndian (toBytes x) = toNumber x) ∧
    IsLeast {width | F.modulus < 256 ^ width} F.byteLength ∧
    ∀ bytes : List UInt8, (∀ x : F.Elem, F.ofBytes? bytes = some x ↔ bytes = toBytes x) ∧
      (F.ofBytes? bytes = none ↔ bytes.length ≠ F.byteLength ∨ F.modulus ≤ ofBigEndian bytes) := by
  refine ⟨F.toNumber_neg_one, fun n => ?_, fun x => ⟨?_, fun width wide => ?_, length_toBytes x, ?_⟩,
    F.byteLength_isLeast, fun bytes => ⟨fun x => ofBytes?_eq_some, ofBytes?_eq_none⟩⟩
  · rw [toNumber_eq, ofNumber_eq, val_ofNat]
  · rw [ofNumber_eq, toNumber_eq, ofNat_val]
  · rw [numberOfBits_lowBits wide, toNumber_eq]
  · rw [ofBigEndian_toBytes, toNumber_eq]

/-- A prime of two limbs and three words. -/
def mersenne89 : PrimeField := ⟨2 ^ 89 - 1, 3, by decide⟩

theorem conversions_exact_mersenne89 : mersenne89.numBits ≤ 128 ∧
    mersenne89.numberOfBits (lowBits 128 (7 : mersenne89.Elem).val) = toNumber (7 : mersenne89.Elem) ∧
    toNumber (mersenne89.ofNumber (2 ^ 89 + 2 ^ 64)) = 2 ^ 64 + 1 := by
  obtain ⟨-, numbers, elements, -⟩ := conversions_exact mersenne89
  have enough : mersenne89.numBits ≤ 128 := by decide
  exact ⟨enough, (elements 7).2.1 128 enough, (numbers _).trans (by decide)⟩

end PrimeField

end ArithCircuit
