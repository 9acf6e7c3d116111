import ArithCircuit.Proofs.Field.Arithmetic

/-!
# Binary digits of field elements
-/

namespace ArithCircuit

open scoped Fin.CommRing

/-! ## Digits of numbers -/

theorem ofBits_map_testBit (value : Nat) : (n start : Nat) →
    ofBits ((List.range' start n).map value.testBit) = value >>> start % 2 ^ n
  | 0, start => by simp [ofBits, Nat.mod_one]
  | n + 1, start => by
    have rest := ofBits_map_testBit value n (start + 1)
    have low : (value.testBit start).toNat = value >>> start % 2 := by
      rw [Nat.testBit_eq_decide_div_mod_eq, Nat.shiftRight_eq_div_pow]
      rcases Nat.mod_two_eq_zero_or_one (value / 2 ^ start) with h | h <;> simp [h]
    rw [List.range'_succ, List.map_cons, ofBits, rest, low, Nat.shiftRight_succ, pow_succ']
    rw [Nat.mod_mul]

theorem ofBits_lowBits (n value : Nat) : ofBits (lowBits n value) = value % 2 ^ n := by
  simpa [lowBits, List.range_eq_range'] using ofBits_map_testBit value n 0

theorem ofBits_lt (bits : List Bool) : ofBits bits < 2 ^ bits.length := by
  induction bits with
  | nil => simp [ofBits]
  | cons bit bits ih =>
      have := Bool.toNat_le bit
      rw [ofBits, List.length_cons, pow_succ]
      omega

theorem lowBits_succ (n value : Nat) (bit : Bool) :
    lowBits (n + 1) (bit.toNat + 2 * value) = bit :: lowBits n value := by
  have half : (bit.toNat + 2 * value) / 2 = value := by
    have := Bool.toNat_lt bit
    omega
  have low : (bit.toNat + 2 * value).testBit 0 = bit := by
    cases bit <;> simp [Nat.testBit_zero]
  simp [lowBits, List.range_succ_eq_map, Function.comp_def, Nat.testBit_succ, half, low]

/-- A number has the bits that it was put together from. -/
theorem lowBits_ofBits (bits : List Bool) : lowBits bits.length (ofBits bits) = bits := by
  induction bits with
  | nil => rfl
  | cons bit bits ih => rw [List.length_cons, ofBits, lowBits_succ, ih]

@[simp]
theorem length_lowBits (n value : Nat) : (lowBits n value).length = n := by
  simp [lowBits]

theorem ofDigits_map_toNat (bits : List Bool) : Nat.ofDigits 2 (bits.map Bool.toNat) = ofBits bits := by
  induction bits with
  | nil => rfl
  | cons bit bits ih => rw [List.map_cons, Nat.ofDigits_cons, ih, ofBits]

theorem ofBits_append (low high : List Bool) :
    ofBits (low ++ high) = ofBits low + 2 ^ low.length * ofBits high := by
  simp only [← ofDigits_map_toNat, List.map_append, Nat.ofDigits_append, List.length_map]

theorem ofBits_take_add_drop (n : Nat) (bits : List Bool) :
    ofBits (bits.take n) + 2 ^ n * ofBits (bits.drop n) = ofBits bits := by
  rcases Nat.le_total n bits.length with enough | short
  · conv_rhs => rw [← List.take_append_drop n bits, ofBits_append, List.length_take_of_le enough]
  · rw [List.take_of_length_le short, List.drop_of_length_le short, ofBits, Nat.mul_zero, Nat.add_zero]

theorem ofBits_eq_zero {bits : List Bool} : ofBits bits = 0 ↔ bits.any id = false := by
  induction bits with
  | nil => simp [ofBits]
  | cons bit bits ih => cases bit <;> simp [ofBits, ih]

theorem ofBits_rightpad (n : Nat) (bits : List Bool) : ofBits (bits.rightpad n false) = ofBits bits := by
  have padding : ofBits (List.replicate (n - bits.length) false) = 0 := ofBits_eq_zero.mpr (by simp)
  rw [List.rightpad, ofBits_append, padding, Nat.mul_zero, Nat.add_zero]

/-- Bits fit into so many if their number does, and they are then its bits. -/
theorem fitBits?_eq (n : Nat) (bits : List Bool) :
    fitBits? n bits = if ofBits bits < 2 ^ n then some (lowBits n (ofBits bits)) else none := by
  have parts := ofBits_take_add_drop n bits
  cases beyond : (bits.drop n).any id with
  | true =>
      have some_set : 0 < ofBits (bits.drop n) := by
        refine Nat.pos_of_ne_zero fun zero => ?_
        rw [ofBits_eq_zero.mp zero] at beyond
        cases beyond
      have large : 2 ^ n ≤ 2 ^ n * ofBits (bits.drop n) := Nat.le_mul_of_pos_right _ some_set
      rw [fitBits?, if_pos beyond, if_neg (by omega)]
  | false =>
      rw [ofBits_eq_zero.mpr beyond, Nat.mul_zero, Nat.add_zero] at parts
      have small : ofBits (bits.take n) < 2 ^ n :=
        (ofBits_lt _).trans_le (Nat.pow_le_pow_right Nat.zero_lt_two (List.length_take_le n bits))
      have length : ((bits.take n).rightpad n false).length = n := by
        rw [List.length_rightpad, List.length_take]
        omega
      have resized := lowBits_ofBits ((bits.take n).rightpad n false)
      rw [length, ofBits_rightpad, parts] at resized
      rw [fitBits?, if_neg (Bool.eq_false_iff.mp beyond), if_pos (parts ▸ small), resized]

theorem fitBits?_lowBits {n width value : Nat} (fits : value < 2 ^ width) :
    fitBits? n (lowBits width value) = if value < 2 ^ n then some (lowBits n value) else none := by
  rw [fitBits?_eq, ofBits_lowBits, Nat.mod_eq_of_lt fits]

theorem mem_of_mem_chunks {α : Type} {size : Nat} {xs chunk : List α} {x : α} (hchunk : chunk ∈ chunks size xs)
    (hx : x ∈ chunk) : x ∈ xs := by
  obtain ⟨i, -, rfl⟩ := List.mem_map.mp hchunk
  exact List.mem_of_mem_drop (List.mem_of_mem_take hx)

theorem map_chunks {α β : Type} (f : α → β) (size : Nat) (xs : List α) :
    (chunks size xs).map (List.map f) = chunks size (xs.map f) := by
  simp [chunks, List.map_take, List.map_drop]

namespace PrimeField

variable {F : PrimeField}

/-! ## Elements spelled by digits -/

/-- The element spelled by digits, least significant first: the sum of the digits, each times two
to the number of digits before it. -/
def ofDigits : List F.Elem → F.Elem
  | [] => 0
  | digit :: digits => digit + (ofDigits digits + ofDigits digits)

def IsDigit (x : F.Elem) : Prop := x = 0 ∨ x = 1

instance (x : F.Elem) : Decidable (IsDigit x) := inferInstanceAs (Decidable (x = 0 ∨ x = 1))

/-- A digit as an element. -/
def ofBit (bit : Bool) : F.Elem := F.ofNat bit.toNat

theorem ofBit_false : (ofBit false : F.Elem) = 0 := rfl

theorem ofBit_true : (ofBit true : F.Elem) = 1 := rfl

theorem ofBit_isDigit (bit : Bool) : IsDigit (ofBit bit : F.Elem) := by
  cases bit
  · exact .inl rfl
  · exact .inr rfl

theorem ofNat_add (m n : Nat) : F.ofNat (m + n) = F.ofNat m + F.ofNat n := by
  apply Fin.ext
  simp [Fin.val_add, Nat.add_mod]

theorem ofDigits_ofBit (bits : List Bool) :
    ofDigits (bits.map ofBit) = F.ofNat (ofBits bits) := by
  induction bits with
  | nil => rfl
  | cons bit bits ih =>
      rw [List.map_cons, ofDigits, ih, ofBits, Nat.two_mul, ofNat_add, ofNat_add]
      rfl

theorem val_lt_two_pow {width : Nat} (wide : F.numBits ≤ width) (x : F.Elem) : x.val < 2 ^ width :=
  (x.isLt.trans (bitLength_spec F.modulus)).trans_le (Nat.pow_le_pow_right Nat.zero_lt_two wide)

theorem numBits_le_reprBits (F : PrimeField) : F.numBits ≤ F.reprBits := by
  unfold reprBits
  omega

theorem decompose?_eq {x : F.Elem} {n : Nat} :
    decompose? x n = if x.val < 2 ^ n then some (lowBits n x.val) else none :=
  fitBits?_lowBits (val_lt_two_pow F.numBits_le_reprBits x)

/-! ## Numbers spelled by digits -/

/-- The digits are those of the number, which needs no more. -/
structure Spells (digits : List F.Elem) (n : Nat) : Prop where
  lt : n < 2 ^ digits.length
  eq : digits = (lowBits digits.length n).map ofBit

instance (digits : List F.Elem) (n : Nat) : Decidable (Spells digits n) :=
  decidable_of_iff (n < 2 ^ digits.length ∧ digits = (lowBits digits.length n).map ofBit)
    ⟨fun h => ⟨h.1, h.2⟩, fun h => ⟨h.lt, h.eq⟩⟩

theorem exists_bits {digits : List F.Elem} (isDigit : ∀ digit ∈ digits, IsDigit digit) :
    ∃ bits : List Bool, digits = bits.map ofBit := by
  induction digits with
  | nil => exact ⟨[], rfl⟩
  | cons digit digits ih =>
      obtain ⟨first, rest⟩ := List.forall_mem_cons.mp isDigit
      obtain ⟨bits, rfl⟩ := ih rest
      rcases first with rfl | rfl
      · exact ⟨false :: bits, rfl⟩
      · exact ⟨true :: bits, rfl⟩

theorem exists_spells {digits : List F.Elem} (isDigit : ∀ digit ∈ digits, IsDigit digit) :
    ∃ n, Spells digits n ∧ ofDigits digits = F.ofNat n := by
  obtain ⟨bits, rfl⟩ := exists_bits isDigit
  exact ⟨ofBits bits, ⟨by simpa using ofBits_lt bits, by rw [List.length_map, lowBits_ofBits]⟩, ofDigits_ofBit bits⟩

theorem spells_lowBits {n width : Nat} (fits : n < 2 ^ width) :
    Spells ((lowBits width n).map (ofBit : Bool → F.Elem)) n :=
  ⟨by simpa using fits, by simp⟩

theorem Spells.unique {digits digits' : List F.Elem} {n : Nat} (h : Spells digits n) (h' : Spells digits' n)
    (length : digits.length = digits'.length) : digits = digits' := by
  rw [h.eq, h'.eq, length]

theorem two_pow_numBits_le (F : PrimeField) : 2 ^ F.numBits ≤ 2 * F.modulus :=
  two_pow_bitLength_le (Nat.ne_of_gt F.one_lt_modulus.le)

theorem two_pow_le_modulus {width : Nat} (h : width < F.numBits) : 2 ^ width ≤ F.modulus := by
  have double : 2 ^ (width + 1) ≤ 2 ^ F.numBits := Nat.pow_le_pow_right Nat.zero_lt_two h
  have bound := F.two_pow_numBits_le
  rw [Nat.pow_succ] at double
  omega

/-- A number as wide as the modulus is a residue, or one modulus away from it. -/
theorem eq_val_or_of_lt {n : Nat} {x : F.Elem} (spelled : F.ofNat n = x) (hlt : n < 2 ^ F.numBits) :
    n = x.val ∨ n = x.val + F.modulus := by
  have bound := F.two_pow_numBits_le
  have residue : x.val = n % F.modulus := by rw [← spelled, val_ofNat]
  rcases Nat.lt_or_ge n F.modulus with small | large
  · exact .inl (by rw [residue, Nat.mod_eq_of_lt small])
  · have rest : n % F.modulus = n - F.modulus := by
      rw [Nat.mod_eq_sub_mod large, Nat.mod_eq_of_lt (by omega)]
    exact .inr (by omega)

end PrimeField

end ArithCircuit
