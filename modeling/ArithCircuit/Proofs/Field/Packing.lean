import ArithCircuit.Proofs.Field.Digits
import Mathlib.Algebra.Order.Floor.Div
import Mathlib.Data.Nat.Digits.Lemmas

/-!
# Bits packed into field elements

The chunks of a string of bits are the digits of its number in the base of a chunk. No chunk of `capacity`
bits reaches the modulus, so the elements that bits are packed into are these digits, and no bit is lost.
-/

namespace ArithCircuit

open scoped Fin.CommRing

/-! ## Chunks -/

section Chunks

variable {α : Type} {size : Nat} {xs : List α}

theorem length_chunks (size : Nat) (xs : List α) : (chunks size xs).length = xs.length ⌈/⌉ size := by
  rw [chunks, List.length_map, List.length_range, Nat.ceilDiv_eq_add_pred_div]

theorem length_le_of_mem_chunks {chunk : List α} (h : chunk ∈ chunks size xs) : chunk.length ≤ size := by
  obtain ⟨i, -, rfl⟩ := List.mem_map.mp h
  exact List.length_take_le _ _

theorem chunks_cons (pos : 0 < size) (some : xs ≠ []) :
    chunks size xs = xs.take size :: chunks size (xs.drop size) := by
  have count : (xs.length + size - 1) / size = ((xs.drop size).length + size - 1) / size + 1 := by
    have := List.length_pos_iff.mpr some
    rw [← Nat.add_div_right _ pos, List.length_drop]
    rcases Nat.lt_or_ge xs.length size with short | long
    · rw [Nat.sub_eq_zero_of_le short.le, Nat.div_eq_of_lt_le (k := 1) (by omega) (by omega),
        Nat.div_eq_of_lt_le (k := 1) (by omega) (by omega)]
    · congr 1
      omega
  rw [chunks, count, List.range_succ_eq_map, List.map_cons, List.map_map, Nat.mul_zero, List.drop_zero, chunks]
  congr 1
  apply List.map_congr_left
  intro i _
  rw [Function.comp_apply, List.drop_drop, Nat.mul_succ, Nat.add_comm]

/-- The numbers of the chunks are the digits of the number of all bits. -/
theorem ofDigits_chunks (pos : 0 < size) (bits : List Bool) :
    Nat.ofDigits (2 ^ size) ((chunks size bits).map ofBits) = ofBits bits := by
  induction h : bits.length using Nat.strong_induction_on generalizing bits with
  | _ n ih =>
      by_cases none : bits = []
      · subst none
        simp [chunks, Nat.div_eq_of_lt (Nat.sub_lt pos Nat.one_pos), ofBits]
      · have shorter : (bits.drop size).length < n := by
          have := List.length_pos_iff.mpr none
          rw [List.length_drop]
          omega
        rw [chunks_cons pos none, List.map_cons, Nat.ofDigits_cons, ih _ shorter (bits.drop size) rfl,
          ofBits_take_add_drop]

end Chunks

/-! ## Bytes -/

@[simp]
theorem length_bytesToBitsLE (bytes : List UInt8) : (bytesToBitsLE bytes).length = 8 * bytes.length := by
  simp [bytesToBitsLE, List.length_flatMap, Nat.mul_comm]

/-- The bits of bytes spell the number that the bytes spell, if both have the least significant first. -/
theorem ofBits_bytesToBitsLE (bytes : List UInt8) :
    ofBits (bytesToBitsLE bytes) = Nat.ofDigits 256 (bytes.map UInt8.toNat) := by
  induction bytes with
  | nil => rfl
  | cons byte bytes ih =>
      rw [bytesToBitsLE, List.flatMap_cons, ofBits_append, length_lowBits, ofBits_lowBits,
        Nat.mod_eq_of_lt byte.toNat_lt, ← bytesToBitsLE, ih, List.map_cons, Nat.ofDigits_cons]
      rfl

theorem bytesToBits_eq (bytes : List UInt8) : bytesToBits bytes = (bytesToBitsLE bytes.reverse).reverse := by
  rw [bytesToBits, bytesToBitsLE, List.reverse_flatMap, List.reverse_reverse]
  rfl

/-! ## Packing -/

namespace PrimeField

variable {F : PrimeField}

theorem capacity_pos (F : PrimeField) : 0 < F.capacity := by
  have large : 2 ≤ F.numBits := by
    by_contra small
    have bound : 2 ^ F.numBits ≤ 2 ^ 1 := Nat.pow_le_pow_right Nat.zero_lt_two (by omega)
    have := bitLength_spec F.modulus
    have := F.two_le
    unfold numBits at bound
    omega
  unfold capacity
  omega

theorem two_pow_capacity_le (F : PrimeField) : 2 ^ F.capacity ≤ F.modulus := by
  have := F.capacity_pos
  exact two_pow_le_modulus (by unfold capacity at *; omega)

theorem foldl_weigh (bits : List Bool) (sum weight : F.Elem) :
    (bits.foldl (fun (sum, weight) bit => (if bit then sum + weight else sum, weight + weight)) (sum, weight)).1
      = sum + weight * ofDigits (bits.map ofBit) := by
  induction bits generalizing sum weight with
  | nil => simp [ofDigits]
  | cons bit bits ih =>
      rw [List.foldl_cons, ih, List.map_cons, ofDigits]
      cases bit
      · rw [ofBit_false, if_neg Bool.false_ne_true]
        ring
      · rw [ofBit_true, if_pos rfl]
        ring

/-- The native weights are those of digits. -/
theorem weigh_eq (bits : List Bool) : F.weigh bits = ofDigits (bits.map ofBit) := by
  rw [weigh, foldl_weigh, zero_add, one_mul]

theorem ofBits_lt_two_pow_capacity {bits : List Bool} (narrow : bits.length ≤ F.capacity) :
    ofBits bits < 2 ^ F.capacity :=
  (ofBits_lt bits).trans_le (Nat.pow_le_pow_right Nat.zero_lt_two narrow)

/-- A string of at most `capacity` bits weighs its number, which is below the modulus. -/
theorem val_weigh {bits : List Bool} (narrow : bits.length ≤ F.capacity) : (F.weigh bits).val = ofBits bits := by
  have small := (ofBits_lt_two_pow_capacity narrow).trans_le F.two_pow_capacity_le
  rw [weigh_eq, ofDigits_ofBit, val_ofNat, Nat.mod_eq_of_lt small]

theorem length_multipack (bits : List Bool) : (F.multipack bits).length = bits.length ⌈/⌉ F.capacity := by
  rw [multipack, List.length_map, length_chunks]

theorem multipack_eq (bits : List Bool) : F.multipack bits = (chunks F.capacity (bits.map ofBit)).map ofDigits := by
  rw [multipack, ← map_chunks, List.map_map]
  exact List.map_congr_left fun chunk _ => weigh_eq chunk

theorem map_val_multipack (bits : List Bool) :
    (F.multipack bits).map (·.val) = (chunks F.capacity bits).map ofBits := by
  rw [multipack, List.map_map]
  exact List.map_congr_left fun chunk hchunk => val_weigh (length_le_of_mem_chunks hchunk)

/-- The number of the bits is read back from the elements. -/
theorem ofDigits_multipack (bits : List Bool) :
    Nat.ofDigits (2 ^ F.capacity) ((F.multipack bits).map (·.val)) = ofBits bits := by
  rw [map_val_multipack, ofDigits_chunks F.capacity_pos]

theorem multipack_inj {bits bits' : List Bool} (length : bits.length = bits'.length)
    (same : F.multipack bits = F.multipack bits') : bits = bits' := by
  have number : ofBits bits = ofBits bits' := by
    rw [← ofDigits_multipack (F := F) bits, same, ofDigits_multipack]
  rw [← lowBits_ofBits bits, number, length, lowBits_ofBits]

/-- The elements are the digits of the number of the bits, as many as there are chunks. -/
theorem map_val_multipack_eq_digits (bits : List Bool) : (F.multipack bits).map (·.val)
    = Nat.digitsAppend (2 ^ F.capacity) (bits.length ⌈/⌉ F.capacity) (ofBits bits) := by
  have base : 1 < 2 ^ F.capacity := Nat.one_lt_two_pow F.capacity_pos.ne'
  have length : ((F.multipack bits).map (·.val)).length = bits.length ⌈/⌉ F.capacity := by
    rw [List.length_map, length_multipack]
  have digits : ∀ digit ∈ (F.multipack bits).map (·.val), digit < 2 ^ F.capacity := by
    rw [map_val_multipack]
    exact List.forall_mem_map.mpr fun chunk hchunk => ofBits_lt_two_pow_capacity (length_le_of_mem_chunks hchunk)
  rw [← ofDigits_multipack (F := F) bits]
  exact ((Nat.setInvOn_digitsAppend_ofDigits base _).1 ⟨length, digits⟩).symm

end PrimeField

end ArithCircuit
