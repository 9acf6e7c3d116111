import ArithCircuit.Proofs.Field.Packing
import ArithCircuit.Proofs.Linear.Assignments
import Mathlib.Algebra.BigOperators.Fin

/-!
# Sums of weighted bits

The weights that bits are summed with are the powers of two, whether the bits are expressions, elements or
digits of a number.
-/

namespace ArithCircuit

open scoped Fin.CommRing

variable {F : PrimeField}

namespace PrimeField

/-! ## Powers of two -/

theorem powerOfTwo_succ (i : Nat) : F.powerOfTwo (i + 1) = F.powerOfTwo i + F.powerOfTwo i := rfl

theorem powerOfTwo_eq (i : Nat) : F.powerOfTwo i = F.ofNat (2 ^ i) := by
  induction i with
  | zero => rfl
  | succ i ih => rw [powerOfTwo_succ, ih, pow_succ, Nat.mul_two, ofNat_add]

/-- Digits spell the sum of their products with the powers of two. -/
theorem ofDigits_map_eq_sum {α : Type} (digit : α → F.Elem) (xs : List α) :
    ofDigits (xs.map digit) = ∑ i : Fin xs.length, F.powerOfTwo i * digit xs[i] := by
  induction xs with
  | nil => rfl
  | cons x xs ih =>
      have first : F.powerOfTwo 0 = 1 := rfl
      -- one place further on, every weight is the double of what it was
      have later : ∑ i : Fin xs.length, F.powerOfTwo (i + 1) * digit xs[i]
          = ofDigits (xs.map digit) + ofDigits (xs.map digit) := by
        simp only [ih, powerOfTwo_succ, add_mul, Finset.sum_add_distrib]
      rw [List.map_cons, ofDigits, ← later]
      simp [Fin.sum_univ_succ, first]

/-! ## Decomposition -/

/-- The bits of a decomposition are the only ones of their number that spell the residue. -/
theorem decompose?_eq_some {x : F.Elem} {n : Nat} {bits : List Bool} :
    decompose? x n = some bits ↔ bits.length = n ∧ ofBits bits = x.val := by
  rw [decompose?_eq]
  constructor
  · intro h
    split at h
    · rename_i fits
      cases h
      exact ⟨length_lowBits _ _, by rw [ofBits_lowBits, Nat.mod_eq_of_lt fits]⟩
    · cases h
  · rintro ⟨rfl, spelled⟩
    rw [← spelled, if_pos (ofBits_lt bits), lowBits_ofBits]

end PrimeField

/-! ## Recomposition -/

namespace LinearCombination

theorem addScaled_ofConstant (sum weight digit : F.Elem) :
    (ofConstant sum).addScaled weight (ofConstant digit) = ofConstant (sum + weight * digit) := by
  rw [mul_comm]
  rfl

theorem foldl_ofConstant (digits : List F.Elem) (sum weight : F.Elem) :
    ((digits.map ofConstant).foldl (fun (sum, weight) bit => (sum.addScaled weight bit, weight + weight))
        (ofConstant sum, weight)).1 = ofConstant (sum + weight * PrimeField.ofDigits digits) := by
  induction digits generalizing sum weight with
  | nil => simp [PrimeField.ofDigits]
  | cons digit digits ih =>
      simp only [List.map_cons, List.foldl_cons, addScaled_ofConstant, ih, PrimeField.ofDigits]
      congr 1
      ring

/-- Constants are recomposed to a constant. -/
theorem ofBits_map_ofConstant (digits : List F.Elem) :
    ofBits (digits.map ofConstant) = ofConstant (PrimeField.ofDigits digits) := by
  have folded := foldl_ofConstant digits 0 1
  rw [zero_add, one_mul] at folded
  exact folded

theorem evalWith_ofBits_eq_sum (bits : List (LinearCombination F)) (value : Wire → F.Elem) :
    (ofBits bits).evalWith value = ∑ i : Fin bits.length, F.powerOfTwo i * bits[i].evalWith value := by
  rw [evalWith_ofBits, PrimeField.ofDigits_map_eq_sum]

/-- An expression with a value has no wire beyond the values. -/
theorem below_of_eval? {x : LinearCombination F} {values : Array F.Elem} {v : F.Elem} (h : x.eval? values = some v) :
    x.Below values.size := by
  unfold eval? at h
  split at h
  · rename_i inRange
    simpa [Below] using inRange
  · cases h

/-- If all bits have values, so has what they are recomposed to. -/
theorem eval?_ofBits {bits : List (LinearCombination F)} {values : Array F.Elem} {digits : List F.Elem}
    (known : bits.map (·.eval? values) = digits.map some) :
    (ofBits bits).eval? values = some (∑ i : Fin digits.length, F.powerOfTwo i * digits[i]) := by
  have each : ∀ bit ∈ bits, bit.Below values.size := by
    intro bit hbit
    obtain ⟨digit, -, value⟩ := List.mem_map.mp (known ▸ List.mem_map_of_mem hbit)
    exact below_of_eval? value.symm
  have digits_eq : digits = bits.map (·.evalWith (Wire.valueIn values)) := by
    apply List.map_injective_iff.mpr (Option.some_injective _)
    rw [← known, List.map_map]
    exact List.map_congr_left fun bit hbit => (each bit hbit).eval?
  refine (below_ofBits each).eval?_eq ?_
  have sum := PrimeField.ofDigits_map_eq_sum id digits
  rw [List.map_id] at sum
  rw [evalWith_ofBits, ← digits_eq]
  exact sum

end LinearCombination

/-! ## Bits, elements and numbers -/

namespace PrimeField

theorem ofBits_decompose? {x : F.Elem} {n : Nat} {bits : List Bool} (h : decompose? x n = some bits) :
    LinearCombination.ofBits (bits.map fun bit => .ofConstant (ofBit bit)) = .ofConstant x := by
  have constants : bits.map (fun bit => LinearCombination.ofConstant (ofBit bit : F.Elem))
      = (bits.map ofBit).map .ofConstant := by rw [List.map_map, Function.comp_def]
  rw [constants, LinearCombination.ofBits_map_ofConstant, ofDigits_ofBit, (decompose?_eq_some.mp h).2, ofNat_val]

theorem decompose?_isSome {x : F.Elem} {n : Nat} : (decompose? x n).isSome ↔ x.val < 2 ^ n := by
  rw [decompose?_eq]
  split <;> simp [*]

/-- Bits and bytes as elements agree with their numbers. -/
theorem bits_exact (F : PrimeField) :
    (∀ (x : F.Elem) (n : Nat),
      ((decompose? x n).isSome ↔ x.val < 2 ^ n) ∧
      (∀ bits, decompose? x n = some bits ↔ bits.length = n ∧ Nat.ofDigits 2 (bits.map Bool.toNat) = x.val) ∧
      (∀ bits, decompose? x n = some bits →
        LinearCombination.ofBits (bits.map fun bit => .ofConstant (ofBit bit)) = .ofConstant x) ∧
      ∀ width, F.numBits ≤ width → fitBits? n (lowBits width x.val) = decompose? x n) ∧
    (∀ i, (F.powerOfTwo i).val = 2 ^ i % F.modulus) ∧
    (∀ bits : List (LinearCombination F),
      (∀ value, (LinearCombination.ofBits bits).evalWith value
        = ∑ i : Fin bits.length, F.powerOfTwo i * bits[i].evalWith value) ∧
      ∀ (values : Array F.Elem) (digits : List F.Elem), bits.map (·.eval? values) = digits.map some →
        (LinearCombination.ofBits bits).eval? values = some (∑ i : Fin digits.length, F.powerOfTwo i * digits[i])) ∧
    ∀ bytes : List UInt8,
      (F.multipack (bytesToBitsLE bytes)).map (·.val)
        = Nat.digitsAppend (2 ^ F.capacity) ((8 * bytes.length) ⌈/⌉ F.capacity)
            (Nat.ofDigits 256 (bytes.map UInt8.toNat)) ∧
      bytesToBits bytes = (bytesToBitsLE bytes.reverse).reverse := by
  refine ⟨fun x n => ⟨decompose?_isSome, fun bits => ?_, fun bits => ofBits_decompose?, fun width wide => ?_⟩,
    fun i => by rw [powerOfTwo_eq, val_ofNat],
    fun bits => ⟨LinearCombination.evalWith_ofBits_eq_sum bits, fun _ _ => LinearCombination.eval?_ofBits⟩,
    fun bytes => ⟨?_, bytesToBits_eq bytes⟩⟩
  · rw [decompose?_eq_some, ofDigits_map_toNat]
  · rw [decompose?_eq, fitBits?_lowBits (val_lt_two_pow wide x)]
  · rw [map_val_multipack_eq_digits, length_bytesToBitsLE, ofBits_bytesToBitsLE]

/-- A prime whose chunks end within bytes. -/
def mersenne31 : PrimeField := ⟨2 ^ 31 - 1, 7, by decide⟩

theorem bits_exact_mersenne31 :
    decompose? (6 : mersenne31.Elem) 4 = some [false, true, true, false] ∧
    LinearCombination.ofBits ([false, true, true, false].map fun bit => .ofConstant (ofBit bit))
      = .ofConstant (6 : mersenne31.Elem) ∧
    mersenne31.numBits ≤ 40 ∧
    fitBits? 4 (lowBits 40 (6 : mersenne31.Elem).val) = decompose? (6 : mersenne31.Elem) 4 ∧
    [LinearCombination.ofConstant 1, .ofWire ⟨0⟩].map (·.eval? #[(1 : mersenne31.Elem)]) = [1, 1].map some ∧
    (LinearCombination.ofBits [.ofConstant 1, .ofWire ⟨0⟩]).eval? #[(1 : mersenne31.Elem)] = some 3 ∧
    (mersenne31.multipack (bytesToBitsLE [255, 255, 255, 255])).map (·.val) = [2 ^ 30 - 1, 3] := by
  obtain ⟨elements, -, expressions, bytes⟩ := bits_exact mersenne31
  obtain ⟨-, decomposition, recomposed, memory⟩ := elements 6 4
  have bits : decompose? (6 : mersenne31.Elem) 4 = some [false, true, true, false] :=
    (decomposition _).mpr ⟨rfl, by decide⟩
  have enough : mersenne31.numBits ≤ 40 := by decide
  have known :
      [LinearCombination.ofConstant 1, .ofWire ⟨0⟩].map (·.eval? #[(1 : mersenne31.Elem)]) = [1, 1].map some := by
    decide
  refine ⟨bits, recomposed _ bits, enough, memory 40 enough, known, ?_, ?_⟩
  · exact (expressions _).2 _ _ known
  · exact (bytes _).1.trans (by decide)

end PrimeField

end ArithCircuit
