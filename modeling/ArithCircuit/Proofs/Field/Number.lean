import ArithCircuit.Field.Number
import ArithCircuit.Proofs.Field.Digits

/-!
# Elements and numbers

The words that an element's bits are put into spell its residue, and the limbs of a number give the
element of its residue.
-/

namespace ArithCircuit

open scoped Fin.CommRing

/-! ## Words -/

/-- The bit at an index, counted across the words. -/
def wordBit (words : List UInt32) (i : Nat) : Bool := (words.getD (i / 32) 0).toNat.testBit (i % 32)

theorem testBit_ofWords (words : List UInt32) (i : Nat) : (ofWords words).testBit i = wordBit words i := by
  induction words generalizing i with
  | nil => simp [ofWords, wordBit]
  | cons word rest ih =>
      have word_lt : word.toNat < 2 ^ 32 := word.toNat_lt
      have split : ofWords (word :: rest) = ofWords rest <<< 32 ||| word.toNat :=
        Nat.shiftLeft_add_eq_or_of_lt word_lt _
      rw [split, Nat.testBit_or, Nat.testBit_shiftLeft]
      rcases Nat.lt_or_ge i 32 with first | later
      · have inWord : i / 32 = 0 := Nat.div_eq_of_lt first
        simp [wordBit, inWord, Nat.mod_eq_of_lt first, Nat.not_le.mpr first]
      · obtain ⟨i, rfl⟩ := Nat.exists_eq_add_of_le later
        have word_out : word.toNat.testBit (32 + i) = false :=
          Nat.testBit_lt_two_pow (Nat.lt_of_lt_of_le word_lt (Nat.pow_le_pow_right (by decide) later))
        have index : (32 + i) / 32 = i / 32 + 1 := by omega
        simp [ih, wordBit, word_out, index]

theorem toNat_or_bit (word : UInt32) {i : Nat} (inWord : i < 32) :
    (word ||| 1 <<< UInt32.ofNat i).toNat = word.toNat ||| 2 ^ i := by
  have fits : 2 ^ i < 2 ^ 32 := Nat.pow_lt_pow_right (by decide) inWord
  have index : (UInt32.ofNat i).toNat % 32 = i := by
    rw [UInt32.toNat_ofNat', Nat.mod_eq_of_lt (Nat.lt_trans inWord (by decide)), Nat.mod_eq_of_lt inWord]
  rw [UInt32.toNat_or, UInt32.toNat_shiftLeft, index, UInt32.toNat_one, Nat.one_shiftLeft, Nat.mod_eq_of_lt fits]

@[simp]
theorem length_setBit (words : List UInt32) (i : Nat) : (setBit words i).length = words.length := by
  simp [setBit]

/-- Exactly that bit is set, if there is a word for it. -/
theorem wordBit_setBit {words : List UInt32} {i : Nat} (inRange : i / 32 < words.length) (j : Nat) :
    wordBit (setBit words i) j = (wordBit words j || decide (i = j)) := by
  by_cases sameWord : i / 32 = j / 32
  · have inRange' : j / 32 < words.length := sameWord ▸ inRange
    have index : i = j ↔ i % 32 = j % 32 := by omega
    simp [wordBit, setBit, sameWord, inRange', toNat_or_bit _ (Nat.mod_lt i (by decide)), Nat.testBit_two_pow, index]
  · have other : i ≠ j := fun same => sameWord (same ▸ rfl)
    simp [wordBit, setBit, List.getD_eq_getElem?_getD, sameWord, other]

theorem wordsOfBits_concat (count : Nat) (bits : List Bool) (bit : Bool) : wordsOfBits count (bits ++ [bit])
    = if bit then setBit (wordsOfBits count bits) bits.length else wordsOfBits count bits := by
  simp [wordsOfBits, List.zipIdx_append]

@[simp]
theorem length_wordsOfBits (count : Nat) (bits : List Bool) : (wordsOfBits count bits).length = count := by
  induction bits using List.reverseRecOn with
  | nil => exact List.length_replicate
  | append_singleton bits bit ih =>
      rw [wordsOfBits_concat]
      cases bit with
      | false => exact ih
      | true => exact (length_setBit _ _).trans ih

theorem getD_concat (bits : List Bool) (bit : Bool) (i : Nat) :
    (bits ++ [bit]).getD i false = (bits.getD i false || decide (bits.length = i) && bit) := by
  rcases Nat.lt_trichotomy i bits.length with before | rfl | behind
  · simp [List.getD_eq_getElem?_getD, List.getElem?_append_left before, before.ne']
  · simp [List.getD_eq_getElem?_getD]
  · have last : ¬ i - bits.length < 1 := by omega
    simp [List.getD_eq_getElem?_getD, List.getElem?_append_right behind.le, List.getElem?_eq_none behind.le,
      behind.ne, last]

/-- The words have the bits that they were made of, if there are enough of them. -/
theorem wordBit_wordsOfBits {count : Nat} {bits : List Bool}
    (inRange : ∀ i, bits[i]? = some true → i / 32 < count) (i : Nat) :
    wordBit (wordsOfBits count bits) i = bits.getD i false := by
  induction bits using List.reverseRecOn with
  | nil => by_cases word : i / 32 < count <;> simp [wordsOfBits, wordBit, List.getD_eq_getElem?_getD, word]
  | append_singleton bits bit ih =>
      have before := ih fun i hi =>
        inRange i (by rw [List.getElem?_append_left (List.getElem?_eq_some_iff.mp hi).1, hi])
      rw [wordsOfBits_concat, getD_concat]
      cases bit with
      | false => simpa using before
      | true =>
          have last := inRange bits.length (by simp)
          rw [if_pos rfl, wordBit_setBit (by simpa using last), before, Bool.and_true]

/-- Enough bits of a number, in enough words, are the number. -/
theorem ofWords_lowBits {n size width count : Nat} (fits : n < 2 ^ size) (bits : size ≤ width)
    (words : size ≤ 32 * count) : ofWords (wordsOfBits count (lowBits width n)) = n := by
  have below {i : Nat} (set : n.testBit i = true) : i < size :=
    (Nat.pow_lt_pow_iff_right (by decide)).mp (Nat.lt_of_le_of_lt (Nat.ge_two_pow_of_testBit set) fits)
  have index (i : Nat) : (lowBits width n)[i]? = if i < width then some (n.testBit i) else none := by
    by_cases inWidth : i < width <;> simp [lowBits, inWidth]
  apply Nat.eq_of_testBit_eq
  intro i
  rw [testBit_ofWords, wordBit_wordsOfBits, List.getD_eq_getElem?_getD, index]
  · split
    · rfl
    · rename_i beyond
      exact (Bool.eq_false_iff.mpr fun set => beyond (Nat.lt_of_lt_of_le (below set) bits)).symm
  · intro j hj
    rw [index] at hj
    split at hj
    · have := below (Option.some.inj hj)
      omega
    · cases hj

/-! ## Limbs -/

theorem ofDigits_map_range (base n count : Nat) :
    Nat.ofDigits base ((List.range count).map fun i => n / base ^ i % base) = n % base ^ count := by
  induction count with
  | zero => simp [Nat.mod_one]
  | succ count ih =>
      rw [List.range_succ, List.map_append, Nat.ofDigits_append, ih, List.length_map, List.length_range,
        List.map_singleton, Nat.ofDigits_singleton, Nat.mod_pow_succ]

/-- A number is what its limbs spell. -/
theorem ofDigits_limbs (n : Nat) : Nat.ofDigits (2 ^ 64) ((limbs n).map UInt64.toNat) = n := by
  have digit (i : Nat) : (UInt64.ofNat (n >>> (64 * i))).toNat = n / (2 ^ 64) ^ i % 2 ^ 64 := by
    rw [UInt64.toNat_ofNat', Nat.shiftRight_eq_div_pow, Nat.pow_mul]
  have enough : n < (2 ^ 64) ^ ((bitLength n + 63) / 64) := by
    rw [← Nat.pow_mul, ← bitLength_le]
    omega
  rw [limbs, List.map_map, Function.comp_def]
  simp only [digit]
  rw [ofDigits_map_range, Nat.mod_eq_of_lt enough]

namespace PrimeField

variable {F : PrimeField}

theorem ofNat_mul (m n : Nat) : F.ofNat (m * n) = F.ofNat m * F.ofNat n := by
  apply Fin.ext
  simp [Fin.val_mul, Nat.mul_mod]

theorem ofNat_mod (n : Nat) : F.ofNat (n % F.modulus) = F.ofNat n :=
  Fin.ext (Nat.mod_mod n F.modulus)

theorem limbBase_eq (F : PrimeField) : F.limbBase = F.ofNat (2 ^ 64) := by
  rw [limbBase, ← ofNat_mul]
  rfl

/-- The element that limbs build up is the one of the number that they spell. -/
theorem foldr_limbs (limbs : List UInt64) :
    limbs.foldr (fun limb sum => sum * F.limbBase + F.ofNat limb.toNat) 0
      = F.ofNat (Nat.ofDigits (2 ^ 64) (limbs.map UInt64.toNat)) := by
  induction limbs with
  | nil => rfl
  | cons limb rest ih =>
      rw [List.foldr_cons, ih, List.map_cons, Nat.ofDigits_cons, ofNat_add, ofNat_mul, limbBase_eq]
      ring

/-! ## Elements -/

@[simp]
theorem ofNumber_eq (n : Nat) : F.ofNumber n = F.ofNat n := by
  rw [ofNumber, foldr_limbs, ofDigits_limbs, ofNat_mod]

theorem map_ofNumber (numbers : List Nat) : numbers.map F.ofNumber = numbers.map F.ofNat :=
  List.map_congr_left fun n _ => ofNumber_eq n

/-- However wide an element is in memory, its bits are those of the residue. -/
theorem numberOfBits_lowBits {width : Nat} (wide : F.numBits ≤ width) (x : F.Elem) :
    F.numberOfBits (lowBits width x.val) = x.val :=
  ofWords_lowBits (val_lt_two_pow le_rfl x) wide (by omega)

@[simp]
theorem toNumber_eq (x : F.Elem) : toNumber x = x.val := numberOfBits_lowBits F.numBits_le_reprBits x

theorem map_toNumber (elements : List F.Elem) : elements.map toNumber = elements.map (·.val) :=
  List.map_congr_left fun x _ => toNumber_eq x

theorem decimal_eq (x : F.Elem) : decimal x = toString x.val := by
  rw [decimal, toNumber_eq]

end PrimeField

end ArithCircuit
