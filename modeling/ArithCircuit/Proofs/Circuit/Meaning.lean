import ArithCircuit.Circuit.Step
import ArithCircuit.Proofs.Field.Digits

/-!
# What the operations are for

Each operation relates the values of its results to those of its operands. The relations are about
field elements alone: no wire and no constraint occurs in them.
-/

namespace ArithCircuit

open scoped Fin.CommRing

variable {F : PrimeField}

namespace PrimeField

/-- `a` for the condition one and `b` for the condition zero. -/
def IsChoice (c a b r : F.Elem) : Prop := c = 1 ∧ r = a ∨ c = 0 ∧ r = b

/-- Binary digits, least significant first. -/
structure IsDecomposition (x : F.Elem) (digits : List F.Elem) : Prop where
  isDigit : ∀ digit ∈ digits, IsDigit digit
  sum : ofDigits digits = x

theorem Spells.isDecomposition {n : Nat} {digits : List F.Elem} (h : Spells digits n) :
    IsDecomposition (F.ofNat n) digits where
  isDigit := by
    rw [h.eq]
    exact List.forall_mem_map.mpr fun bit _ => ofBit_isDigit bit
  sum := by rw [h.eq, ofDigits_ofBit, ofBits_lowBits, Nat.mod_eq_of_lt h.lt]

theorem isDecomposition_lowBits {x : F.Elem} {width : Nat} (fits : x.val < 2 ^ width) :
    IsDecomposition x ((lowBits width x.val).map ofBit) := by
  have own := (spells_lowBits (F := F) fits).isDecomposition
  rwa [ofNat_val] at own

variable {x : F.Elem} {digits : List F.Elem}

/-- Digits add up to an element modulo the modulus, so they may also be those of the next number with that
residue. -/
theorem isDecomposition_iff (narrow : digits.length ≤ F.numBits) :
    IsDecomposition x digits ↔ Spells digits x.val ∨ Spells digits (x.val + F.modulus) := by
  constructor
  · intro decomposes
    obtain ⟨n, spells, sum⟩ := exists_spells decomposes.isDigit
    have hlt : n < 2 ^ F.numBits := Nat.lt_of_lt_of_le spells.lt (Nat.pow_le_pow_right Nat.zero_lt_two narrow)
    rcases eq_val_or_of_lt (sum.symm.trans decomposes.sum) hlt with rfl | rfl
    · exact .inl spells
    · exact .inr spells
  · have next : F.ofNat (x.val + F.modulus) = x := Fin.ext (by simp [Nat.mod_eq_of_lt x.isLt])
    rintro (own | other)
    · simpa using own.isDecomposition
    · exact next ▸ other.isDecomposition

/-- There may be no such next number of as many digits. -/
theorem IsDecomposition.spells_val (h : IsDecomposition x digits) (narrow : digits.length ≤ F.numBits)
    (alone : 2 ^ digits.length ≤ x.val + F.modulus) : Spells digits x.val :=
  ((isDecomposition_iff narrow).mp h).resolve_right fun next => Nat.not_le_of_lt next.lt alone

/-- Whether a value is zero, as a digit. -/
def zeroFlag (x : F.Elem) : F.Elem := if x = 0 then 1 else 0

/-- No offer for the inverse makes the constraints hold for a wrong flag. -/
theorem eq_zeroFlag (prime : F.modulus.Prime) {x y flag : F.Elem} (hflag : flag = 1 - x * y)
    (product : x * flag = 0) : flag = zeroFlag x := by
  unfold zeroFlag
  split
  · rename_i hx
    rw [hflag, hx]
    ring
  · rename_i hx
    exact ((PrimeField.mul_eq_zero prime).mp product).resolve_left hx

theorem mul_zeroFlag (x : F.Elem) : x * zeroFlag x = 0 := by
  unfold zeroFlag
  split
  · rename_i hx
    rw [hx, zero_mul]
  · exact mul_zero x

/-- The flag, by an offer for the inverse that is zero for zero. -/
theorem zeroFlag_eq (prime : F.modulus.Prime) (x : F.Elem) : zeroFlag x = 1 - x * (inverse? x).getD 0 := by
  unfold zeroFlag
  split
  · rename_i hx
    rw [hx, zero_mul, sub_zero]
  · rename_i hx
    obtain ⟨y, hy⟩ := inverse?_isSome hx
    rw [hy, Option.getD_some, mul_of_inverse? prime hy, sub_self]

/-- The entry of a table of four at the number with the binary digits `b0` and `b1`. -/
def IsEntry (b0 b1 t0 t1 t2 t3 r : F.Elem) : Prop :=
  b0 = 0 ∧ b1 = 0 ∧ r = t0 ∨ b0 = 1 ∧ b1 = 0 ∧ r = t1 ∨ b0 = 0 ∧ b1 = 1 ∧ r = t2 ∨
    b0 = 1 ∧ b1 = 1 ∧ r = t3

theorem isEntry_of_choices {b0 b1 t0 t1 t2 t3 low high r : F.Elem} (hlow : IsChoice b0 t1 t0 low)
    (hhigh : IsChoice b0 t3 t2 high) (hr : IsChoice b1 high low r) : IsEntry b0 b1 t0 t1 t2 t3 r := by
  rcases hlow with ⟨hb0, rfl⟩ | ⟨hb0, rfl⟩
  · obtain rfl : high = t3 := by
      rcases hhigh with ⟨-, h⟩ | ⟨zero, -⟩
      · exact h
      · exact absurd (hb0.symm.trans zero) one_ne_zero
    rcases hr with ⟨hb1, rfl⟩ | ⟨hb1, rfl⟩
    · exact .inr (.inr (.inr ⟨hb0, hb1, rfl⟩))
    · exact .inr (.inl ⟨hb0, hb1, rfl⟩)
  · obtain rfl : high = t2 := by
      rcases hhigh with ⟨one, -⟩ | ⟨-, h⟩
      · exact absurd (one.symm.trans hb0) one_ne_zero
      · exact h
    rcases hr with ⟨hb1, rfl⟩ | ⟨hb1, rfl⟩
    · exact .inr (.inr (.inl ⟨hb0, hb1, rfl⟩))
    · exact .inl ⟨hb0, hb1, rfl⟩

end PrimeField

namespace Operation

open PrimeField (ofDigits IsDigit IsDecomposition IsChoice IsEntry zeroFlag)

/-- What the results of an operation have to be, for the values of its operands. Inputs and hints may
give anything, but as many results as they are asked for. -/
def Relates (read : Operand F → F.Elem) : Operation F → List F.Elem → Prop
  | .publicInput _, results => results.length = 1
  | .secretInput _, results => results.length = 1
  | .constant value, results => results = [value]
  | .add a b, results => results = [read a + read b]
  | .sub a b, results => results = [read a - read b]
  | .neg a, results => results = [-read a]
  | .scale a factor, results => results = [factor * read a]
  | .ofBits bits, results => results = [ofDigits (bits.map read)]
  | .toWire a, results => results = [read a]
  | .mul a b, results => results = [read a * read b]
  | .div a b, results => ∃ q, results = [q] ∧ read b * q = read a
  | .inverse a, results => ∃ y, results = [y] ∧ read a * y = 1
  | .select c a b, results => ∃ r, results = [r] ∧ IsChoice (read c) (read a) (read b) r
  | .assertProduct a b c, results => results = [] ∧ read a * read b = read c
  | .assertEqual a b, results => results = [] ∧ read a = read b
  | .assertBoolean a, results => results = [] ∧ IsDigit (read a)
  | .toBits a width, results => results.length = width ∧ IsDecomposition (read a) results
  | .hint _ _ outputs, results => results.length = outputs
  | .not a, results => results = [1 - read a]
  | .and a b, results => results = [read a * read b]
  | .or a b, results => results = [read a + read b - read a * read b]
  | .xor a b, results => results = [read a + read b - (1 + 1) * (read a * read b)]
  | .isZero a, results => results = [zeroFlag (read a)]
  | .isEqual a b, results => results = [zeroFlag (read a - read b)]
  | .assertNonZero a, results => results = [] ∧ read a ≠ 0
  | .lookup2 b0 b1 t0 t1 t2 t3, results =>
    ∃ r, results = [r] ∧ IsEntry (read b0) (read b1) (read t0) (read t1) (read t2) (read t3) r
  | .packIntoInputs _ bits, results =>
    results = (chunks F.capacity (bits.map read)).map ofDigits
  | .packBits bits, results => results = [ofDigits ((bits.map read).take F.capacity)]

def operands : Operation F → List (Operand F)
  | .publicInput _ | .secretInput _ | .constant _ => []
  | .neg a | .scale a _ | .toWire a | .inverse a | .assertBoolean a | .toBits a _ | .not a | .isZero a
  | .assertNonZero a => [a]
  | .add a b | .sub a b | .mul a b | .div a b | .assertEqual a b | .and a b | .or a b | .xor a b
  | .isEqual a b => [a, b]
  | .select c a b => [c, a, b]
  | .assertProduct a b c => [a, b, c]
  | .lookup2 b0 b1 t0 t1 t2 t3 => [b0, b1, t0, t1, t2, t3]
  | .ofBits bits | .packIntoInputs _ bits | .packBits bits => bits
  | .hint _ inputs _ => inputs

end Operation

theorem forall_mem_pair {α : Type} {p : α → Prop} {a b : α} : (∀ x ∈ [a, b], p x) ↔ p a ∧ p b := by
  simp

theorem forall_mem_triple {α : Type} {p : α → Prop} {a b c : α} :
    (∀ x ∈ [a, b, c], p x) ↔ p a ∧ p b ∧ p c := by
  simp

/-! ## Closed circuits -/

/-- No wire is written out: what is not read from a register is a constant. -/
def Operand.Closed : Operand F → Prop
  | .register _ => True
  | .literal x => x.terms = []

instance : (x : Operand F) → Decidable x.Closed
  | .register _ => .isTrue trivial
  | .literal x => inferInstanceAs (Decidable (x.terms = []))

/-- The operands are constants and results of earlier steps. -/
def Circuit.Closed (circuit : Circuit F) : Prop :=
  ∀ step ∈ circuit.steps, ∀ x ∈ step.operation.operands, x.Closed

instance (circuit : Circuit F) : Decidable circuit.Closed :=
  inferInstanceAs (Decidable (∀ step ∈ circuit.steps, ∀ x ∈ step.operation.operands, x.Closed))

/-- A circuit for examples: five if the input is zero, else the input. -/
def Circuit.fiveForZero : Circuit .seven where
  steps := [
    { operation := .secretInput "x", out := some "x" },
    { operation := .isZero (.register "x"), out := some "z" },
    { operation := .select (.register "z") (.literal (.ofConstant 5)) (.register "x"), out := some "y" }]

end ArithCircuit
