import ArithCircuit.Proofs.Circuit.Meaning
import ArithCircuit.Proofs.Linear.Scope

/-!
# Registers over the wires of a draft
-/

namespace ArithCircuit

/-- The same names in the same order, for related contents. -/
abbrev RelatedEntries {α β : Type} (R : α → β → Prop) : List (String × α) → List (String × β) → Prop :=
  List.Forall₂ fun entry entry' => entry'.1 = entry.1 ∧ R entry.2 entry'.2

theorem RelatedEntries.lookup {α β : Type} {R : α → β → Prop} {entries : List (String × α)}
    {entries' : List (String × β)} (h : RelatedEntries R entries entries') (name : String) {a : α} {b : β}
    (otherwise : R a b) : R ((List.lookup name entries).getD a) ((List.lookup name entries').getD b) := by
  induction h with
  | nil => exact otherwise
  | @cons entry entry' rest rest' first _ ih =>
      obtain ⟨key, x⟩ := entry
      obtain ⟨key', y⟩ := entry'
      obtain ⟨rfl, related⟩ := first
      rw [List.lookup_cons, List.lookup_cons]
      cases name == key' with
      | true => exact related
      | false => exact ih

namespace Registers

variable {F : PrimeField} {n m : Nat} {registers : Registers F}

/-- The expressions in the registers have a property. -/
def Each (P : LinearCombination F → Prop) (registers : Registers F) : Prop := ∀ entry ∈ registers, P entry.2

namespace Each

variable {P : LinearCombination F → Prop}

theorem nil (P : LinearCombination F → Prop) : Each P ([] : Registers F) := by
  intro entry hentry
  cases hentry

theorem cons (h : registers.Each P) {x : LinearCombination F} (hx : P x) (name : String) :
    Each P ((name, x) :: registers) := by
  intro entry hentry
  rcases List.mem_cons.mp hentry with rfl | hentry
  · exact hx
  · exact h entry hentry

/-- What is read is in a register, or it is a constant. -/
theorem read (h : registers.Each P) (constant : ∀ k, P (.ofConstant k)) {operand : Operand F}
    (closed : operand.Closed) : P (registers.read operand) := by
  cases operand with
  | literal x =>
      obtain ⟨terms, k⟩ := x
      obtain rfl : terms = [] := closed
      exact constant k
  | register name =>
      rw [Registers.read, get]
      cases found : List.lookup name registers with
      | none => exact constant 0
      | some x =>
          obtain ⟨before, after, split, -⟩ := List.lookup_eq_some_iff.mp found
          exact h (name, x) (by simp [split])

theorem storeFrom (h : registers.Each P) (name : String) (i : Nat) {xs : List (LinearCombination F)}
    (hxs : ∀ x ∈ xs, P x) : (storeFrom name i xs registers).Each P := by
  induction xs generalizing i registers with
  | nil => exact h
  | cons x xs ih =>
      exact ih (h.cons (hxs x (by simp)) _) (i + 1) fun y hy => hxs y (by simp [hy])

theorem store (h : registers.Each P) (step : Step F) {results : List (LinearCombination F)}
    (hresults : ∀ x ∈ results, P x) : (registers.store step results).Each P := by
  unfold Registers.store
  split
  · exact h
  · split
    · exact h.storeFrom _ 0 hresults
    · split
      · exact h.cons (hresults _ (by simp)) _
      · exact h

end Each

/-- The expressions in the registers are over wires below a bound. -/
def Below (n : Nat) (registers : Registers F) : Prop := registers.Each (·.Below n)

theorem below_nil : Below n ([] : Registers F) := .nil _

theorem Below.mono (h : registers.Below n) (hle : n ≤ m) : registers.Below m :=
  fun entry hentry => (h entry hentry).mono hle

theorem Below.read (h : registers.Below n) {operand : Operand F} (closed : operand.Closed) :
    (registers.read operand).Below n :=
  Each.read h LinearCombination.below_ofConstant closed

theorem Below.store (h : registers.Below n) (step : Step F) {results : List (LinearCombination F)}
    (hresults : ∀ x ∈ results, x.Below n) : (registers.store step results).Below n :=
  Each.store h step hresults

end Registers

end ArithCircuit
