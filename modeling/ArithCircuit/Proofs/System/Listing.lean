import ArithCircuit.Proofs.Field.Number
import ArithCircuit.Proofs.Text.Lines
import ArithCircuit.System.Listing

/-!
# What the listing of a system shows

Every part of a constraint can be read off its line, so different constraints have different lines. The
listing starts with the lines of the constraints, whatever the names of the hints after them are.
-/

namespace ArithCircuit

open Text
open PrimeField (decimal)

variable {F : PrimeField}

/-! ## Parts of constraints -/

theorem separates_decimal : Separates StartsNoDigit (decimal : F.Elem → String) := by
  intro x y s t hs ht same
  rw [PrimeField.decimal_eq, PrimeField.decimal_eq] at same
  obtain ⟨value, rest⟩ := separates_toString hs ht same
  exact ⟨Fin.ext value, rest⟩

theorem toList_label (wire : Wire) : wire.label.toList = 'v' :: (toString wire.index).toList := by
  simp [Wire.label]
  rfl

theorem separates_label : Separates StartsNoDigit Wire.label := by
  intro wire wire' s t hs ht same
  rw [toList_label, toList_label] at same
  obtain ⟨index, rest⟩ := separates_toString hs ht (List.cons.inj same).2
  exact ⟨congrArg Wire.mk index, rest⟩

/-- A slot is empty or starts with a letter. -/
theorem separates_slot : Separates StartsNoDigit slotListing := by
  intro slot slot' s t hs ht same
  cases slot with
  | none =>
      cases slot' with
      | none => exact ⟨rfl, List.append_cancel_left same⟩
      | some wire' => simp [slotListing, toList_label] at same
  | some wire =>
      cases slot' with
      | none => simp [slotListing, toList_label] at same
      | some wire' =>
          obtain ⟨rfl, rest⟩ := separates_label hs ht same
          exact ⟨rfl, rest⟩

theorem separates_term : Separates StartsNoDigit (Term.listing : Term F → String) := by
  rintro ⟨wire, coefficient⟩ ⟨wire', coefficient'⟩ s t hs ht same
  unfold Term.listing at same
  simp only [String.toList_append, List.append_assoc] at same
  obtain ⟨coefficients, same⟩ := separates_decimal.before "*" (by decide) same
  obtain ⟨wires, rest⟩ := separates_label hs ht same
  exact ⟨by rw [coefficients, wires], rest⟩

/-! ## Constraints -/

/-- The terms of a combination, each after a plus sign. -/
def termsListing (terms : List (Term F)) : String := String.join (terms.map fun term => " + " ++ term.listing)

theorem toList_termsListing_cons (term : Term F) (terms : List (Term F)) : (termsListing (term :: terms)).toList
    = " + ".toList ++ (term.listing.toList ++ (termsListing terms).toList) := by
  simp [termsListing]

/-- Terms start with a space, so a bracket ends them. -/
theorem startsNoDigit_terms (terms : List (Term F)) {s : List Char} (hs : s.head? = some ')') :
    StartsNoDigit ((termsListing terms).toList ++ s) := by
  cases terms with
  | nil => simp [StartsNoDigit, termsListing, hs]
  | cons term terms => simp [StartsNoDigit, toList_termsListing_cons]

theorem terms_ne_bracket (term : Term F) (terms : List (Term F)) {s t : List Char} (ht : t.head? = some ')') :
    (termsListing (term :: terms)).toList ++ s ≠ t := by
  rintro rfl
  simp [toList_termsListing_cons] at ht

theorem separates_terms : Separates (fun s => s.head? = some ')') (termsListing : List (Term F) → String) := by
  intro terms terms' s t hs ht same
  induction terms generalizing terms' with
  | nil =>
      cases terms' with
      | nil => exact ⟨rfl, same⟩
      | cons term' terms' => exact absurd same.symm (terms_ne_bracket term' terms' hs)
  | cons term terms ih =>
      cases terms' with
      | nil => exact absurd same (terms_ne_bracket term terms ht)
      | cons term' terms' =>
          simp only [toList_termsListing_cons, List.append_assoc] at same
          obtain ⟨first, same⟩ := separates_term (startsNoDigit_terms terms hs) (startsNoDigit_terms terms' ht)
            (List.append_cancel_left same)
          obtain ⟨later, rest⟩ := ih same
          exact ⟨by rw [first, later], rest⟩

theorem separates_combination :
    Separates (fun s => s.head? = some ')') (LinearCombination.listing : LinearCombination F → String) := by
  rintro ⟨terms, constant⟩ ⟨terms', constant'⟩ s t hs ht same
  have split (x : LinearCombination F) : x.listing = decimal x.constant ++ termsListing x.terms := rfl
  simp only [split, String.toList_append, List.append_assoc] at same
  obtain ⟨constants, same⟩ := separates_decimal (startsNoDigit_terms terms hs) (startsNoDigit_terms terms' ht) same
  obtain ⟨sums, rest⟩ := separates_terms hs ht same
  exact ⟨by rw [constants, sums], rest⟩

/-- Triples show their three parts between brackets. -/
theorem separates_triple : Separates (fun _ => True) (Triple.listing : Triple F → String) := by
  rintro ⟨left, right, output⟩ ⟨left', right', output'⟩ s t - - same
  unfold Triple.listing at same
  simp only [String.toList_append, List.append_assoc] at same
  obtain ⟨lefts, same⟩ := separates_combination rfl rfl (List.append_cancel_left same)
  obtain ⟨rights, same⟩ := separates_combination rfl rfl (List.append_cancel_left same)
  obtain ⟨outputs, same⟩ := separates_combination rfl rfl (List.append_cancel_left same)
  exact ⟨by rw [lefts, rights, outputs], List.append_cancel_left same⟩

/-- Gates show their five coefficients and then their three slots. -/
theorem separates_gate : Separates (fun _ => True) (Gate.listing : Gate F → String) := by
  rintro ⟨qL, qR, qO, qM, qC, l, r, o⟩ ⟨qL', qR', qO', qM', qC', l', r', o'⟩ s t - - same
  unfold Gate.listing at same
  simp only [String.toList_append, List.append_assoc] at same
  obtain ⟨qLs, same⟩ := separates_decimal.before " qR=" (by decide) (List.append_cancel_left same)
  obtain ⟨qRs, same⟩ := separates_decimal.before " qO=" (by decide) same
  obtain ⟨qOs, same⟩ := separates_decimal.before " qM=" (by decide) same
  obtain ⟨qMs, same⟩ := separates_decimal.before " qC=" (by decide) same
  obtain ⟨qCs, same⟩ := separates_decimal.before " [" (by decide) same
  obtain ⟨ls, same⟩ := separates_slot.before " " (by decide) same
  obtain ⟨rs, same⟩ := separates_slot.before " " (by decide) same
  obtain ⟨os, rest⟩ := separates_slot.before "]" (by decide) same
  exact ⟨by rw [qLs, qRs, qOs, qMs, qCs, ls, rs, os], rest⟩

theorem triple_listing_injective : Function.Injective (Triple.listing : Triple F → String) :=
  separates_triple.injective trivial

theorem gate_listing_injective : Function.Injective (Gate.listing : Gate F → String) :=
  separates_gate.injective trivial

/-- Triples start with a bracket and gates with a letter. -/
theorem triple_listing_ne (triple : Triple F) (gate : Gate F) : triple.listing ≠ gate.listing := by
  intro same
  have starts := congrArg (·.toList.head?) same
  unfold Triple.listing Gate.listing at starts
  simp [String.toList_append] at starts

theorem constraint_listing_injective : Function.Injective (Constraint.listing : Constraint F → String) := by
  intro c c' same
  cases c with
  | rank1 triple =>
      cases c' with
      | rank1 triple' => rw [triple_listing_injective same]
      | gate gate' => exact absurd same (triple_listing_ne triple gate')
  | gate gate =>
      cases c' with
      | rank1 triple' => exact absurd same.symm (triple_listing_ne triple' gate)
      | gate gate' => rw [gate_listing_injective same]

theorem line_injective (index : Nat) : Function.Injective (Constraint.line index : Constraint F → String) := by
  intro c c' same
  unfold Constraint.line at same
  exact constraint_listing_injective (String.append_right_inj _ |>.mp same)

/-! ## Lines -/

theorem oneLine_decimal (x : F.Elem) : OneLine (decimal x) := oneLine_toString (PrimeField.toNumber x)

theorem oneLine_label (wire : Wire) : OneLine wire.label := by
  unfold Wire.label
  exact oneLine_append.mpr ⟨by decide, oneLine_toString wire.index⟩

theorem oneLine_slot (slot : Option Wire) : OneLine (slotListing slot) := by
  cases slot with
  | none => decide
  | some wire => exact oneLine_label wire

theorem oneLine_term (term : Term F) : OneLine term.listing := by
  unfold Term.listing
  simp +decide only [oneLine_append, oneLine_decimal, oneLine_label, and_self]

theorem oneLine_combination (x : LinearCombination F) : OneLine x.listing := by
  refine oneLine_append.mpr ⟨oneLine_decimal x.constant, .join fun text htext => ?_⟩
  obtain ⟨term, -, rfl⟩ := List.mem_map.mp htext
  exact oneLine_append.mpr ⟨by decide, oneLine_term term⟩

theorem oneLine_constraint (c : Constraint F) : OneLine c.listing := by
  cases c with
  | rank1 triple =>
      change OneLine triple.listing
      unfold Triple.listing
      simp +decide only [oneLine_append, oneLine_combination, and_self]
  | gate gate =>
      change OneLine gate.listing
      unfold Gate.listing
      simp +decide only [oneLine_append, oneLine_decimal, oneLine_slot, and_self]

theorem oneLine_line (index : Nat) (c : Constraint F) : OneLine (c.line index) := by
  unfold Constraint.line
  exact oneLine_append.mpr ⟨oneLine_append.mpr ⟨oneLine_toString index, by decide⟩, oneLine_constraint c⟩

namespace System

/-- The lines of the constraints. -/
def constraintLines (system : System F) : List String :=
  system.constraints.toList.zipIdx.map fun (c, index) => c.line index

/-- What starts with the lines of the constraints has that of each at its index. -/
theorem getElem?_of_constraintLines {system : System F} {lines : List String} {index : Nat} {c : Constraint F}
    (start : system.constraintLines <+: lines) (h : system.constraints.toList[index]? = some c) :
    lines[index]? = some (c.line index) := by
  obtain ⟨inside, rfl⟩ := List.getElem?_eq_some_iff.mp h
  have own := List.prefix_iff_getElem?.mp start index (by simpa [constraintLines] using inside)
  simpa [constraintLines] using own

theorem constraintLines_prefix (system : System F) : system.constraintLines <+: system.lines := by
  refine List.IsPrefix.trans ?_ (List.prefix_append _ _)
  unfold constraintLines Constraints.lines
  cases system.constraints with
  | rank1 triples => exact List.prefix_refl _
  | gate gates copies => exact List.prefix_append _ _

theorem constraintLines_prefix_listing (system : System F) : system.constraintLines <+: Text.lines system.listing := by
  obtain ⟨rest, split⟩ := system.constraintLines_prefix
  have oneLine : ∀ line ∈ system.constraintLines, OneLine line := by
    intro line hline
    obtain ⟨⟨c, index⟩, -, rfl⟩ := List.mem_map.mp hline
    exact oneLine_line index c
  rw [listing, ← split, lines_join oneLine rest]
  exact List.prefix_append _ _

end System

end ArithCircuit
