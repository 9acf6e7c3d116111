import ArithCircuit.Proofs.Field.Arithmetic
import ArithCircuit.Proofs.Linear.Scope

/-!
# Canonical combinations

The operations keep the wires of a combination in strictly increasing order and its coefficients
different from zero. A canonical combination is what its own terms add up to.
-/

namespace ArithCircuit

open scoped Fin.CommRing

variable {F : PrimeField}

/-! ## Terms -/

/-- Strictly increasing wires, and no zero coefficient. -/
structure CanonicalTerms (terms : List (Term F)) : Prop where
  increasing : terms.Pairwise (·.wire.index < ·.wire.index)
  nonzero : ∀ term ∈ terms, term.coefficient ≠ 0

namespace CanonicalTerms

variable {terms : List (Term F)}

theorem nil : CanonicalTerms ([] : List (Term F)) := ⟨.nil, by simp⟩

theorem cons {term : Term F} (later : ∀ other ∈ terms, term.wire.index < other.wire.index)
    (nonzero : term.coefficient ≠ 0) (h : CanonicalTerms terms) : CanonicalTerms (term :: terms) :=
  ⟨.cons later h.increasing, by simpa using ⟨nonzero, h.nonzero⟩⟩

theorem tail {term : Term F} (h : CanonicalTerms (term :: terms)) : CanonicalTerms terms :=
  ⟨(List.pairwise_cons.mp h.increasing).2, fun other hother => h.nonzero other (List.mem_cons_of_mem _ hother)⟩

theorem insertTerm (h : CanonicalTerms terms) (wire : Wire) (coefficient : F.Elem) :
    CanonicalTerms (insertTerm wire coefficient terms) := by
  induction terms with
  | nil =>
      unfold ArithCircuit.insertTerm
      split
      · exact nil
      · exact nil.cons (by simp) (by assumption)
  | cons term rest ih =>
      obtain ⟨later, -⟩ := List.pairwise_cons.mp h.increasing
      unfold ArithCircuit.insertTerm
      split
      · rename_i before
        split
        · exact h
        · refine h.cons (fun other hother => ?_) (by assumption)
          rcases List.mem_cons.mp hother with rfl | hother
          · exact before
          · exact Nat.lt_trans before (later other hother)
      · rename_i notBefore
        split
        · rename_i same
          dsimp only
          split
          · exact h.tail
          · exact h.tail.cons (same ▸ later) (by assumption)
        · rename_i other
          refine (ih h.tail).cons (fun t ht => ?_) (h.nonzero term List.mem_cons_self)
          have after : term.wire.index < wire.index := by
            obtain ⟨i⟩ := wire
            obtain ⟨⟨j⟩, _⟩ := term
            simp only [Wire.mk.injEq] at other notBefore ⊢
            omega
          rcases LinearCombination.mem_wires_insertTerm (List.mem_map_of_mem ht) with same | old
          · exact same ▸ after
          · obtain ⟨t', ht', same⟩ := List.mem_map.mp old
            exact same ▸ later t' ht'

/-- A later term goes to the end. -/
theorem insertTerm_last {wire : Wire} {coefficient : F.Elem} (nonzero : coefficient ≠ 0)
    (later : ∀ term ∈ terms, term.wire.index < wire.index) :
    ArithCircuit.insertTerm wire coefficient terms = terms ++ [⟨wire, coefficient⟩] := by
  induction terms with
  | nil => simp [ArithCircuit.insertTerm, nonzero]
  | cons term rest ih =>
      have before := later term List.mem_cons_self
      have other : wire ≠ term.wire := by
        rintro rfl
        exact Nat.lt_irrefl _ before
      rw [ArithCircuit.insertTerm, if_neg (Nat.not_lt_of_lt before), if_neg other,
        ih fun t ht => later t (List.mem_cons_of_mem _ ht)]
      rfl

end CanonicalTerms

namespace LinearCombination

def Canonical (x : LinearCombination F) : Prop := CanonicalTerms x.terms

variable {x y : LinearCombination F}

theorem foldl_addTerm_of_canonical {constant : F.Elem} {before terms : List (Term F)}
    (h : CanonicalTerms (before ++ terms)) :
    terms.foldl (fun sum term => sum.addTerm term.coefficient term.wire) (⟨before, constant⟩ : LinearCombination F)
      = ⟨before ++ terms, constant⟩ := by
  induction terms generalizing before with
  | nil => simp
  | cons term rest ih =>
      have later : ∀ other ∈ before, other.wire.index < term.wire.index := fun other hother =>
        (List.pairwise_append.mp h.increasing).2.2 other hother term List.mem_cons_self
      have nonzero : term.coefficient ≠ 0 := h.nonzero term (by simp)
      rw [List.foldl_cons, addTerm, CanonicalTerms.insertTerm_last nonzero later, ih (by simpa using h)]
      simp

/-- A canonical combination is the sum of its terms. -/
theorem Canonical.ofTerms_eq (h : x.Canonical) : ofTerms x.terms x.constant = x :=
  foldl_addTerm_of_canonical h

/-! ## Leaves -/

theorem canonical_zero : (zero : LinearCombination F).Canonical := CanonicalTerms.nil

theorem canonical_ofConstant (value : F.Elem) : (ofConstant value).Canonical := CanonicalTerms.nil

theorem canonical_ofWire (wire : Wire) : (ofWire wire : LinearCombination F).Canonical :=
  CanonicalTerms.nil.cons (by simp) PrimeField.one_ne_zero

/-! ## Arithmetic -/

theorem Canonical.addTerm (h : x.Canonical) (coefficient : F.Elem) (wire : Wire) :
    (x.addTerm coefficient wire).Canonical :=
  h.insertTerm wire coefficient

theorem Canonical.addConstant (h : x.Canonical) (value : F.Elem) : (x.addConstant value).Canonical := h

theorem Canonical.addScaled (h : x.Canonical) (factor : F.Elem) (y : LinearCombination F) :
    (x.addScaled factor y).Canonical := by
  have fold (terms : List (Term F)) (x : LinearCombination F) (h : x.Canonical) :
      (terms.foldl (fun sum term => sum.addTerm (term.coefficient * factor) term.wire) x).Canonical := by
    induction terms generalizing x with
    | nil => exact h
    | cons term rest ih => exact ih _ (h.addTerm _ _)
  exact (fold y.terms x h).addConstant _

theorem Canonical.subScaled (h : x.Canonical) (factor : F.Elem) (y : LinearCombination F) :
    (x.subScaled factor y).Canonical :=
  h.addScaled _ y

theorem Canonical.add (h : x.Canonical) (y : LinearCombination F) : (x + y).Canonical := h.addScaled 1 y

theorem Canonical.sub (h : x.Canonical) (y : LinearCombination F) : (x - y).Canonical := h.subScaled 1 y

/-- In a prime field a product is zero only if one of its factors is. -/
theorem Canonical.scale (prime : F.modulus.Prime) (h : x.Canonical) (factor : F.Elem) :
    (x.scale factor).Canonical := by
  unfold LinearCombination.scale
  split
  · exact canonical_zero
  · rename_i nonzero
    refine ⟨List.pairwise_map.mpr h.increasing, fun term hterm => ?_⟩
    obtain ⟨old, hold, rfl⟩ := List.mem_map.mp hterm
    rw [ne_eq, PrimeField.mul_eq_zero prime]
    exact not_or.mpr ⟨h.nonzero old hold, nonzero⟩

theorem Canonical.neg (prime : F.modulus.Prime) (h : x.Canonical) : (-x).Canonical := h.scale prime (-1)

theorem canonical_ofBits (bits : List (LinearCombination F)) : (ofBits bits).Canonical := by
  have fold (x : LinearCombination F) (weight : F.Elem) (h : x.Canonical) :
      (bits.foldl (fun sum bit => (sum.1.addScaled sum.2 bit, sum.2 + sum.2)) (x, weight)).1.Canonical := by
    induction bits generalizing x weight with
    | nil => exact h
    | cons bit bits ih => exact ih _ _ (h.addScaled weight bit)
  exact fold zero 1 canonical_zero

end LinearCombination

end ArithCircuit
