import Mathlib.Logic.Relation
import ArithCircuit.Proofs.Linear.Canonical
import ArithCircuit.Proofs.Linear.Evaluation

/-!
# Respelling terms

Lists of terms that differ in the order of the terms, in how a coefficient is split over several terms
of a wire, and in terms with coefficient zero spell the same sum. Merging gives the shortest spelling,
in the order of the wires, and two lists are merged into the same one only if they differ in this way.
-/

namespace ArithCircuit

open scoped Fin.CommRing

variable {F : PrimeField}

/-- One change of a list of terms that keeps its sum. -/
inductive RespellStep : List (Term F) → List (Term F) → Prop where
  | reorder {terms terms' : List (Term F)} (same : terms.Perm terms') : RespellStep terms terms'
  | split (wire : Wire) (a b : F.Elem) (rest : List (Term F)) :
    RespellStep (⟨wire, a + b⟩ :: rest) (⟨wire, a⟩ :: ⟨wire, b⟩ :: rest)
  | pad (wire : Wire) (rest : List (Term F)) : RespellStep rest (⟨wire, 0⟩ :: rest)

/-- The lists differ by reordering, splitting and padding with zeros, in either direction. -/
def Respelled : List (Term F) → List (Term F) → Prop := Relation.EqvGen RespellStep

namespace Respelled

variable {terms terms' terms'' : List (Term F)}

theorem refl (terms : List (Term F)) : Respelled terms terms := Relation.EqvGen.refl terms

theorem symm (h : Respelled terms terms') : Respelled terms' terms := Relation.EqvGen.symm _ _ h

theorem trans (h : Respelled terms terms') (h' : Respelled terms' terms'') : Respelled terms terms'' :=
  Relation.EqvGen.trans _ _ _ h h'

theorem of_perm (same : terms.Perm terms') : Respelled terms terms' := .rel _ _ (.reorder same)

theorem split (wire : Wire) (a b : F.Elem) (rest : List (Term F)) :
    Respelled (⟨wire, a + b⟩ :: rest) (⟨wire, a⟩ :: ⟨wire, b⟩ :: rest) :=
  .rel _ _ (.split wire a b rest)

theorem pad (wire : Wire) (rest : List (Term F)) : Respelled rest (⟨wire, 0⟩ :: rest) := .rel _ _ (.pad wire rest)

theorem cons (term : Term F) (h : Respelled terms terms') : Respelled (term :: terms) (term :: terms') := by
  induction h with
  | rel terms terms' step =>
      cases step with
      | reorder same => exact of_perm (same.cons term)
      | split wire a b rest =>
          -- The term goes behind what is split and back to the front.
          have back : (⟨wire, a⟩ :: ⟨wire, b⟩ :: term :: rest).Perm (term :: ⟨wire, a⟩ :: ⟨wire, b⟩ :: rest) :=
            @List.perm_middle _ term [⟨wire, a⟩, ⟨wire, b⟩] rest
          exact ((of_perm (.swap _ _ rest)).trans (split wire a b (term :: rest))).trans (of_perm back)
      | pad wire rest => exact (pad wire (term :: terms)).trans (of_perm (.swap _ _ terms))
  | refl terms => exact refl _
  | symm _ _ _ ih => exact ih.symm
  | trans _ _ _ _ _ ih ih' => exact ih.trans ih'

theorem append_left (before : List (Term F)) (h : Respelled terms terms') :
    Respelled (before ++ terms) (before ++ terms') := by
  induction before with
  | nil => exact h
  | cons term before ih => exact ih.cons term

theorem evalTerms_eq (value : Wire → F.Elem) (h : Respelled terms terms') :
    LinearCombination.evalTerms value terms = LinearCombination.evalTerms value terms' := by
  induction h with
  | rel terms terms' step =>
      cases step with
      | reorder same =>
          induction same with
          | nil => rfl
          | cons term _ ih => rw [LinearCombination.evalTerms, LinearCombination.evalTerms, ih]
          | swap term term' rest =>
              simp only [LinearCombination.evalTerms]
              ring
          | trans _ _ ih ih' => exact ih.trans ih'
      | split wire a b rest =>
          simp only [LinearCombination.evalTerms]
          ring
      | pad wire rest =>
          simp only [LinearCombination.evalTerms]
          ring
  | refl _ => rfl
  | symm _ _ _ ih => exact ih.symm
  | trans _ _ _ _ _ ih ih' => exact ih.trans ih'

/-- Adding a term to a sorted list respells the list with the term in front. -/
theorem insertTerm (wire : Wire) (coefficient : F.Elem) (terms : List (Term F)) :
    Respelled (⟨wire, coefficient⟩ :: terms) (insertTerm wire coefficient terms) := by
  induction terms with
  | nil =>
      unfold ArithCircuit.insertTerm
      split
      · subst coefficient
        exact (pad wire []).symm
      · exact refl _
  | cons term rest ih =>
      unfold ArithCircuit.insertTerm
      split
      · split
        · subst coefficient
          exact (pad wire _).symm
        · exact refl _
      · split
        · rename_i same
          have merged : Respelled (⟨wire, coefficient⟩ :: term :: rest) (⟨wire, term.coefficient + coefficient⟩ :: rest) := by
            subst same
            exact (of_perm (.swap _ _ rest)).trans (split term.wire term.coefficient coefficient rest).symm
          dsimp only
          split
          · rename_i cancels
            rw [cancels] at merged
            exact merged.trans (pad wire rest).symm
          · exact merged
        · exact (of_perm (.swap _ _ rest)).trans (ih.cons term)

theorem foldl_addTerm (terms : List (Term F)) (x : LinearCombination F) :
    Respelled (terms ++ x.terms) (terms.foldl (fun sum term => sum.addTerm term.coefficient term.wire) x).terms := by
  induction terms generalizing x with
  | nil => exact refl _
  | cons term rest ih =>
      have first : Respelled (term :: (rest ++ x.terms)) (rest ++ term :: x.terms) := of_perm List.perm_middle.symm
      have inserted : Respelled (term :: x.terms) (x.addTerm term.coefficient term.wire).terms :=
        insertTerm term.wire term.coefficient x.terms
      exact (first.trans (inserted.append_left rest)).trans (ih _)

end Respelled

/-! ## Canonical lists -/

namespace CanonicalTerms

open LinearCombination

variable {terms terms' rest rest' : List (Term F)} {term term' : Term F}

theorem evalTerms_absent {wire : Wire} (absent : ∀ term ∈ terms, wire.index < term.wire.index) :
    evalTerms (fun other => if other = wire then 1 else 0) terms = 0 := by
  induction terms with
  | nil => rfl
  | cons term rest ih =>
      have other : term.wire ≠ wire := by
        rintro rfl
        exact Nat.lt_irrefl _ (absent term List.mem_cons_self)
      rw [evalTerms, if_neg other, ih fun t ht => absent t (List.mem_cons_of_mem _ ht)]
      ring

/-- The first coefficient is the value where only the first wire has a value. -/
theorem evalTerms_first (h : CanonicalTerms (term :: rest)) :
    evalTerms (fun other => if other = term.wire then 1 else 0) (term :: rest) = term.coefficient := by
  rw [evalTerms, if_pos rfl, evalTerms_absent (List.pairwise_cons.mp h.increasing).1]
  ring

/-- Another list of the same values has no term before the first. -/
theorem not_before (h : CanonicalTerms (term :: rest)) (h' : CanonicalTerms (term' :: rest'))
    (same : ∀ value, evalTerms value (term :: rest) = evalTerms value (term' :: rest')) :
    ¬ term.wire.index < term'.wire.index := by
  intro before
  have absent : ∀ other ∈ term' :: rest', term.wire.index < other.wire.index := by
    rintro other (_ | ⟨_, later⟩)
    · exact before
    · exact Nat.lt_trans before ((List.pairwise_cons.mp h'.increasing).1 other later)
  apply h.nonzero term List.mem_cons_self
  rw [← h.evalTerms_first, same, evalTerms_absent absent]

/-- A canonical list that is zero everywhere is empty. -/
theorem eq_nil (h : CanonicalTerms terms) (zero : ∀ value, evalTerms value terms = 0) : terms = [] := by
  cases terms with
  | nil => rfl
  | cons term rest => exact absurd (h.evalTerms_first.symm.trans (zero _)) (h.nonzero term List.mem_cons_self)

/-- Canonical lists of the same values everywhere are equal. -/
theorem ext (h : CanonicalTerms terms) (h' : CanonicalTerms terms')
    (same : ∀ value, evalTerms value terms = evalTerms value terms') : terms = terms' := by
  induction terms generalizing terms' with
  | nil => exact (h'.eq_nil fun value => (same value).symm).symm
  | cons term rest ih =>
      cases terms' with
      | nil => exact h.eq_nil same
      | cons term' rest' =>
          have wire : term.wire = term'.wire := by
            have before := h.not_before h' same
            have after := h'.not_before h fun value => (same value).symm
            exact congrArg Wire.mk (Nat.le_antisymm (Nat.le_of_not_lt after) (Nat.le_of_not_lt before))
          have coefficient : term.coefficient = term'.coefficient := by
            rw [← h.evalTerms_first, same, wire, h'.evalTerms_first]
          obtain rfl : term = term' := congrArg₂ Term.mk wire coefficient
          rw [ih h.tail h'.tail fun value => add_left_cancel (same value)]

end CanonicalTerms

/-! ## Merging -/

namespace LinearCombination

variable {x y : LinearCombination F} {n : Nat}

/-- The sum of the terms that are listed. -/
def merged (x : LinearCombination F) : LinearCombination F := ofTerms x.terms x.constant

theorem canonical_merged (x : LinearCombination F) : x.merged.Canonical :=
  List.foldlRecOn x.terms _ (canonical_ofConstant x.constant) fun _ canonical term _ =>
    canonical.addTerm term.coefficient term.wire

/-- A combination is what its terms merge into if and only if it is canonical. -/
theorem merged_eq_self : x.merged = x ↔ x.Canonical :=
  ⟨fun same => same ▸ x.canonical_merged, Canonical.ofTerms_eq⟩

@[simp]
theorem merged_constant (x : LinearCombination F) : x.merged.constant = x.constant :=
  List.foldlRecOn (motive := fun sum : LinearCombination F => sum.constant = x.constant) x.terms _ rfl fun _ same _ _ => same

/-- Merging brings in no wire. -/
theorem wires_merged_subset (x : LinearCombination F) : ∀ wire ∈ x.merged.wires, wire ∈ x.wires :=
  List.foldlRecOn (motive := fun sum : LinearCombination F => ∀ wire ∈ sum.wires, wire ∈ x.wires) x.terms _
    (by simp [ofConstant, wires]) fun sum old term hterm wire hwire => by
      rcases mem_wires_insertTerm hwire with rfl | hwire
      · exact List.mem_map_of_mem hterm
      · exact old wire hwire

theorem respelled_merged (x : LinearCombination F) : Respelled x.terms x.merged.terms := by
  have spelled := Respelled.foldl_addTerm x.terms (ofConstant x.constant)
  rwa [show (ofConstant x.constant).terms = [] from rfl, List.append_nil] at spelled

/-- Merging keeps the value. -/
theorem evalWith_merged (value : Wire → F.Elem) (x : LinearCombination F) :
    x.merged.evalWith value = x.evalWith value := by
  rw [evalWith, evalWith, merged_constant, x.respelled_merged.evalTerms_eq]

/-- The combinations differ only in how their terms are listed. -/
def Respells (x y : LinearCombination F) : Prop := x.constant = y.constant ∧ Respelled x.terms y.terms

/-- Combinations merge into the same one if and only if one respells the other. -/
theorem merged_eq_iff : x.merged = y.merged ↔ x.Respells y := by
  constructor
  · intro same
    refine ⟨by rw [← x.merged_constant, same, merged_constant], ?_⟩
    exact x.respelled_merged.trans (same ▸ y.respelled_merged.symm)
  · rintro ⟨constant, respelled⟩
    have terms : x.merged.terms = y.merged.terms := by
      refine x.canonical_merged.ext y.canonical_merged fun value => ?_
      rw [← x.respelled_merged.evalTerms_eq, ← y.respelled_merged.evalTerms_eq, respelled.evalTerms_eq]
    have constants : x.merged.constant = y.merged.constant := by rw [merged_constant, merged_constant, constant]
    exact congrArg₂ mk terms constants

theorem length_insertTerm_le (wire : Wire) (coefficient : F.Elem) (terms : List (Term F)) :
    (insertTerm wire coefficient terms).length ≤ terms.length + 1 := by
  induction terms with
  | nil =>
      unfold insertTerm
      split <;> simp
  | cons term rest ih =>
      unfold insertTerm
      dsimp only
      split
      · split <;> simp
      · split
        · split <;> simp only [List.length_cons] <;> omega
        · simp only [List.length_cons]
          omega

/-- Merging never lengthens a list. -/
theorem length_merged_le (x : LinearCombination F) : x.merged.terms.length ≤ x.terms.length := by
  have fold (terms : List (Term F)) (y : LinearCombination F) :
      (terms.foldl (fun sum term => sum.addTerm term.coefficient term.wire) y).terms.length
        ≤ terms.length + y.terms.length := by
    induction terms generalizing y with
    | nil => exact Nat.le_add_left ..
    | cons term rest ih =>
        have := ih (y.addTerm term.coefficient term.wire)
        have := length_insertTerm_le term.wire term.coefficient y.terms
        simp only [addTerm] at *
        simp only [List.foldl_cons, List.length_cons]
        omega
  exact fold x.terms (ofConstant x.constant)

end LinearCombination

end ArithCircuit
