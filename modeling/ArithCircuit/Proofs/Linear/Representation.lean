import Mathlib.Logic.Function.DependsOn
import ArithCircuit.Proofs.Linear.Respelling

/-!
# Combinations stand for affine functions

A combination that the operations make is the only one of its function. So its terms show which wires
the function depends on, and its shape shows whether it is a constant, one term or one wire.
-/

namespace ArithCircuit

open scoped Fin.CommRing

variable {F : PrimeField}

/-- The other wires do not tell the value of the function. -/
def Wire.Matters (f : (Wire → F.Elem) → F.Elem) (wire : Wire) : Prop := ¬ DependsOn f {wire}ᶜ

namespace CanonicalTerms

open LinearCombination (evalTerms)

variable {terms : List (Term F)} {term : Term F}

/-- Where one wire has the value one and every other zero, the terms add up to the coefficient of that wire. -/
theorem evalTerms_of_mem (h : CanonicalTerms terms) (mem : term ∈ terms) :
    evalTerms (fun other => if other = term.wire then 1 else 0) terms = term.coefficient := by
  induction terms with
  | nil => cases mem
  | cons first rest ih =>
      rcases List.mem_cons.mp mem with rfl | later
      · exact h.evalTerms_first
      · have before : first.wire.index < term.wire.index := (List.pairwise_cons.mp h.increasing).1 term later
        have other : first.wire ≠ term.wire := by
          intro same
          exact Nat.lt_irrefl _ (same ▸ before)
        rw [evalTerms, if_neg other, ih h.tail later, zero_mul, zero_add]

theorem evalTerms_zero (terms : List (Term F)) : evalTerms (fun _ => 0) terms = 0 := by
  induction terms with
  | nil => rfl
  | cons term rest ih => rw [evalTerms, ih, zero_mul, zero_add]

end CanonicalTerms

namespace LinearCombination

variable {x y : LinearCombination F} {wire : Wire} {k : F.Elem}

theorem evalWith_nowhere (x : LinearCombination F) : x.evalWith (fun _ => 0) = x.constant := by
  rw [evalWith, CanonicalTerms.evalTerms_zero, add_zero]

namespace Canonical

/-- Canonical combinations of one function are equal. -/
theorem ext (hx : x.Canonical) (hy : y.Canonical) (same : ∀ value, x.evalWith value = y.evalWith value) : x = y := by
  have constants : x.constant = y.constant := by rw [← evalWith_nowhere, same, evalWith_nowhere]
  have terms : x.terms = y.terms := CanonicalTerms.ext hx hy fun value => by
    have sum := same value
    rw [evalWith, evalWith, constants] at sum
    exact add_left_cancel sum
  exact congrArg₂ mk terms constants

theorem eq_iff (hx : x.Canonical) (hy : y.Canonical) : x = y ↔ ∀ value, x.evalWith value = y.evalWith value :=
  ⟨fun same _ => same ▸ rfl, hx.ext hy⟩

/-! ## The wires of the function -/

/-- The function depends on the wires of the terms and on no other. -/
theorem matters_iff (h : x.Canonical) : wire.Matters x.evalWith ↔ wire ∈ x.wires := by
  constructor
  · intro matters
    by_contra absent
    refine matters fun value value' agree => evalWith_congr fun other hother => agree other ?_
    rintro rfl
    exact absent hother
  · intro hwire determined
    obtain ⟨term, hterm, rfl⟩ := List.mem_map.mp hwire
    have same : x.evalWith (fun other => if other = term.wire then 1 else 0) = x.evalWith fun _ => 0 :=
      determined fun other hother => if_neg hother
    rw [evalWith_nowhere, evalWith, CanonicalTerms.evalTerms_of_mem h hterm] at same
    exact h.nonzero term hterm (add_eq_left.mp same)

theorem nodup_wires (h : x.Canonical) : x.wires.Nodup := by
  refine List.pairwise_map.mpr (h.increasing.imp ?_)
  intro first later before same
  rw [same] at before
  exact Nat.lt_irrefl _ before

/-! ## Shape -/

theorem asConstant?_eq_some (h : x.Canonical) : x.asConstant? = some k ↔ ∀ value, x.evalWith value = k := by
  constructor
  · intro shape value
    rw [eq_ofConstant shape, evalWith_ofConstant]
  · intro constant
    rw [h.ext (canonical_ofConstant k) fun value => by rw [constant, evalWith_ofConstant]]
    rfl

theorem asTerm?_eq_some (h : x.Canonical) {term : Term F} : x.asTerm? = some term ∧ x.constant = k ↔
    term.coefficient ≠ 0 ∧ ∀ value, x.evalWith value = value term.wire * term.coefficient + k := by
  have sum (value : Wire → F.Elem) :
      evalWith ⟨[term], k⟩ value = value term.wire * term.coefficient + k := by
    simp only [evalWith, evalTerms]
    ring
  constructor
  · rintro ⟨shape, rfl⟩
    have terms : x.terms = [term] := by
      unfold asTerm? at shape
      split at shape
      · rename_i only hterms
        rw [hterms, Option.some.inj shape]
      · cases shape
    refine ⟨h.nonzero term (by simp [terms]), fun value => ?_⟩
    rw [← sum, ← terms]
  · rintro ⟨nonzero, same⟩
    have single : (⟨[term], k⟩ : LinearCombination F).Canonical := CanonicalTerms.nil.cons (by simp) nonzero
    rw [h.ext single fun value => (same value).trans (sum value).symm]
    exact ⟨rfl, rfl⟩

theorem asWire?_eq_some (h : x.Canonical) : x.asWire? = some wire ↔ ∀ value, x.evalWith value = value wire := by
  constructor
  · intro shape value
    rw [eq_ofWire shape, evalWith_ofWire]
  · intro same
    rw [h.ext (canonical_ofWire wire) fun value => by rw [same, evalWith_ofWire]]
    simp [asWire?, ofWire]

/-- There is one term if the function depends on one wire. -/
theorem isSome_asTerm? (h : x.Canonical) : x.asTerm?.isSome ↔ ∃! wire : Wire, wire.Matters x.evalWith := by
  have wires (terms : List (Term F)) (shape : x.terms = terms) : x.wires = terms.map Term.wire := by rw [wires, shape]
  simp only [h.matters_iff]
  cases shape : x.terms with
  | nil => simp [asTerm?, shape, wires _ shape]
  | cons first rest =>
      cases rest with
      | nil => simp [asTerm?, shape, wires _ shape]
      | cons second rest =>
          have distinct : first.wire ≠ second.wire := by
            have nodup := h.nodup_wires
            rw [wires _ shape] at nodup
            exact fun same => (List.nodup_cons.mp nodup).1 (by simp [same])
          have none : x.asTerm? = none := by simp [asTerm?, shape]
          refine iff_of_false (by simp [none]) ?_
          rintro ⟨wire, -, only⟩
          rw [wires _ shape] at only
          exact distinct ((only first.wire (by simp)).trans (only second.wire (by simp)).symm)

end Canonical

/-! ## What the operations make -/

inductive Built : LinearCombination F → Prop
  | zero : Built zero
  | ofConstant (value : F.Elem) : Built (ofConstant value)
  | ofWire (wire : Wire) : Built (ofWire wire)
  | addTerm {x : LinearCombination F} (coefficient : F.Elem) (wire : Wire) :
      Built x → Built (x.addTerm coefficient wire)
  | subTerm {x : LinearCombination F} (coefficient : F.Elem) (wire : Wire) :
      Built x → Built (x.subTerm coefficient wire)
  | addWire {x : LinearCombination F} (wire : Wire) : Built x → Built (x.addWire wire)
  | subWire {x : LinearCombination F} (wire : Wire) : Built x → Built (x.subWire wire)
  | add {x y : LinearCombination F} : Built x → Built y → Built (x + y)
  | sub {x y : LinearCombination F} : Built x → Built y → Built (x - y)
  | addScaled {x y : LinearCombination F} (factor : F.Elem) : Built x → Built y → Built (x.addScaled factor y)
  | subScaled {x y : LinearCombination F} (factor : F.Elem) : Built x → Built y → Built (x.subScaled factor y)
  | scale {x : LinearCombination F} (factor : F.Elem) : Built x → Built (x.scale factor)
  | neg {x : LinearCombination F} : Built x → Built (-x)
  | addConstant {x : LinearCombination F} (value : F.Elem) : Built x → Built (x.addConstant value)

theorem Built.canonical (prime : F.modulus.Prime) (h : x.Built) : x.Canonical := by
  induction h with
  | zero => exact canonical_zero
  | ofConstant value => exact canonical_ofConstant value
  | ofWire wire => exact canonical_ofWire wire
  | addTerm coefficient wire _ ih => exact ih.addTerm coefficient wire
  | subTerm coefficient wire _ ih => exact ih.addTerm (-coefficient) wire
  | addWire wire _ ih => exact ih.addTerm 1 wire
  | subWire wire _ ih => exact ih.addTerm (-1) wire
  | add _ _ ih _ => exact ih.add _
  | sub _ _ ih _ => exact ih.sub _
  | addScaled factor _ _ ih _ => exact ih.addScaled factor _
  | subScaled factor _ _ ih _ => exact ih.subScaled factor _
  | scale factor _ ih => exact ih.scale prime factor
  | neg _ ih => exact ih.neg prime
  | addConstant value _ ih => exact ih.addConstant value

/-- What the operations make has its wires in strictly increasing order and no coefficient zero. Two such
combinations are equal if they have the same values everywhere, and the shape of one tells whether it is a
constant, depends on one wire, or is one wire. -/
theorem built_represents (prime : F.modulus.Prime) :
    (∀ x : LinearCombination F, x.Built →
      x.terms.Pairwise (·.wire.index < ·.wire.index) ∧ ∀ term ∈ x.terms, term.coefficient ≠ 0) ∧
    (∀ x y : LinearCombination F, x.Built → y.Built → (x = y ↔ ∀ value, x.evalWith value = y.evalWith value)) ∧
    ∀ x : LinearCombination F, x.Built →
      (∀ k, x.asConstant? = some k ↔ ∀ value, x.evalWith value = k) ∧
      (∀ term k, x.asTerm? = some term ∧ x.constant = k ↔
        term.coefficient ≠ 0 ∧ ∀ value, x.evalWith value = value term.wire * term.coefficient + k) ∧
      (x.asTerm?.isSome ↔ ∃! wire : Wire, wire.Matters x.evalWith) ∧
      ∀ wire, x.asWire? = some wire ↔ ∀ value, x.evalWith value = value wire := by
  refine ⟨fun x built => ?_, fun x y hx hy => (hx.canonical prime).eq_iff (hy.canonical prime), fun x built => ?_⟩
  · have canonical := built.canonical prime
    exact ⟨canonical.increasing, canonical.nonzero⟩
  · have canonical := built.canonical prime
    exact ⟨fun k => canonical.asConstant?_eq_some, fun term k => canonical.asTerm?_eq_some,
      canonical.isSome_asTerm?, fun wire => canonical.asWire?_eq_some⟩

/-- Twice a wire less the wire is the wire. -/
theorem built_twice_less_once : ((zero.addTerm 2 ⟨3⟩).subWire ⟨3⟩ : LinearCombination .seven) = ofWire ⟨3⟩ ∧
    ((zero.addTerm 2 ⟨3⟩).subWire ⟨3⟩ : LinearCombination .seven).asWire? = some ⟨3⟩ := by
  have built : ((zero.addTerm 2 ⟨3⟩).subWire ⟨3⟩ : LinearCombination .seven).Built :=
    (Built.zero.addTerm 2 ⟨3⟩).subWire ⟨3⟩
  have value (value : Wire → PrimeField.seven.Elem) :
      ((zero.addTerm 2 ⟨3⟩).subWire ⟨3⟩ : LinearCombination .seven).evalWith value = value ⟨3⟩ := by
    simp only [subWire, subTerm, evalWith_addTerm, evalWith_zero]
    ring
  obtain ⟨-, same, shape⟩ := built_represents PrimeField.prime_seven
  exact ⟨(same _ _ built (.ofWire ⟨3⟩)).mpr fun v => by rw [value, evalWith_ofWire],
    ((shape _ built).2.2.2 ⟨3⟩).mpr value⟩

end LinearCombination

end ArithCircuit
