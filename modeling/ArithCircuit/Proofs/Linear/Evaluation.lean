import ArithCircuit.Linear.Evaluation
import ArithCircuit.Proofs.Field.Digits

/-!
# The laws of evaluation

Evaluation turns the operations on linear combinations into those on field elements.
-/

namespace ArithCircuit

open scoped Fin.CommRing

variable {F : PrimeField} {value value' : Wire → F.Elem}

namespace LinearCombination

theorem evalTerms_insertTerm (wire : Wire) (coefficient : F.Elem) (terms : List (Term F)) :
    evalTerms value (insertTerm wire coefficient terms)
      = value wire * coefficient + evalTerms value terms := by
  induction terms with
  | nil =>
      unfold insertTerm
      split <;> simp_all [evalTerms]
  | cons term rest ih =>
      simp only [insertTerm]
      split
      · split <;> simp_all [evalTerms]
      · split
        · rename_i same
          subst same
          split
          · rename_i cancels
            simp only [evalTerms]
            linear_combination -value term.wire * cancels
          · simp only [evalTerms]
            ring
        · simp only [evalTerms, ih]
          ring

theorem evalTerms_congr {terms : List (Term F)} (h : ∀ term ∈ terms, value term.wire = value' term.wire) :
    evalTerms value terms = evalTerms value' terms := by
  induction terms with
  | nil => rfl
  | cons term rest ih =>
      rw [evalTerms, evalTerms, h term (by simp), ih fun t ht => h t (by simp [ht])]

theorem evalWith_congr {x : LinearCombination F} (h : ∀ wire ∈ x.wires, value wire = value' wire) :
    x.evalWith value = x.evalWith value' := by
  unfold evalWith
  rw [evalTerms_congr fun term ht => h term.wire (List.mem_map_of_mem ht)]

/-! ## Leaves -/

@[simp]
theorem evalWith_zero : (zero : LinearCombination F).evalWith value = 0 := by
  simp [evalWith, zero, evalTerms]

@[simp]
theorem evalWith_ofConstant (k : F.Elem) : (ofConstant k).evalWith value = k := by
  simp [evalWith, ofConstant, evalTerms]

@[simp]
theorem evalWith_ofWire (wire : Wire) : (ofWire wire).evalWith value = value wire := by
  simp [evalWith, ofWire, evalTerms]

theorem evalWith_mk (terms : List (Term F)) (k : F.Elem) :
    (⟨terms, k⟩ : LinearCombination F).evalWith value = k + evalTerms value terms := rfl

/-! ## Arithmetic -/

@[simp]
theorem evalWith_addTerm (x : LinearCombination F) (k : F.Elem) (wire : Wire) :
    (x.addTerm k wire).evalWith value = x.evalWith value + value wire * k := by
  simp only [evalWith, addTerm, evalTerms_insertTerm]
  ring

@[simp]
theorem evalWith_addConstant (x : LinearCombination F) (k : F.Elem) :
    (x.addConstant k).evalWith value = x.evalWith value + k := by
  simp only [evalWith, addConstant]
  ring

theorem evalWith_foldl_addTerm (factor : F.Elem) (terms : List (Term F)) (x : LinearCombination F) :
    (terms.foldl (fun sum term => sum.addTerm (term.coefficient * factor) term.wire) x).evalWith value
      = x.evalWith value + factor * evalTerms value terms := by
  induction terms generalizing x with
  | nil => simp [evalTerms]
  | cons term rest ih =>
      rw [List.foldl_cons, ih, evalWith_addTerm, evalTerms]
      ring

@[simp]
theorem evalWith_addScaled (x y : LinearCombination F) (factor : F.Elem) :
    (x.addScaled factor y).evalWith value = x.evalWith value + factor * y.evalWith value := by
  rw [addScaled, evalWith_addConstant, evalWith_foldl_addTerm]
  simp only [evalWith]
  ring

@[simp]
theorem evalWith_subScaled (x y : LinearCombination F) (factor : F.Elem) :
    (x.subScaled factor y).evalWith value = x.evalWith value - factor * y.evalWith value := by
  rw [subScaled, evalWith_addScaled]
  ring

@[simp]
theorem evalWith_add (x y : LinearCombination F) :
    (x + y).evalWith value = x.evalWith value + y.evalWith value := by
  show (x.addScaled 1 y).evalWith value = _
  rw [evalWith_addScaled]
  ring

@[simp]
theorem evalWith_sub (x y : LinearCombination F) :
    (x - y).evalWith value = x.evalWith value - y.evalWith value := by
  show (x.subScaled 1 y).evalWith value = _
  rw [evalWith_subScaled]
  ring

theorem evalTerms_map_mul (factor : F.Elem) (terms : List (Term F)) :
    evalTerms value (terms.map fun term => { term with coefficient := term.coefficient * factor })
      = factor * evalTerms value terms := by
  induction terms with
  | nil => simp [evalTerms]
  | cons term rest ih =>
      simp only [List.map_cons, evalTerms, ih]
      ring

@[simp]
theorem evalWith_scale (x : LinearCombination F) (factor : F.Elem) :
    (x.scale factor).evalWith value = factor * x.evalWith value := by
  unfold scale
  split
  · rename_i h
    simp [h]
  · simp only [evalWith, evalTerms_map_mul]
    ring

@[simp]
theorem evalWith_neg (x : LinearCombination F) : (-x).evalWith value = -x.evalWith value := by
  show (x.scale (-1)).evalWith value = _
  rw [evalWith_scale]
  ring

theorem evalWith_foldl_bits (bits : List (LinearCombination F)) (sum : LinearCombination F)
    (weight : F.Elem) :
    (bits.foldl (fun (sum, weight) bit => (sum.addScaled weight bit, weight + weight))
        (sum, weight)).1.evalWith value
      = sum.evalWith value + weight * PrimeField.ofDigits (bits.map (·.evalWith value)) := by
  induction bits generalizing sum weight with
  | nil => simp [PrimeField.ofDigits]
  | cons bit bits ih =>
      simp only [List.foldl_cons, ih, evalWith_addScaled, List.map_cons, PrimeField.ofDigits]
      ring

@[simp]
theorem evalWith_ofBits (bits : List (LinearCombination F)) :
    (ofBits bits).evalWith value = PrimeField.ofDigits (bits.map (·.evalWith value)) := by
  rw [ofBits, evalWith_foldl_bits]
  simp

/-! ## Shape -/

theorem eq_ofConstant {x : LinearCombination F} {k : F.Elem} (h : x.asConstant? = some k) :
    x = ofConstant k := by
  obtain ⟨terms, constant⟩ := x
  cases terms with
  | nil =>
      cases h
      rfl
  | cons => cases h

/-- An expression with two values is no constant. -/
theorem asConstant?_eq_none {x : LinearCombination F} (value value' : Wire → F.Elem)
    (h : x.evalWith value ≠ x.evalWith value') : x.asConstant? = none := by
  cases hk : x.asConstant? with
  | none => rfl
  | some k =>
      rw [eq_ofConstant hk, evalWith_ofConstant, evalWith_ofConstant] at h
      exact absurd rfl h

theorem eq_ofWire {x : LinearCombination F} {wire : Wire} (h : x.asWire? = some wire) :
    x = ofWire wire := by
  unfold asWire? at h
  split at h
  · rename_i term hterms
    split at h
    · rename_i hterm
      cases h
      obtain ⟨terms, constant⟩ := x
      simp_all [ofWire]
      obtain ⟨wire, coefficient⟩ := term
      simp_all
    · cases h
  · cases h

end LinearCombination

end ArithCircuit
