import ArithCircuit.Proofs.Linear.Scope
import Mathlib.Order.Monotone.Basic

/-!
# Renaming wires

A strictly increasing renaming keeps the order of the terms, so it commutes with all operations on
linear combinations.
-/

namespace ArithCircuit

variable {F : PrimeField} {ρ ρ' : Nat → Nat}

def Wire.rename (ρ : Nat → Nat) (wire : Wire) : Wire := ⟨ρ wire.index⟩

def Term.rename (ρ : Nat → Nat) (term : Term F) : Term F := { term with wire := term.wire.rename ρ }

theorem rename_inj (mono : StrictMono ρ) {wire other : Wire} :
    wire.rename ρ = other.rename ρ ↔ wire = other := by
  obtain ⟨i⟩ := wire
  obtain ⟨j⟩ := other
  simp [Wire.rename, mono.injective.eq_iff]

namespace LinearCombination

def rename (ρ : Nat → Nat) (x : LinearCombination F) : LinearCombination F :=
  { x with terms := x.terms.map (Term.rename ρ) }

variable {x y : LinearCombination F}

theorem wires_rename : (x.rename ρ).wires = x.wires.map (Wire.rename ρ) := by
  simp [wires, rename, Term.rename, Function.comp_def]

theorem evalTerms_rename (value : Wire → F.Elem) (terms : List (Term F)) :
    evalTerms value (terms.map (Term.rename ρ)) = evalTerms (fun w => value (w.rename ρ)) terms := by
  induction terms with
  | nil => rfl
  | cons term rest ih => simp only [List.map_cons, evalTerms, ih, Term.rename]

theorem evalWith_rename (value : Wire → F.Elem) :
    (x.rename ρ).evalWith value = x.evalWith fun w => value (w.rename ρ) := by
  simp [evalWith, rename, evalTerms_rename]

/-- Only the new names of the wires that occur matter. -/
theorem Below.rename_congr {n : Nat} (h : x.Below n) (same : ∀ i < n, ρ i = ρ' i) :
    x.rename ρ = x.rename ρ' := by
  unfold rename
  congr 1
  apply List.map_congr_left
  intro term ht
  simp [Term.rename, Wire.rename, same _ (h term.wire (List.mem_map_of_mem ht))]

theorem Below.rename {n m : Nat} (h : x.Below n) (maps : ∀ i < n, ρ i < m) : (x.rename ρ).Below m := by
  intro wire hwire
  rw [wires_rename] at hwire
  obtain ⟨w, hw, rfl⟩ := List.mem_map.mp hwire
  exact maps _ (h w hw)

/-! ## Leaves and shape -/

@[simp]
theorem rename_ofWire (wire : Wire) :
    (ofWire wire : LinearCombination F).rename ρ = ofWire (wire.rename ρ) := rfl

@[simp]
theorem asConstant?_rename : (x.rename ρ).asConstant? = x.asConstant? := by
  obtain ⟨terms, constant⟩ := x
  cases terms <;> rfl

theorem asWire?_rename : (x.rename ρ).asWire? = x.asWire?.map (Wire.rename ρ) := by
  obtain ⟨terms, constant⟩ := x
  match terms with
  | [] => rfl
  | [term] =>
      simp only [asWire?, rename, List.map_cons, List.map_nil, Term.rename]
      split <;> rfl
  | _ :: _ :: _ => rfl

/-! ## Arithmetic -/

@[simp]
theorem rename_addConstant (k : F.Elem) : (x.addConstant k).rename ρ = (x.rename ρ).addConstant k := rfl

@[simp]
theorem rename_scale (k : F.Elem) : (x.scale k).rename ρ = (x.rename ρ).scale k := by
  unfold scale
  split
  · rfl
  · simp [rename, Term.rename, Function.comp_def]

variable (mono : StrictMono ρ)
include mono

theorem map_rename_insertTerm (wire : Wire) (k : F.Elem) (terms : List (Term F)) :
    (insertTerm wire k terms).map (Term.rename ρ)
      = insertTerm (wire.rename ρ) k (terms.map (Term.rename ρ)) := by
  induction terms with
  | nil =>
      unfold insertTerm
      split <;> simp_all [Term.rename]
  | cons term rest ih =>
      simp only [insertTerm, List.map_cons]
      have lt : (wire.rename ρ).index < (term.rename ρ).wire.index ↔ wire.index < term.wire.index :=
        mono.lt_iff_lt
      have eq : wire.rename ρ = (term.rename ρ).wire ↔ wire = term.wire := rename_inj mono
      simp only [lt, eq, ← ih, show (term.rename ρ).coefficient = term.coefficient from rfl]
      split
      · split <;> simp [Term.rename]
      · split
        · split <;> simp [Term.rename]
        · simp

theorem rename_addTerm (k : F.Elem) (wire : Wire) :
    (x.addTerm k wire).rename ρ = (x.rename ρ).addTerm k (wire.rename ρ) := by
  simp [addTerm, rename, map_rename_insertTerm mono]

theorem rename_foldl_addTerm (k : F.Elem) (terms : List (Term F)) (x : LinearCombination F) :
    (terms.foldl (fun sum term => sum.addTerm (term.coefficient * k) term.wire) x).rename ρ
      = (terms.map (Term.rename ρ)).foldl
          (fun sum term => sum.addTerm (term.coefficient * k) term.wire) (x.rename ρ) := by
  induction terms generalizing x with
  | nil => rfl
  | cons term rest ih =>
      rw [List.foldl_cons, ih, rename_addTerm mono]
      rfl

@[simp]
theorem rename_addScaled (k : F.Elem) :
    (x.addScaled k y).rename ρ = (x.rename ρ).addScaled k (y.rename ρ) := by
  rw [addScaled, rename_addConstant, rename_foldl_addTerm mono]
  rfl

@[simp]
theorem rename_subScaled (k : F.Elem) :
    (x.subScaled k y).rename ρ = (x.rename ρ).subScaled k (y.rename ρ) :=
  rename_addScaled mono (-k)

@[simp]
theorem rename_add : (x + y).rename ρ = x.rename ρ + y.rename ρ := rename_addScaled mono 1

@[simp]
theorem rename_sub : (x - y).rename ρ = x.rename ρ - y.rename ρ := rename_subScaled mono 1

theorem rename_foldl_bits (bits : List (LinearCombination F)) (x : LinearCombination F)
    (weight : F.Elem) :
    (bits.foldl (fun (sum, weight) bit => (sum.addScaled weight bit, weight + weight))
        (x, weight)).1.rename ρ
      = ((bits.map (rename ρ)).foldl
          (fun (sum, weight) bit => (sum.addScaled weight bit, weight + weight))
          (x.rename ρ, weight)).1 := by
  induction bits generalizing x weight with
  | nil => rfl
  | cons bit bits ih => rw [List.foldl_cons, ih, rename_addScaled mono, List.map_cons, List.foldl_cons]

@[simp]
theorem rename_ofBits (bits : List (LinearCombination F)) :
    (ofBits bits).rename ρ = ofBits (bits.map (rename ρ)) := by
  rw [ofBits, rename_foldl_bits mono]
  rfl

end LinearCombination

end ArithCircuit
