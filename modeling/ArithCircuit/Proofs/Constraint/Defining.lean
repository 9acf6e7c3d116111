import ArithCircuit.Proofs.Constraint.Isolation
import ArithCircuit.Proofs.Linear.Scope

/-!
# Constraints that define a wire

Such a constraint gives its greatest wire a value in terms of the wires before it, and it can be
solved for that wire as soon as the others are known.
-/

namespace ArithCircuit

open scoped Fin.CommRing

variable {F : PrimeField} {value value' : Wire → F.Elem}

namespace Constraint

/-- The constraint has the term `coefficient · wire` outside of its product. -/
def HasTerm (wire : Wire) (coefficient : F.Elem) : Constraint F → Prop
  | .rank1 triple => ⟨wire, coefficient⟩ ∈ triple.output.terms
  | .gate g => g.o = some wire ∧ g.qO = coefficient ∨
    g.qM = 0 ∧ (g.l = some wire ∧ g.qL = coefficient ∨ g.r = some wire ∧ g.qR = coefficient)

/-- The wire occurs once, outside of the product and with coefficient one or minus one. -/
structure StandsAlone (c : Constraint F) (wire : Wire) : Prop where
  once : c.wires.count wire = 1
  unit : c.HasTerm wire 1 ∨ c.HasTerm wire (-1)

/-- The constraint says that the wire has the result. -/
structure Defines (c : Constraint F) (wire : Wire) (result : (Wire → F.Elem) → F.Elem) : Prop where
  holds_iff : ∀ value, c.Holds value ↔ value wire = result value
  mentions : wire ∈ c.wires
  wires_le : ∀ other ∈ c.wires, other.index ≤ wire.index
  standsAlone : c.StandsAlone wire
  linear : ∀ known, (c.residual known wire).quadratic = 0 ∧
    ((c.residual known wire).linear = 1 ∨ (c.residual known wire).linear = -1)
  /-- The result depends on the wires before alone. -/
  reads_below : ∀ value value', AgreeBelow wire.index value value' → result value = result value'

theorem Defines.lt_of_ne {c : Constraint F} {wire other : Wire} {result : (Wire → F.Elem) → F.Elem}
    (defines : c.Defines wire result) (hother : other ∈ c.wires) (different : other ≠ wire) :
    other.index < wire.index := by
  refine Nat.lt_of_le_of_ne (defines.wires_le other hother) fun same => different ?_
  cases other
  cases wire
  cases same
  rfl

theorem Defines.isolate?_isSome {c : Constraint F} {wire : Wire} {result : (Wire → F.Elem) → F.Elem}
    (defines : c.Defines wire result) (known : Knowledge F) : ∃ root, c.isolate? known wire = some root := by
  obtain ⟨quadratic, linear⟩ := defines.linear known
  have unit : (c.residual known wire).linear ≠ 0 := by
    rcases linear with h | h
    · rw [h]
      exact PrimeField.one_ne_zero
    · rw [h, neg_ne_zero]
      exact PrimeField.one_ne_zero
  obtain ⟨inverse, hinverse⟩ := PrimeField.inverse?_isSome unit
  exact ⟨_, by rw [isolate?, Residual.root?, if_pos quadratic, hinverse]; rfl⟩

theorem Defines.of_eq {c : Constraint F} {wire : Wire} {result result' : (Wire → F.Elem) → F.Elem}
    (defines : c.Defines wire result) (same : ∀ value, result value = result' value) :
    c.Defines wire result' :=
  funext same ▸ defines

/-- Every assignment of the wires before has an extension under which the constraint holds. -/
theorem Defines.holds_of_agree {c : Constraint F} {wire : Wire} {result : (Wire → F.Elem) → F.Elem}
    (defines : c.Defines wire result) (agree : AgreeBelow wire.index value value')
    (h : value' wire = result value) : c.Holds value' := by
  rw [defines.holds_iff, h, defines.reads_below _ _ agree]

/-! ## Triples -/

theorem slope_addTerms {known : Knowledge F} {unknown : Wire} {terms : List (Term F)} {sum : Affine F}
    (h : ∀ term ∈ terms, term.wire ≠ unknown) :
    (Affine.addTerms known unknown terms sum).slope = sum.slope := by
  induction terms generalizing sum with
  | nil => rfl
  | cons term rest ih =>
      rw [Affine.addTerms, ih fun t ht => h t (by simp [ht]), if_neg (h term (by simp))]

theorem slope_ofCombination {known : Knowledge F} {wire : Wire} {x : LinearCombination F}
    (h : x.Below wire.index) : (Affine.ofCombination known wire x).slope = 0 :=
  slope_addTerms fun term ht same => by
    have := h term.wire (List.mem_map_of_mem ht)
    rw [same] at this
    omega

theorem ofCombination_ofWire (known : Knowledge F) (wire : Wire) :
    Affine.ofCombination known wire (.ofWire wire) = ⟨1, 0⟩ := by
  simp [Affine.ofCombination, LinearCombination.ofWire, Affine.addTerms]

/-- A triple whose output is a greater wire than the others defines it as the product. -/
theorem defines_rank1 {left right : LinearCombination F} {wire : Wire} (hleft : left.Below wire.index)
    (hright : right.Below wire.index) :
    (rank1 ⟨left, right, .ofWire wire⟩).Defines wire
      fun value => left.evalWith value * right.evalWith value where
  holds_iff value := by
    rw [Holds, LinearCombination.evalWith_ofWire, eq_comm]
  mentions := mem_wires_rank1.mpr (.inr (.inr (by simp [LinearCombination.wires, LinearCombination.ofWire])))
  wires_le other hother := by
    rcases mem_wires_rank1.mp hother with h | h | h
    · exact Nat.le_of_lt (hleft other h)
    · exact Nat.le_of_lt (hright other h)
    · simp_all [LinearCombination.wires, LinearCombination.ofWire]
  standsAlone := {
    once := by
      have absent {x : LinearCombination F} (below : x.Below wire.index) : x.wires.count wire = 0 :=
        List.count_eq_zero.mpr fun h => Nat.lt_irrefl _ (below wire h)
      simp only [wires, Triple.wires, List.count_append, absent hleft, absent hright]
      simp [LinearCombination.wires, LinearCombination.ofWire]
    unit := .inl List.mem_cons_self }
  linear known := by
    simp only [residual, Residual.ofProduct, slope_ofCombination hleft, slope_ofCombination hright,
      ofCombination_ofWire]
    exact ⟨by ring, .inr (by ring)⟩
  reads_below value value' agree := by
    rw [hleft.evalWith_congr agree, hright.evalWith_congr agree]

/-! ## Gates -/

theorem slope_ofSlot {known : Knowledge F} {wire : Wire} {slot : Option Wire}
    (h : ∀ other ∈ slot, other.index < wire.index) : (Affine.ofSlot known wire slot).slope = 0 := by
  cases slot with
  | none => rfl
  | some other =>
      have : other ≠ wire := by
        rintro rfl
        exact Nat.lt_irrefl _ (h other rfl)
      simp [Affine.ofSlot, this]

theorem ofSlot_self (known : Knowledge F) (wire : Wire) :
    Affine.ofSlot known wire (some wire) = ⟨1, 0⟩ := by
  simp [Affine.ofSlot]

theorem wires_gate (g : Gate F) : (gate g).wires = g.l.toList ++ g.r.toList ++ g.o.toList := by
  cases hl : g.l <;> cases hr : g.r <;> cases ho : g.o <;>
    simp [wires, Gate.wires, Slot.all, Gate.wire?, hl, hr, ho]

theorem read_congr_below {n : Nat} {slot : Option Wire} (h : ∀ other ∈ slot, other.index < n)
    (agree : AgreeBelow n value value') : Gate.read value slot = Gate.read value' slot :=
  Gate.read_congr fun other hother => agree other (h other hother)

/-- A gate with a greater wire than the others in its output slot, taken off, defines it. -/
theorem defines_gate {g : Gate F} {wire : Wire} (hl : ∀ other ∈ g.l, other.index < wire.index)
    (hr : ∀ other ∈ g.r, other.index < wire.index) (ho : g.o = some wire) (hqO : g.qO = -1) :
    (gate g).Defines wire fun value =>
      g.qL * Gate.read value g.l + g.qR * Gate.read value g.r
        + g.qM * Gate.read value g.l * Gate.read value g.r + g.qC where
  holds_iff value := by
    simp only [Holds, Gate.residual, ho, hqO, Gate.read]
    constructor <;> intro h <;> linear_combination -h
  mentions := Gate.mem_wires.mpr (.inr (.inr ho))
  wires_le other hother := by
    rcases Gate.mem_wires.mp hother with h | h | h
    · exact Nat.le_of_lt (hl other h)
    · exact Nat.le_of_lt (hr other h)
    · simp_all
  standsAlone := {
    once := by
      have absent {slot : Option Wire} (below : ∀ other ∈ slot, other.index < wire.index) :
          slot.toList.count wire = 0 :=
        List.count_eq_zero.mpr fun h => Nat.lt_irrefl _ (below wire (Option.mem_toList.mp h))
      simp only [wires_gate, List.count_append, absent hl, absent hr, ho]
      simp
    unit := .inr (.inl ⟨ho, hqO⟩) }
  linear known := by
    simp only [residual, Residual.ofGate, slope_ofSlot hl, slope_ofSlot hr, ho, hqO, ofSlot_self]
    exact ⟨by ring, .inr (by ring)⟩
  reads_below value value' agree := by
    rw [read_congr_below hl agree, read_congr_below hr agree]

/-- A gate with nothing but a wire and a constant, which it takes off. -/
theorem defines_pinned_gate (wire : Wire) (k : F.Elem) :
    (gate { qL := 1, qC := -k, l := some wire }).Defines wire fun _ => k where
  holds_iff value := by
    simp only [Holds, Gate.residual, Gate.read]
    constructor <;> intro h <;> linear_combination h
  mentions := Gate.mem_wires.mpr (.inl rfl)
  wires_le other hother := by
    rcases Gate.mem_wires.mp hother with h | h | h <;> simp_all
  standsAlone := {
    once := by simp [wires_gate]
    unit := .inl (.inr ⟨rfl, .inl ⟨rfl, rfl⟩⟩) }
  linear known := by
    simp only [residual, Residual.ofGate, Affine.ofSlot, ↓reduceIte]
    exact ⟨by ring, .inl (by ring)⟩
  reads_below _ _ _ := rfl

end Constraint

end ArithCircuit
