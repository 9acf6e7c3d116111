import ArithCircuit.Proofs.Synthesis.Coherence

/-!
# Elaborations

An elaboration adds fresh wires, each with a constraint that defines it. It is conservative: every
assignment of the old wires has one extension to the new ones.
-/

namespace ArithCircuit.Draft

variable {F : PrimeField} {κ : Type} [ToConstraint F κ] {d d' d'' : Draft F κ} {value value' : Wire → F.Elem}

theorem accepts_define {c : κ} :
    (d.define c).Accepts value ↔ d.Accepts value ∧ (toConstraint c).Holds value :=
  accepts_emit

inductive Elaborates : Draft F κ → Draft F κ → Prop
  | refl (d : Draft F κ) : Elaborates d d
  | define {d d' : Draft F κ} {c : κ} {result : (Wire → F.Elem) → F.Elem} : Elaborates d d' →
      (toConstraint c).Defines ⟨d'.size⟩ result → Elaborates d (d'.define c)

/-! ## One definition -/

/-- A definition gives every assignment an extension. -/
theorem Coherent.extend_define (coherent : d.Coherent) {c : κ} {result : (Wire → F.Elem) → F.Elem}
    (defines : (toConstraint c).Defines ⟨d.size⟩ result) (value : Wire → F.Elem) :
    ∃ value', AgreeBelow d.size value value' ∧ value' ⟨d.size⟩ = result value ∧
      (d.Accepts value → (d.define c).Accepts value') := by
  have agree : AgreeBelow d.size value (Function.update value ⟨d.size⟩ (result value)) := .update _ _ _
  exact ⟨_, agree, by simp, fun accepts => accepts_define.mpr
    ⟨(coherent.accepts_of_agree agree).mp accepts, defines.holds_of_agree agree (by simp)⟩⟩

/-- The extension is the only one. -/
theorem agree_define {c : κ} {result : (Wire → F.Elem) → F.Elem}
    (defines : (toConstraint c).Defines ⟨d.size⟩ result) (agree : AgreeBelow d.size value value')
    (accepts : (d.define c).Accepts value) (accepts' : (d.define c).Accepts value') :
    AgreeBelow (d.define c).size value value' := by
  intro wire hwire
  rw [size_define] at hwire
  by_cases new : wire = ⟨d.size⟩
  · rw [new, (defines.holds_iff value).mp (accepts_define.mp accepts).2,
      (defines.holds_iff value').mp (accepts_define.mp accepts').2, defines.reads_below _ _ agree]
  · obtain ⟨i⟩ := wire
    exact agree _ (Nat.lt_of_le_of_ne (Nat.le_of_lt_succ hwire) fun same => new (by simp_all))

/-! ## Many definitions -/

namespace Elaborates

theorem trans (h : d.Elaborates d') (h' : d'.Elaborates d'') : d.Elaborates d'' := by
  induction h' with
  | refl => exact h
  | define _ defines ih => exact .define ih defines

theorem grows (h : d.Elaborates d') : d.Grows d' := by
  induction h with
  | refl => exact .refl _
  | define _ _ ih => exact ih.trans (.define _)

theorem coherent (h : d.Elaborates d') (coherent : d.Coherent) : d'.Coherent := by
  induction h with
  | refl => exact coherent
  | define _ defines ih => exact ih.define defines

theorem extend (h : d.Elaborates d') (coherent : d.Coherent) (value : Wire → F.Elem) :
    ∃ value', AgreeBelow d.size value value' ∧ (d.Accepts value → d'.Accepts value') := by
  induction h with
  | refl => exact ⟨value, .refl _ _, id⟩
  | define h defines ih =>
      obtain ⟨value₁, agree₁, accepts₁⟩ := ih
      obtain ⟨value₂, agree₂, -, accepts₂⟩ := (h.coherent coherent).extend_define defines value₁
      exact ⟨value₂, agree₁.trans agree₂ h.grows.size_le, fun accepts => accepts₂ (accepts₁ accepts)⟩

theorem agree (h : d.Elaborates d') (agree : AgreeBelow d.size value value')
    (accepts : d'.Accepts value) (accepts' : d'.Accepts value') : AgreeBelow d'.size value value' := by
  induction h with
  | refl => exact agree
  | define _ defines ih =>
      exact agree_define defines (ih (accepts_define.mp accepts).1 (accepts_define.mp accepts').1) accepts accepts'

end Elaborates

/-- What is no wire and no constraint is the same in both drafts. -/
structure SameFrame (d d' : Draft F κ) : Prop where
  publicInputs : d'.wires.publicInputs = d.wires.publicInputs
  secretInputs : d'.wires.secretInputs = d.wires.secretInputs
  hints : d'.hints = d.hints
  booleans : d'.booleans = d.booleans
  constants : d'.constants = d.constants

theorem Elaborates.sameFrame (h : d.Elaborates d') : SameFrame d d' := by
  induction h with
  | refl => exact ⟨rfl, rfl, rfl, rfl, rfl⟩
  | define _ _ ih => exact ⟨ih.1, ih.2, ih.3, ih.4, ih.5⟩

/-- The last wire of an elaboration has the result. -/
structure Computes (d d' : Draft F κ) (wire : Wire) (result : (Wire → F.Elem) → F.Elem) : Prop where
  last : ∃ d₁ c e, d.Elaborates d₁ ∧ (toConstraint c).Defines ⟨d₁.size⟩ e ∧ wire = ⟨d₁.size⟩ ∧
    d' = d₁.define c
  value : ∀ value, d'.Accepts value → value wire = result value

namespace Computes

variable {wire : Wire} {result : (Wire → F.Elem) → F.Elem}

theorem single {c : κ} (defines : (toConstraint c).Defines ⟨d.size⟩ result) :
    d.Computes (d.define c) ⟨d.size⟩ result where
  last := ⟨d, c, result, .refl d, defines, rfl, rfl⟩
  value value accepts := (defines.holds_iff value).mp (accepts_define.mp accepts).2

theorem elaborates (h : d.Computes d' wire result) : d.Elaborates d' := by
  obtain ⟨d₁, c, e, elaborates, defines, -, rfl⟩ := h.last
  exact .define elaborates defines

theorem wire_lt (h : d.Computes d' wire result) : wire.index < d'.size := by
  obtain ⟨d₁, c, e, -, -, rfl, rfl⟩ := h.last
  rw [size_define]
  exact Nat.lt_succ_self _

theorem size_le (h : d.Computes d' wire result) : d.size ≤ wire.index := by
  obtain ⟨d₁, c, e, elaborates, -, rfl, -⟩ := h.last
  exact elaborates.grows.size_le

/-- The last definition already has the result where only the ones before it hold. -/
theorem exists_last (h : d.Computes d' wire result) (coherent : d.Coherent)
    (reads : ∀ value value', AgreeBelow d.size value value' → result value = result value') :
    ∃ d₁ c e, d.Elaborates d₁ ∧ (toConstraint c).Defines ⟨d₁.size⟩ e ∧ wire = ⟨d₁.size⟩ ∧
      d' = d₁.define c ∧ ∀ value, d₁.Accepts value → e value = result value := by
  obtain ⟨⟨d₁, c, e, elaborates, defines, rfl, rfl⟩, hvalue⟩ := h
  refine ⟨d₁, c, e, elaborates, defines, rfl, rfl, fun value accepts => ?_⟩
  obtain ⟨value₁, agree, last, accepts₁⟩ := (elaborates.coherent coherent).extend_define defines value
  rw [← last, hvalue value₁ (accepts₁ accepts), reads _ _ (agree.mono elaborates.grows.size_le)]

theorem after (h : d'.Computes d'' wire result) (elaborates : d.Elaborates d')
    {result' : (Wire → F.Elem) → F.Elem}
    (same : ∀ value, d''.Accepts value → result value = result' value) : d.Computes d'' wire result' := by
  obtain ⟨⟨d₁, c, e, elaborates', rest⟩, hvalue⟩ := h
  exact ⟨⟨d₁, c, e, elaborates.trans elaborates', rest⟩, fun value accepts =>
    (hvalue value accepts).trans (same value accepts)⟩

end Computes

end ArithCircuit.Draft
