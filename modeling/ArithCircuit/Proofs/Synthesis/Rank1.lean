import ArithCircuit.Proofs.Synthesis.Lawful
import ArithCircuit.Synthesis.Rank1

/-!
# Rank-1 synthesis is lawful
-/

namespace ArithCircuit

open scoped Fin.CommRing

variable {F : PrimeField}

open LinearCombination (ofConstant ofWire)

namespace Triple

instance : ToConstraint F (Triple F) := ⟨.rank1⟩

theorem defines_pinned (wire : Wire) (k : F.Elem) :
    (toConstraint (pinned wire k)).Defines wire fun _ => k := by
  have defines : (toConstraint (pinned wire k)).Defines wire _ :=
    Constraint.defines_rank1 (LinearCombination.below_ofConstant 1) (LinearCombination.below_ofConstant k)
  simp only [LinearCombination.evalWith_ofConstant, one_mul] at defines
  exact defines

theorem defines_equation {x : LinearCombination F} {wire : Wire} (h : x.Below wire.index) :
    (toConstraint (equation x (ofWire wire))).Defines wire x.evalWith := by
  have defines := Constraint.defines_rank1 h (LinearCombination.below_ofConstant 1)
  simp only [LinearCombination.evalWith_ofConstant, mul_one] at defines
  exact defines

theorem run_materialize {d : Draft F (Triple F)} {x : LinearCombination F} :
    (materialize x).run d = .ok ⟨d.size⟩ (d.define (equation x (ofWire ⟨d.size⟩))) := rfl

theorem holds_equation_zero {x : LinearCombination F} {value : Wire → F.Elem} :
    (toConstraint (equation x .zero)).Holds value ↔ x.evalWith value = 0 := by
  show x.evalWith value * (ofConstant 1).evalWith value = LinearCombination.zero.evalWith value ↔ _
  rw [LinearCombination.evalWith_ofConstant, LinearCombination.evalWith_zero, mul_one]

theorem equation_zero_lt {x : LinearCombination F} {n : Nat} (hx : x.Below n) :
    ∀ wire ∈ (toConstraint (equation x .zero)).wires, wire.index < n := by
  intro wire hwire
  rcases Constraint.mem_wires_rank1.mp hwire with h | h | h
  · exact hx wire h
  · cases h
  · cases h

end Triple

instance : LawfulForm F (Triple F) where
  toList_collect _ := rfl
  factorValue value x := x.evalWith value
  FactorBelow n x := x.Below n
  factorBelow_mono h hle := h.mono hle
  defines_pinned := Triple.defines_pinned
  defines_product _ hx hy := Constraint.defines_rank1 hx hy
  holds_product := Iff.rfl
  product_lt hx hy hz wire hwire := by
    rcases Constraint.mem_wires_rank1.mp hwire with h | h | h
    · exact hx wire h
    · exact hy wire h
    · exact hz wire h
  holds_boolean := by
    intro x value
    show x.evalWith value * (x.addConstant (-1)).evalWith value = LinearCombination.zero.evalWith value ↔ _
    rw [LinearCombination.evalWith_addConstant, LinearCombination.evalWith_zero, ← sub_eq_add_neg]
  boolean_lt hx wire hwire := by
    rcases Constraint.mem_wires_rank1.mp hwire with h | h | h
    · exact hx wire h
    · exact hx wire h
    · cases h
  asWire?_spec h := by
    rw [LinearCombination.eq_ofWire h]
    exact ⟨fun n hbelow => LinearCombination.below_ofWire.mp hbelow, fun value => by simp⟩
  run_factor {d x} hx := ⟨x, d, rfl, .refl d, hx, fun _ _ => rfl⟩
  run_materialize hx := ⟨_, _, Triple.run_materialize, .single (Triple.defines_equation hx)⟩
  run_enforceZero {d x} hx :=
    ⟨d, Triple.equation x .zero, rfl, .refl d, Triple.equation_zero_lt hx, fun _ _ => Triple.holds_equation_zero⟩
  enforceZero_forces hrun value accepts := by
    obtain ⟨-, rfl⟩ := EStateM.Result.ok.inj hrun
    exact Triple.holds_equation_zero.mp (Draft.accepts_emit.mp accepts).2
  evolving_factor x := Synthesis.evolving_pure x
  evolving_materialize x := by
    show (Triple.materialize x).Evolving
    unfold Triple.materialize
    infer_instance
  evolving_enforceZero x := Synthesis.evolving_emit _

end ArithCircuit
