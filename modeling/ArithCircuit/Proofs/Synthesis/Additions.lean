import ArithCircuit.Proofs.Synthesis.Gate
import ArithCircuit.Proofs.Synthesis.Rank1
import ArithCircuit.Proofs.Synthesis.Operations

/-!
# What a form adds

The fresh wires and the constraints that a form adds on its own depend on nothing but the number of
wires that there are. So they say the same in any draft as in one without constraints.
-/

namespace ArithCircuit

open ConstraintForm (Factor wireFactor asWire? factor materialize enforceZero)
open LinearCombination (ofWire)

variable {F : PrimeField} {κ α β : Type}

theorem WireTable.allocateMany_add (table : WireTable) (k k' : Nat) :
    (table.allocateMany k).allocateMany k' = table.allocateMany (k + k') := by
  induction k generalizing table with
  | zero => rw [Nat.zero_add, allocateMany]
  | succ k ih => rw [allocateMany, ih, Nat.succ_add, allocateMany]

namespace Draft

/-- So many fresh wires, and these constraints. -/
def addAll (d : Draft F κ) (fresh : Nat) (constraints : List κ) : Draft F κ :=
  { d.freshMany fresh with constraints := d.constraints ++ constraints.toArray }

variable {d : Draft F κ}

theorem size_addAll (k : Nat) (cs : List κ) : (d.addAll k cs).size = d.size + k := size_freshMany k

theorem toList_addAll (k : Nat) (cs : List κ) :
    (d.addAll k cs).constraints.toList = d.constraints.toList ++ cs := by
  simp [addAll]

theorem addAll_addAll (k k' : Nat) (cs cs' : List κ) :
    (d.addAll k cs).addAll k' cs' = d.addAll (k + k') (cs ++ cs') := by
  simp [addAll, freshMany, WireTable.allocateMany_add]

end Draft

namespace Synthesis

/-- What the synthesis gives and adds is the same for all drafts of one size. -/
class Uniform (m : Synthesis F κ α) : Prop where
  adds : ∀ n, ∃ a fresh constraints, ∀ d : Draft F κ, d.size = n → m.run d = .ok a (d.addAll fresh constraints)

instance uniform_pure (a : α) : Uniform (pure a : Synthesis F κ α) where
  adds n := ⟨a, 0, [], fun d _ => by
    rw [run_pure]
    simp [Draft.addAll, Draft.freshMany, WireTable.allocateMany]⟩

instance uniform_emit (c : κ) : Uniform (emit c : Synthesis F κ Unit) where
  adds n := ⟨(), 0, [c], fun d _ => by
    rw [run_emit]
    simp [Draft.addAll, Draft.freshMany, WireTable.allocateMany, Draft.emit]⟩

instance uniform_freshWire : Uniform (freshWire : Synthesis F κ Wire) where
  adds n := ⟨⟨n⟩, 1, [], fun d size => by
    rw [run_freshWire, ← size]
    simp [Draft.addAll, Draft.freshMany, WireTable.allocateMany, Draft.fresh]⟩

instance uniform_bind (m : Synthesis F κ α) (f : α → Synthesis F κ β) [Uniform m] [∀ a, Uniform (f a)] :
    Uniform (m >>= f) where
  adds n := by
    obtain ⟨a, k, cs, first⟩ := Uniform.adds (m := m) n
    obtain ⟨b, k', cs', second⟩ := Uniform.adds (m := f a) (n + k)
    refine ⟨b, k + k', cs ++ cs', fun d size => ?_⟩
    rw [run_bind_ok (first d size), second _ (by rw [Draft.size_addAll, size]), Draft.addAll_addAll]

instance uniform_ite (p : Prop) [Decidable p] (m m' : Synthesis F κ α) [Uniform m] [Uniform m'] :
    Uniform (if p then m else m') := by
  split <;> infer_instance

end Synthesis

/-! ## Uniform forms -/

/-- A wire is a factor as it stands, and what the form adds on its own is the same for all drafts of one size. -/
class UniformForm (F : outParam PrimeField) (κ : Type) [ConstraintForm F κ] : Prop where
  factor_ofWire : ∀ wire : Wire, (factor (ofWire wire) : Synthesis F κ (Factor κ)) = pure (wireFactor (κ := κ) wire)
  asWire?_wireFactor : ∀ wire : Wire, asWire? (wireFactor wire : Factor κ) = some wire
  uniform_factor : ∀ x : LinearCombination F, (factor x : Synthesis F κ (Factor κ)).Uniform
  uniform_materialize : ∀ x : LinearCombination F, (materialize x : Synthesis F κ Wire).Uniform
  uniform_enforceZero : ∀ x : LinearCombination F, (enforceZero x : Synthesis F κ Unit).Uniform

attribute [instance] UniformForm.uniform_factor UniformForm.uniform_materialize UniformForm.uniform_enforceZero

instance : UniformForm F (Triple F) where
  factor_ofWire _ := rfl
  asWire?_wireFactor _ := by simp [wireFactor, asWire?, ofWire, LinearCombination.asWire?]
  uniform_factor x := Synthesis.uniform_pure x
  uniform_materialize x := by
    show (Triple.materialize x).Uniform
    unfold Triple.materialize
    infer_instance
  uniform_enforceZero x := Synthesis.uniform_emit _

namespace Gate

instance uniform_additionChain (constant : F.Elem) (sum : Term F) (rest : List (Term F)) :
    (additionChain constant sum rest).Uniform := by
  induction rest generalizing sum with
  | nil => exact Synthesis.uniform_pure _
  | cons term rest ih =>
      unfold additionChain
      infer_instance

instance uniform_materialize (x : LinearCombination F) : (materialize x).Uniform := by
  unfold materialize
  split <;> infer_instance

instance uniform_factor (x : LinearCombination F) : (factor x).Uniform := by
  unfold factor
  split <;> infer_instance

instance uniform_enforceZero (x : LinearCombination F) : (enforceZero x).Uniform := by
  unfold enforceZero
  infer_instance

end Gate

instance : UniformForm F (Gate F) where
  factor_ofWire _ := rfl
  asWire?_wireFactor wire := SlotFactor.asWire?_ofWire wire
  uniform_factor := Gate.uniform_factor
  uniform_materialize := Gate.uniform_materialize
  uniform_enforceZero := Gate.uniform_enforceZero

/-! ## What is added says -/

/-- All of these constraints hold. -/
def AllHold [ToConstraint F κ] (constraints : List κ) (value : Wire → F.Elem) : Prop :=
  ∀ c ∈ constraints, (toConstraint c).Holds value

theorem allHold_append [ToConstraint F κ] {cs cs' : List κ} {value : Wire → F.Elem} :
    AllHold (cs ++ cs') value ↔ AllHold cs value ∧ AllHold cs' value :=
  List.forall_mem_append

namespace Draft

variable [ToConstraint F κ] {d d' d'' : Draft F κ} {cs cs' : List κ} {value value' : Wire → F.Elem}

/-- Between the drafts only these constraints were added, and no wire was marked. -/
structure Adds (d d' : Draft F κ) (cs : List κ) : Prop where
  constraints : d'.constraints.toList = d.constraints.toList ++ cs
  booleans : d'.booleans = d.booleans
  size_le : d.size ≤ d'.size
  scope : ∀ c ∈ cs, ∀ wire ∈ (toConstraint c).wires, wire.index < d'.size

theorem Adds.congr (h : d.Adds d' cs) (agree : AgreeBelow d'.size value value') :
    AllHold cs value ↔ AllHold cs value' := by
  have each : ∀ c ∈ cs, ((toConstraint c).Holds value ↔ (toConstraint c).Holds value') := fun c hc =>
    Constraint.holds_congr fun wire hwire => agree wire (h.scope c hc wire hwire)
  exact forall₂_congr each

theorem Adds.accepts_iff (h : d.Adds d' cs) : d'.Accepts value ↔ d.Accepts value ∧ AllHold cs value := by
  rw [Accepts, h.constraints]
  exact allHold_append

theorem Adds.length (h : d.Adds d' cs) : d'.constraints.size = d.constraints.size + cs.length := by
  simpa using congrArg List.length h.constraints

theorem Adds.refl (d : Draft F κ) : d.Adds d [] := ⟨by simp, rfl, le_rfl, by simp⟩

/-- There is a draft of each size without constraints. -/
theorem exists_bare (n : Nat) : ∃ d : Draft F κ, d.size = n ∧ d.Coherent ∧ d.constraints = #[] := by
  induction n with
  | zero => exact ⟨{ sharesConstants := false }, rfl, coherent_empty false, rfl⟩
  | succ n ih =>
      obtain ⟨d, rfl, coherent, none⟩ := ih
      refine ⟨d.declare .secretInput "", by simp, coherent.declare (by simp) "", ?_⟩
      simpa [declare] using none

end Draft

namespace Synthesis

section Uniform

variable [ToConstraint F κ] {m : Synthesis F κ α} {d d₀ d₁ : Draft F κ} {a : α}

/-- There is a result, and what is added restricts no wire that was there before. -/
def AddsFreely (m : Synthesis F κ α) (d : Draft F κ) : Prop :=
  ∃ a d' cs, m.run d = .ok a d' ∧ d.Adds d' cs ∧
    ∀ value, ∃ value', AgreeBelow d.size value value' ∧ AllHold cs value'

/-- Nothing is added. -/
theorem addsFreely_of_run (hrun : m.run d = .ok a d) : m.AddsFreely d :=
  ⟨a, d, [], hrun, .refl d, fun value => ⟨value, .refl _ _, by simp [AllHold]⟩⟩

/-- A run on a draft without constraints shows what is added in any other of its size. -/
theorem adds_of_bare [Uniform m] (hrun : m.run d₀ = .ok a d₁) (none : d₀.constraints = #[]) (coherent : d₁.Coherent)
    (size : d.size = d₀.size) :
    ∃ d', m.run d = .ok a d' ∧ d.Adds d' d₁.constraints.toList := by
  obtain ⟨a', k, cs, adds⟩ := Uniform.adds (m := m) d₀.size
  obtain ⟨rfl, rfl⟩ := EStateM.Result.ok.inj (hrun.symm.trans (adds d₀ rfl))
  have new : (d₀.addAll k cs).constraints.toList = cs := by rw [Draft.toList_addAll, none, List.nil_append]
  have size' : (d.addAll k cs).size = (d₀.addAll k cs).size := by rw [Draft.size_addAll, Draft.size_addAll, size]
  refine ⟨d.addAll k cs, adds d size, ⟨?_, rfl, ?_, fun c hc => ?_⟩⟩
  · rw [Draft.toList_addAll, new]
  · rw [Draft.size_addAll]
    exact Nat.le_add_right _ _
  · rw [size']
    exact coherent.constraint_lt hc

end Uniform

variable [ConstraintForm F κ] [LawfulForm F κ] [UniformForm F κ] {d : Draft F κ} {x : LinearCombination F}

/-- A fresh wire for an expression restricts no wire before it. -/
theorem materialize_adds (hx : x.Below d.size) : (materialize x : Synthesis F κ Wire).AddsFreely d := by
  obtain ⟨d₀, size, coherent₀, none⟩ := Draft.exists_bare (κ := κ) d.size
  obtain ⟨wire, d₁, hrun₀, computes⟩ := LawfulForm.run_materialize (κ := κ) (d := d₀) (size ▸ hx)
  obtain ⟨d', hrun, adds⟩ := adds_of_bare hrun₀ none (computes.elaborates.coherent coherent₀) size.symm
  refine ⟨wire, d', _, hrun, adds, fun value => ?_⟩
  obtain ⟨value', agree, accepts⟩ := computes.elaborates.extend coherent₀ value
  exact ⟨value', size ▸ agree, accepts (by simp [Draft.Accepts, none])⟩

/-- What is added says that the expression is zero, and no more about the wires before it. -/
theorem enforceZero_adds (hx : x.Below d.size) :
    ∃ d' cs, (enforceZero x : Synthesis F κ Unit).run d = .ok () d' ∧ d.Adds d' cs ∧
      (∀ value, AllHold cs value → x.evalWith value = 0) ∧
      ∀ value, x.evalWith value = 0 → ∃ value', AgreeBelow d.size value value' ∧ AllHold cs value' := by
  obtain ⟨d₀, size, coherent₀, none⟩ := Draft.exists_bare (κ := κ) d.size
  have hx₀ : x.Below d₀.size := size ▸ hx
  obtain ⟨d₁, c, hrun₀, elaborates, wires, holds⟩ := LawfulForm.run_enforceZero (κ := κ) (d := d₀) hx₀
  obtain ⟨d', hrun, adds⟩ := adds_of_bare hrun₀ none ((elaborates.coherent coherent₀).emit wires) size.symm
  refine ⟨d', _, hrun, adds, fun value accepts => LawfulForm.enforceZero_forces hrun₀ value accepts,
    fun value zero => ?_⟩
  obtain ⟨value', agree, extends'⟩ := elaborates.extend coherent₀ value
  have accepts : d₁.Accepts value' := extends' (by simp [Draft.Accepts, none])
  refine ⟨value', size ▸ agree, Draft.accepts_emit.mpr ⟨accepts, (holds value' accepts).mpr ?_⟩⟩
  rw [← hx₀.evalWith_congr agree, zero]

omit [UniformForm F κ] in
theorem pin_adds (d : Draft F κ) (k : F.Elem) : (pin k : Synthesis F κ Wire).AddsFreely d := by
  cases found : d.constantWire? k with
  | some wire => exact addsFreely_of_run (run_pin_of_known found)
  | none =>
      have defines := LawfulForm.defines_pinned (κ := κ) ⟨d.size⟩ k
      refine ⟨⟨d.size⟩, _, [ConstraintForm.pinned ⟨d.size⟩ k], run_pin_of_unknown found, ⟨?_, ?_, ?_, ?_⟩,
        fun value => ⟨Function.update value ⟨d.size⟩ k, .update _ _ _, ?_⟩⟩
      · simp [Draft.constraints_remember, Draft.define, Draft.emit, Draft.fresh]
      · simp [Draft.booleans_remember, Draft.define, Draft.emit, Draft.fresh]
      · exact ((Draft.Grows.define _).trans (.remember _ _)).size_le
      · intro c hc wire hwire
        obtain rfl := List.mem_singleton.mp hc
        refine Nat.lt_of_lt_of_le ?_ (Draft.Grows.remember _ _).size_le
        rw [Draft.size_define]
        exact Nat.lt_succ_of_le (defines.wires_le wire hwire)
      · refine List.forall_mem_singleton.mpr ((defines.holds_iff _).mpr ?_)
        simp

theorem toWire_adds (hx : x.Below d.size) : (toWire x : Synthesis F κ Wire).AddsFreely d := by
  cases hwire : x.asWire? with
  | some wire =>
      rw [toWire_of_wire hwire]
      exact addsFreely_of_run (run_pure wire)
  | none =>
      cases hk : x.asConstant? with
      | some k =>
          rw [toWire_of_constant hwire hk]
          exact pin_adds d k
      | none =>
          rw [toWire_of_neither hwire hk]
          exact materialize_adds hx

end Synthesis

end ArithCircuit
