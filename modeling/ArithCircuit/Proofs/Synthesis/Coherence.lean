import ArithCircuit.Proofs.Synthesis.Growth
import ArithCircuit.Proofs.Witness.Schedule
import ArithCircuit.Proofs.Witness.StraightLine

/-!
# Coherent drafts

A draft is coherent if its tasks are a straight line from its inputs to all of its wires and if
what it remembers about wires is true of every assignment that it accepts. Every change that a
synthesis makes keeps a draft coherent.
-/

namespace ArithCircuit

open scoped Fin.CommRing

variable {F : PrimeField} {κ : Type}

/-- Constraints of a form, read as constraints of a system. -/
class ToConstraint (F : outParam PrimeField) (κ : Type) where
  toConstraint : κ → Constraint F

export ToConstraint (toConstraint)

namespace Draft

variable {draft draft' : Draft F κ}

def IsInput (draft : Draft F κ) (wire : Wire) : Prop :=
  ∃ input ∈ draft.wires.publicInputs.toList ++ draft.wires.secretInputs.toList, input.wire = wire

variable [ToConstraint F κ]

/-- The assignment satisfies every constraint so far. -/
def Accepts (draft : Draft F κ) (value : Wire → F.Elem) : Prop :=
  ∀ c ∈ draft.constraints.toList, (toConstraint c).Holds value

def tasks (draft : Draft F κ) : List (Task F) :=
  schedule draft.hints.toList 0 (draft.constraints.toList.map toConstraint)

structure Coherent (draft : Draft F κ) : Prop where
  inputs : ∀ wire, draft.IsInput wire → wire.index < draft.size
  distinct : ((draft.wires.publicInputs.toList ++ draft.wires.secretInputs.toList).map Input.wire).Nodup
  positions : ∀ b ∈ draft.hints.toList, b.position ≤ draft.constraints.size
  internal : ∀ b ∈ draft.hints.toList, ∀ wire ∈ b.outputs, ¬ draft.IsInput wire
  separate : (draft.hints.toList.flatMap (·.outputs)).Nodup
  tasks : StraightLine draft.IsInput 0 draft.tasks draft.size
  booleans : ∀ wire ∈ draft.booleans, wire.index < draft.size ∧
    ∀ value, draft.Accepts value → value wire * (value wire - 1) = 0
  constants : ∀ entry ∈ draft.constants, entry.2.index < draft.size ∧
    ∀ value, draft.Accepts value → value entry.2 = entry.1

/-! ## Accepted assignments -/

variable {value value' : Wire → F.Elem}

theorem accepts_emit {c : κ} :
    (draft.emit c).Accepts value ↔ draft.Accepts value ∧ (toConstraint c).Holds value := by
  simp [Accepts, emit, or_imp, forall_and]

theorem Grows.accepts (grows : draft.Grows draft') (accepts : draft'.Accepts value) : draft.Accepts value :=
  fun c hc => accepts c (grows.constraints.mem hc)

theorem mem_hints_of_task {b : HintBinding} (h : Task.hint b ∈ draft.tasks) : b ∈ draft.hints.toList := by
  rcases mem_schedule h with ⟨b', hb', same⟩ | ⟨i, c, -, same⟩
  · cases same
    exact hb'
  · cases same

/-- New tasks come last. -/
theorem Grows.tasks_prefix (grows : draft.Grows draft') : draft.tasks <+: draft'.tasks := by
  obtain ⟨constraints, hconstraints, -⟩ := grows.constraints
  obtain ⟨hints, hhints, behind⟩ := grows.hints
  rw [tasks, tasks, hconstraints, hhints, List.map_append]
  exact schedule_prefix _ fun b hb => by simpa using (behind b hb).1

theorem accepts_congr (same : draft'.constraints = draft.constraints) :
    draft'.Accepts value ↔ draft.Accepts value := by
  rw [Accepts, same, Accepts]

theorem tasks_bind {n : Nat} {b : HintBinding} (position : b.position = draft.constraints.size) :
    ((draft.freshMany n).bind b).tasks = draft.tasks ++ [.hint b] := by
  have position' : b.position = 0 + (draft.constraints.toList.map toConstraint).length := by
    simpa using position
  simpa [Draft.tasks, Draft.bind, Draft.freshMany] using schedule_bind position'

omit [ToConstraint F κ] in
theorem isInput_declare {role : Role} (external : role ≠ .internal) (name : String) (wire : Wire) :
    (draft.declare role name).IsInput wire ↔ draft.IsInput wire ∨ wire = ⟨draft.size⟩ := by
  cases role with
  | internal => exact absurd rfl external
  | publicInput =>
      simp [IsInput, declare, WireTable.allocateInput, WireTable.allocate, Draft.size,
        or_and_right, exists_or, eq_comm, or_assoc]
      exact or_congr_right or_comm
  | secretInput =>
      simp [IsInput, declare, WireTable.allocateInput, WireTable.allocate, Draft.size,
        or_and_right, exists_or, eq_comm, or_assoc]

namespace Coherent

variable (coherent : draft.Coherent)
include coherent

theorem constraint_lt {c : κ} (hc : c ∈ draft.constraints.toList) :
    ∀ wire ∈ (toConstraint c).wires, wire.index < draft.size := by
  obtain ⟨i, hi⟩ := constraint_mem_schedule 0 (List.mem_map_of_mem hc)
  exact coherent.tasks.wires_lt (.constraint i (toConstraint c)) hi

theorem hint_mem_tasks {b : HintBinding} (hb : b ∈ draft.hints.toList) : Task.hint b ∈ draft.tasks :=
  hint_mem_schedule hb (Nat.zero_le _) (by simpa using coherent.positions b hb)

theorem hint_lt {b : HintBinding} (hb : b ∈ draft.hints.toList) :
    ∀ wire ∈ b.wires, wire.index < draft.size :=
  coherent.tasks.wires_lt (.hint b) (coherent.hint_mem_tasks hb)

theorem accepts_of_agree (agree : AgreeBelow draft.size value value') :
    draft.Accepts value ↔ draft.Accepts value' := by
  have each : ∀ c ∈ draft.constraints.toList,
      (toConstraint c).Holds value ↔ (toConstraint c).Holds value' := fun c hc =>
    Constraint.holds_congr fun wire hwire => agree wire (coherent.constraint_lt hc wire hwire)
  exact ⟨fun h c hc => (each c hc).mp (h c hc), fun h c hc => (each c hc).mpr (h c hc)⟩

theorem tasks_emit (c : κ) : (draft.emit c).tasks
    = draft.tasks ++ [.constraint draft.constraints.size (toConstraint c)] := by
  have positions : ∀ b ∈ draft.hints.toList,
      b.position ≤ 0 + (draft.constraints.toList.map toConstraint).length := by
    simpa using coherent.positions
  simpa [Draft.tasks, emit] using schedule_concat (toConstraint c) positions

end Coherent

/-! ## New drafts -/

theorem coherent_empty (sharesConstants : Bool) : ({ sharesConstants } : Draft F κ).Coherent where
  inputs wire := by simp [IsInput]
  distinct := by simp
  positions := by simp
  internal := by simp
  separate := by simp
  tasks := .done 0
  booleans := by simp
  constants := by simp

namespace Coherent

variable (coherent : draft.Coherent)
include coherent

theorem booleans_of_grows (grows : draft.Grows draft') (same : draft'.booleans = draft.booleans) :
    ∀ wire ∈ draft'.booleans, wire.index < draft'.size ∧
      ∀ value, draft'.Accepts value → value wire * (value wire - 1) = 0 := by
  intro wire hwire
  obtain ⟨hlt, boolean⟩ := coherent.booleans wire (same ▸ hwire)
  exact ⟨Nat.lt_of_lt_of_le hlt grows.size_le, fun value accepts => boolean value (grows.accepts accepts)⟩

theorem constants_of_grows (grows : draft.Grows draft') (same : draft'.constants = draft.constants) :
    ∀ entry ∈ draft'.constants, entry.2.index < draft'.size ∧
      ∀ value, draft'.Accepts value → value entry.2 = entry.1 := by
  intro entry hentry
  obtain ⟨hlt, constant⟩ := coherent.constants entry (same ▸ hentry)
  exact ⟨Nat.lt_of_lt_of_le hlt grows.size_le, fun value accepts => constant value (grows.accepts accepts)⟩

/-! ## Constraints -/

theorem emit {c : κ} (wires : ∀ wire ∈ (toConstraint c).wires, wire.index < draft.size) :
    (draft.emit c).Coherent where
  inputs := coherent.inputs
  distinct := coherent.distinct
  positions b hb := Nat.le_trans (coherent.positions b hb) (Grows.emit c).constraints_le
  internal := coherent.internal
  separate := coherent.separate
  tasks := by
    rw [coherent.tasks_emit]
    exact coherent.tasks.append (.check wires (.done _))
  booleans := coherent.booleans_of_grows (.emit c) rfl
  constants := coherent.constants_of_grows (.emit c) rfl

theorem define {c : κ} {result : (Wire → F.Elem) → F.Elem}
    (defines : (toConstraint c).Defines ⟨draft.size⟩ result) : (draft.define c).Coherent := by
  have grows : draft.Grows (draft.define c) := .define c
  refine ⟨?_, coherent.distinct, ?_, coherent.internal, coherent.separate, ?_,
    coherent.booleans_of_grows grows rfl, coherent.constants_of_grows grows rfl⟩
  · exact fun wire hwire => Nat.lt_of_lt_of_le (coherent.inputs wire hwire) grows.size_le
  · exact fun b hb => Nat.le_trans (coherent.positions b hb) grows.constraints_le
  · rw [show (draft.define c).tasks = (draft.emit c).tasks from rfl, coherent.tasks_emit, size_define]
    exact coherent.tasks.append (.define defines (.done _))

/-! ## Inputs and hints -/

theorem declare {role : Role} (external : role ≠ .internal) (name : String) :
    (draft.declare role name).Coherent := by
  have grows : draft.Grows (draft.declare role name) := .declare role name
  have isInput : ∀ wire, (draft.declare role name).IsInput wire ↔ draft.IsInput wire ∨ wire = ⟨draft.size⟩ :=
    isInput_declare external name
  have size : (draft.declare role name).size = draft.size + 1 := size_declare role name
  refine ⟨fun wire hwire => ?_, ?_, coherent.positions, fun b hb wire hwire => ?_, coherent.separate, ?_,
    coherent.booleans_of_grows grows rfl, coherent.constants_of_grows grows rfl⟩
  · rcases (isInput wire).mp hwire with h | rfl
    · exact Nat.lt_of_lt_of_le (coherent.inputs wire h) grows.size_le
    · exact size ▸ Nat.lt_succ_self _
  · have new : ⟨draft.size⟩ ∉ (draft.wires.publicInputs.toList ++ draft.wires.secretInputs.toList).map Input.wire :=
      fun h => by
        obtain ⟨input, hinput, same⟩ := List.mem_map.mp h
        exact Nat.lt_irrefl _ (same ▸ coherent.inputs input.wire ⟨input, hinput, rfl⟩)
    have distinct := List.nodup_cons.mpr ⟨new, coherent.distinct⟩
    cases role with
    | internal => exact absurd rfl external
    | publicInput =>
        rw [List.map_append] at distinct
        simpa [Draft.declare, WireTable.allocateInput, WireTable.allocate, Draft.size] using
          List.nodup_middle.mpr distinct
    | secretInput =>
        rw [← List.append_nil (List.map _ _)] at distinct
        simpa [Draft.declare, WireTable.allocateInput, WireTable.allocate, Draft.size] using
          List.nodup_middle.mpr distinct
  · have := coherent.hint_lt hb wire (List.mem_append.mpr (.inr hwire))
    rintro h
    rcases (isInput wire).mp h with h | rfl
    · exact coherent.internal b hb wire hwire h
    · exact Nat.lt_irrefl _ this
  · have tasks := (coherent.tasks.mono fun wire h => (isInput wire).mpr (.inl h)).append
      (.input ((isInput _).mpr (.inr rfl)) (.done _))
    rw [List.append_nil] at tasks
    exact size ▸ tasks

theorem bind {n : Nat} {b : HintBinding} (inputs : ∀ wire ∈ b.inputs, wire.index < draft.size)
    (outputs : b.outputs = Wire.span draft.size n) (position : b.position = draft.constraints.size) :
    ((draft.freshMany n).bind b).Coherent := by
  have grows : draft.Grows ((draft.freshMany n).bind b) := .bind (Nat.le_of_eq position.symm) outputs
  have isInput : ((draft.freshMany n).bind b).IsInput = draft.IsInput := by
    unfold IsInput
    simp [Draft.bind, Draft.freshMany]
  have hints : ((draft.freshMany n).bind b).hints.toList = draft.hints.toList ++ [b] := by
    simp [Draft.bind, Draft.freshMany]
  refine ⟨?_, ?_, fun b' hb' => ?_, fun b' hb' wire hwire => ?_, ?_, ?_, coherent.booleans_of_grows grows rfl,
    coherent.constants_of_grows grows rfl⟩
  · rw [isInput]
    exact fun wire hwire => Nat.lt_of_lt_of_le (coherent.inputs wire hwire) grows.size_le
  · simpa [Draft.bind, Draft.freshMany] using coherent.distinct
  · refine Nat.le_trans ?_ grows.constraints_le
    rcases List.mem_append.mp (hints ▸ hb') with h | h
    · exact coherent.positions b' h
    · rw [List.mem_singleton.mp h, position]
  · rw [isInput]
    rcases List.mem_append.mp (hints ▸ hb') with h | h
    · exact coherent.internal b' h wire hwire
    · intro isIn
      rw [List.mem_singleton.mp h, outputs] at hwire
      exact Nat.lt_irrefl _ (Nat.lt_of_lt_of_le (coherent.inputs wire isIn) (Wire.mem_span.mp hwire).1)
  · rw [hints, List.flatMap_append, List.flatMap_singleton, outputs]
    refine coherent.separate.append (Wire.nodup_span _ _) fun wire old new => ?_
    obtain ⟨b', hb', hwire⟩ := List.mem_flatMap.mp old
    exact Nat.not_lt_of_le (Wire.mem_span.mp new).1 (coherent.hint_lt hb' wire (List.mem_append_right _ hwire))
  · rw [tasks_bind position, isInput]
    refine coherent.tasks.append (.hint inputs outputs ?_)
    simpa using StraightLine.done _

/-! ## What is remembered -/

theorem mark {wire : Wire} (hlt : wire.index < draft.size)
    (boolean : ∀ value, draft.Accepts value → value wire * (value wire - 1) = 0) :
    (draft.mark wire).Coherent :=
  { coherent with
    booleans := fun other hother => by
      rcases List.mem_cons.mp hother with rfl | hother
      · exact ⟨hlt, boolean⟩
      · exact coherent.booleans other hother }

theorem remember {k : F.Elem} {wire : Wire} (hlt : wire.index < draft.size)
    (constant : ∀ value, draft.Accepts value → value wire = k) : (draft.remember k wire).Coherent := by
  unfold Draft.remember
  split
  · exact { coherent with
      constants := fun entry hentry => by
        rcases List.mem_cons.mp hentry with rfl | hentry
        · exact ⟨hlt, constant⟩
        · exact coherent.constants entry hentry }
  · exact coherent

end Coherent

end Draft

end ArithCircuit
