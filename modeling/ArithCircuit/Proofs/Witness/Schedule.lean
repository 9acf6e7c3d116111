import ArithCircuit.Witness.Propagation
import Mathlib.Data.List.Count
import Mathlib.Tactic.Common

/-!
# Schedules

The tasks of a system are its constraints and its hints. What is added behind the constraints and
hints that are there is scheduled behind them.
-/

namespace ArithCircuit

variable {F : PrimeField}

def Task.wires : Task F → List Wire
  | .hint b => b.wires
  | .constraint _ c => c.wires

def Task.hint? : Task F → Option HintBinding
  | .hint b => some b
  | .constraint _ _ => none

/-! ## Members -/

theorem mem_hintTasks {bindings : List HintBinding} {position : Nat} {task : Task F} :
    task ∈ hintTasks bindings position ↔ ∃ b ∈ bindings, b.position = position ∧ task = .hint b := by
  simp [hintTasks, and_assoc, eq_comm]

theorem mem_schedule {bindings : List HintBinding} {constraints : List (Constraint F)} {index : Nat}
    {task : Task F} (h : task ∈ schedule bindings index constraints) :
    (∃ b ∈ bindings, task = .hint b) ∨ ∃ i, ∃ c ∈ constraints, task = .constraint i c := by
  induction constraints generalizing index with
  | nil =>
      obtain ⟨b, hb, -, rfl⟩ := mem_hintTasks.mp h
      exact .inl ⟨b, hb, rfl⟩
  | cons c rest ih =>
      rcases List.mem_append.mp h with h | h
      · obtain ⟨b, hb, -, rfl⟩ := mem_hintTasks.mp h
        exact .inl ⟨b, hb, rfl⟩
      · rcases List.mem_cons.mp h with rfl | h
        · exact .inr ⟨index, c, by simp, rfl⟩
        · rcases ih h with hint | ⟨i, c', hc', rfl⟩
          · exact .inl hint
          · exact .inr ⟨i, c', by simp [hc'], rfl⟩

/-- A hint bound at one of the constraints, or behind the last one, is scheduled. -/
theorem hint_mem_schedule {bindings : List HintBinding} {b : HintBinding} (hb : b ∈ bindings)
    {constraints : List (Constraint F)} {index : Nat} (hle : index ≤ b.position)
    (hend : b.position ≤ index + constraints.length) :
    Task.hint b ∈ schedule bindings index constraints := by
  induction constraints generalizing index with
  | nil => exact mem_hintTasks.mpr ⟨b, hb, Nat.le_antisymm hend hle, rfl⟩
  | cons c rest ih =>
      by_cases here : b.position = index
      · exact List.mem_append_left _ (mem_hintTasks.mpr ⟨b, hb, here, rfl⟩)
      · refine List.mem_append_right _ (List.mem_cons_of_mem _ (ih (by omega) ?_))
        rw [List.length_cons] at hend
        omega

theorem constraint_mem_schedule {bindings : List HintBinding} {constraints : List (Constraint F)}
    (index : Nat) {c : Constraint F} (hc : c ∈ constraints) :
    ∃ i, Task.constraint i c ∈ schedule bindings index constraints := by
  induction constraints generalizing index with
  | nil => cases hc
  | cons first rest ih =>
      rcases List.mem_cons.mp hc with rfl | hc
      · exact ⟨index, by simp [schedule]⟩
      · obtain ⟨i, hi⟩ := ih (index + 1) hc
        exact ⟨i, by simp [schedule, hi]⟩

theorem not_mem_hintTasks {bindings : List HintBinding} {position i : Nat} {c : Constraint F} :
    Task.constraint i c ∉ hintTasks bindings position := fun h => by
  obtain ⟨b, -, -, same⟩ := mem_hintTasks.mp h
  cases same

/-- An element that the first part of a list lacks is the one behind that part, or comes later. -/
theorem of_append_cons_eq {α : Type} {first rest before after : List α} {x y : α} (absent : y ∉ first)
    (split : first ++ x :: rest = before ++ y :: after) :
    before = first ∧ x = y ∧ rest = after ∨ ∃ more, before = first ++ x :: more ∧ rest = more ++ y :: after := by
  induction first generalizing before with
  | nil =>
      cases before with
      | nil => exact .inl ⟨rfl, List.cons.inj split⟩
      | cons z more =>
          obtain ⟨rfl, rest⟩ := List.cons.inj split
          exact .inr ⟨more, rfl, rest⟩
  | cons z first ih =>
      cases before with
      | nil => exact absurd (List.cons.inj split).1 fun same => absent (same ▸ List.mem_cons_self)
      | cons z' before =>
          obtain ⟨rfl, tail⟩ := List.cons.inj split
          rcases ih (fun h => absent (List.mem_cons_of_mem _ h)) tail with ⟨rfl, here⟩ | ⟨more, rfl, later⟩
          · exact .inl ⟨rfl, here⟩
          · exact .inr ⟨more, rfl, later⟩

/-- What is scheduled before a constraint are all constraints before it, and hints bound no later. -/
theorem schedule_split {bindings : List HintBinding} {constraints : List (Constraint F)} {index i : Nat}
    {c : Constraint F} {before after : List (Task F)}
    (split : schedule bindings index constraints = before ++ .constraint i c :: after) :
    ∃ earlier later, constraints = earlier ++ c :: later ∧
      (∀ c' ∈ earlier, ∃ j, Task.constraint j c' ∈ before) ∧
      ∀ b, Task.hint b ∈ before → b.position ≤ index + earlier.length := by
  induction constraints generalizing index before with
  | nil =>
      have scheduled : Task.constraint i c ∈ schedule bindings index [] := by simp [split]
      exact absurd scheduled not_mem_hintTasks
  | cons first rest ih =>
      have placed (b : HintBinding) (h : Task.hint b ∈ (hintTasks bindings index : List (Task F))) :
          b.position = index := by
        obtain ⟨b', -, here, same⟩ := mem_hintTasks.mp h
        cases same
        exact here
      rcases of_append_cons_eq not_mem_hintTasks split with ⟨rfl, same, rfl⟩ | ⟨more, rfl, tail⟩
      · cases same
        exact ⟨[], rest, rfl, by simp, fun b hb => Nat.le_of_eq (placed b hb)⟩
      · obtain ⟨earlier, later, rfl, constraints, hints⟩ := ih tail
        refine ⟨first :: earlier, later, rfl, fun c' hc' => ?_, fun b hb => ?_⟩
        · rcases List.mem_cons.mp hc' with rfl | hc'
          · exact ⟨index, by simp⟩
          · obtain ⟨j, hj⟩ := constraints c' hc'
            exact ⟨j, by simp [hj]⟩
        · rw [List.length_cons]
          rcases List.mem_append.mp hb with hb | hb
          · have := placed b hb
            omega
          · have := hints b (by simpa using hb)
            omega

theorem filterMap_hintTasks (bindings : List HintBinding) (position : Nat) :
    (hintTasks bindings position : List (Task F)).filterMap Task.hint? = bindings.filter (·.position = position) := by
  simp [hintTasks, List.filterMap_map, Function.comp_def, Task.hint?]

/-- Of bindings in order, those at a position stand before those at later positions. -/
theorem filter_position {bindings : List HintBinding} (sorted : bindings.Pairwise (·.position ≤ ·.position))
    (position : Nat) : bindings.filter (·.position = position) ++ bindings.filter (position < ·.position)
      = bindings.filter (position ≤ ·.position) := by
  induction sorted with
  | nil => rfl
  | @cons b rest first _ ih =>
      rcases Nat.lt_trichotomy b.position position with before | here | behind
      · simpa [Nat.ne_of_lt before, Nat.lt_asymm before, Nat.not_le_of_lt before] using ih
      · simpa [here] using ih
      · have all : ∀ b' ∈ b :: rest, position < b'.position := fun b' hb' => by
          rcases List.mem_cons.mp hb' with rfl | hb'
          · exact behind
          · exact Nat.lt_of_lt_of_le behind (first b' hb')
        have none : (b :: rest).filter (·.position = position) = [] := List.filter_eq_nil_iff.mpr fun b' hb' => by
          simpa using Nat.ne_of_gt (all b' hb')
        rw [none, List.nil_append, List.filter_eq_self.mpr fun b' hb' => by simpa using all b' hb',
          List.filter_eq_self.mpr fun b' hb' => by simpa using Nat.le_of_lt (all b' hb')]

/-- Bindings in order are scheduled in that order. -/
theorem filterMap_schedule {bindings : List HintBinding} (sorted : bindings.Pairwise (·.position ≤ ·.position))
    {constraints : List (Constraint F)} {index : Nat}
    (scheduled : ∀ b ∈ bindings, b.position ≤ index + constraints.length) :
    (schedule bindings index constraints).filterMap Task.hint? = bindings.filter (index ≤ ·.position) := by
  induction constraints generalizing index with
  | nil =>
      rw [schedule, filterMap_hintTasks]
      refine List.filter_congr fun b hb => ?_
      have := scheduled b hb
      simp only [List.length_nil] at this
      simp only [decide_eq_decide]
      omega
  | cons c rest ih =>
      rw [List.length_cons] at scheduled
      rw [schedule, List.filterMap_append, filterMap_hintTasks, List.filterMap_cons_none rfl,
        ih fun b hb => by have := scheduled b hb; omega]
      exact filter_position sorted index

/-- Bindings in any order are all scheduled. -/
theorem perm_schedule {bindings : List HintBinding} {constraints : List (Constraint F)} {index : Nat}
    (scheduled : ∀ b ∈ bindings, b.position ≤ index + constraints.length) :
    ((schedule bindings index constraints).filterMap Task.hint?).Perm (bindings.filter (index ≤ ·.position)) := by
  induction constraints generalizing index with
  | nil =>
      rw [schedule, filterMap_hintTasks]
      refine .of_eq (List.filter_congr fun b hb => ?_)
      have := scheduled b hb
      simp only [List.length_nil] at this
      simp only [decide_eq_decide]
      omega
  | cons c rest ih =>
      rw [List.length_cons] at scheduled
      rw [schedule, List.filterMap_append, filterMap_hintTasks, List.filterMap_cons_none rfl]
      refine ((ih fun b hb => by have := scheduled b hb; omega).append_left _).trans ?_
      have parts := List.filter_append_perm (·.position = index) (bindings.filter (index ≤ ·.position))
      rw [List.filter_filter, List.filter_filter] at parts
      refine .trans (.of_eq (congrArg₂ _ ?_ ?_)) parts
      · refine List.filter_congr fun b _ => ?_
        rw [← Bool.decide_and, decide_eq_decide]
        omega
      · refine List.filter_congr fun b _ => ?_
        rw [← decide_not, ← Bool.decide_and, decide_eq_decide]
        omega

theorem count_hintTasks (bindings : List HintBinding) (position : Nat) (b : HintBinding) :
    (hintTasks bindings position : List (Task F)).count (.hint b)
      = if b.position = position then bindings.count b else 0 := by
  rw [hintTasks, List.count_map_of_injective _ _ fun _ _ => Task.hint.inj]
  split
  · exact List.count_filter (by simpa)
  · rename_i other
    exact List.count_eq_zero.mpr fun h => other (by simpa using (List.mem_filter.mp h).2)

/-- No hint is scheduled more often than it is bound. -/
theorem count_schedule_le (bindings : List HintBinding) (constraints : List (Constraint F)) (index : Nat)
    (b : HintBinding) : (schedule bindings index constraints).count (.hint b) ≤ bindings.count b := by
  have later : (schedule bindings index constraints).count (.hint b)
      ≤ if index ≤ b.position then bindings.count b else 0 := by
    induction constraints generalizing index with
    | nil =>
        rw [schedule, count_hintTasks]
        split <;> split <;> omega
    | cons c rest ih =>
        have := ih (index + 1)
        rw [schedule, List.count_append, count_hintTasks, List.count_cons_of_ne (by simp)]
        split <;> split <;> split at this <;> omega
  exact Nat.le_trans later (by split <;> simp)

/-- A schedule has at most one task for each hint and each constraint. -/
theorem length_schedule_le (bindings : List HintBinding) (index : Nat) (constraints : List (Constraint F)) :
    (schedule bindings index constraints).length ≤ bindings.length + constraints.length := by
  have here (index : Nat) : (hintTasks bindings index : List (Task F)).length + bindings.countP (index + 1 ≤ ·.position)
      = bindings.countP (index ≤ ·.position) := by
    rw [hintTasks, List.length_map, ← List.countP_eq_length_filter]
    induction bindings with
    | nil => rfl
    | cons b rest ih =>
        simp only [List.countP_cons, decide_eq_true_eq]
        split <;> split <;> split <;> omega
  have later : (schedule bindings index constraints).length
      ≤ bindings.countP (index ≤ ·.position) + constraints.length := by
    induction constraints generalizing index with
    | nil =>
        have := here index
        rw [schedule]
        omega
    | cons c rest ih =>
        have := here index
        have := ih (index + 1)
        simp only [schedule, List.length_append, List.length_cons]
        omega
  exact Nat.le_trans later (Nat.add_le_add_right List.countP_le_length _)

/-! ## Longer schedules -/

theorem hintTasks_append (bindings bindings' : List HintBinding) (position : Nat) :
    (hintTasks (bindings ++ bindings') position : List (Task F))
      = hintTasks bindings position ++ hintTasks bindings' position := by
  simp [hintTasks]

theorem hintTasks_eq_nil {bindings : List HintBinding} {position : Nat}
    (h : ∀ b ∈ bindings, b.position ≠ position) : (hintTasks bindings position : List (Task F)) = [] := by
  simpa [hintTasks, List.filter_eq_nil_iff] using h

/-- A further constraint is scheduled last. -/
theorem schedule_concat {bindings : List HintBinding} {constraints : List (Constraint F)} {index : Nat}
    (c : Constraint F) (h : ∀ b ∈ bindings, b.position ≤ index + constraints.length) :
    schedule bindings index (constraints ++ [c])
      = schedule bindings index constraints ++ [.constraint (index + constraints.length) c] := by
  induction constraints generalizing index with
  | nil =>
      have none : (hintTasks bindings (index + 1) : List (Task F)) = [] := hintTasks_eq_nil fun b hb => by
        have := h b hb
        simp only [List.length_nil] at this
        omega
      simp [schedule, none]
  | cons first rest ih =>
      rw [List.length_cons] at h
      rw [List.cons_append, schedule, ih fun b hb => by have := h b hb; omega]
      simp [schedule, Nat.add_comm, Nat.add_left_comm]

/-- A hint bound behind the last constraint is scheduled last. -/
theorem schedule_bind {bindings : List HintBinding} {constraints : List (Constraint F)} {index : Nat}
    {b : HintBinding} (h : b.position = index + constraints.length) :
    schedule (bindings ++ [b]) index constraints = schedule bindings index constraints ++ [.hint b] := by
  induction constraints generalizing index with
  | nil => simpa [schedule, hintTasks_append, hintTasks] using h
  | cons first rest ih =>
      rw [List.length_cons] at h
      have none : (hintTasks [b] index : List (Task F)) = [] := hintTasks_eq_nil fun b' hb' => by
        obtain rfl : b' = b := by simpa using hb'
        omega
      rw [schedule, hintTasks_append, none, ih (by omega)]
      simp [schedule]

/-- Further constraints, and hints bound behind those that are there, come later. -/
theorem schedule_prefix {bindings new : List HintBinding} {constraints : List (Constraint F)} {index : Nat}
    (more : List (Constraint F)) (h : ∀ b ∈ new, index + constraints.length ≤ b.position) :
    schedule bindings index constraints <+: schedule (bindings ++ new) index (constraints ++ more) := by
  induction constraints generalizing index with
  | nil =>
      cases more <;> simp [schedule, hintTasks_append]
  | cons first rest ih =>
      rw [List.length_cons] at h
      have none : (hintTasks new index : List (Task F)) = [] := hintTasks_eq_nil fun b hb => by
        have := h b hb
        omega
      rw [List.cons_append, schedule, schedule, hintTasks_append, none, List.append_nil]
      apply List.prefix_append_right_inj _ |>.mpr
      exact List.cons_prefix_cons.mpr ⟨rfl, ih fun b hb => by have := h b hb; omega⟩

end ArithCircuit
