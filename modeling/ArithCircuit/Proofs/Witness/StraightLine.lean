import ArithCircuit.Proofs.Constraint.Defining
import ArithCircuit.Proofs.Witness.Schedule

/-!
# Straight-line systems

In a straight-line list of tasks every task finds what it needs, because it stands behind the tasks
that give the values.
-/

namespace ArithCircuit

variable {F : PrimeField}

/-- With the wires below the first index known, the tasks give values to the wires from there up to
the second index: each of them is an input, the output of a hint on wires before it, or defined by a
constraint. All other constraints are about wires before them. -/
inductive StraightLine (isInput : Wire → Prop) : Nat → List (Task F) → Nat → Prop
  | done (n : Nat) : StraightLine isInput n [] n
  | input {n m : Nat} {tasks : List (Task F)} : isInput ⟨n⟩ → StraightLine isInput (n + 1) tasks m →
      StraightLine isInput n tasks m
  | hint {n m k : Nat} {b : HintBinding} {tasks : List (Task F)} :
      (∀ wire ∈ b.inputs, wire.index < n) → b.outputs = Wire.span n k →
      StraightLine isInput (n + k) tasks m → StraightLine isInput n (.hint b :: tasks) m
  | define {n m i : Nat} {c : Constraint F} {result : (Wire → F.Elem) → F.Elem}
      {tasks : List (Task F)} : c.Defines ⟨n⟩ result → StraightLine isInput (n + 1) tasks m →
      StraightLine isInput n (.constraint i c :: tasks) m
  | check {n m i : Nat} {c : Constraint F} {tasks : List (Task F)} :
      (∀ wire ∈ c.wires, wire.index < n) → StraightLine isInput n tasks m →
      StraightLine isInput n (.constraint i c :: tasks) m

variable {value : Wire → F.Elem} {isInput isInput' : Wire → Prop} {n m k : Nat}
  {tasks tasks' : List (Task F)}

namespace StraightLine

theorem le (h : StraightLine isInput n tasks m) : n ≤ m := by
  induction h with
  | done => exact Nat.le_refl _
  | input _ _ ih => omega
  | hint _ _ _ ih => omega
  | define _ _ ih => omega
  | check _ _ ih => exact ih

theorem append (h : StraightLine isInput n tasks m) (h' : StraightLine isInput m tasks' k) :
    StraightLine isInput n (tasks ++ tasks') k := by
  induction h with
  | done => exact h'
  | input isIn _ ih => exact .input isIn (ih h')
  | hint inputs outputs _ ih => exact .hint inputs outputs (ih h')
  | define defines _ ih => exact .define defines (ih h')
  | check wires _ ih => exact .check wires (ih h')

theorem mono (h : StraightLine isInput n tasks m) (weaker : ∀ wire, isInput wire → isInput' wire) :
    StraightLine isInput' n tasks m := by
  induction h with
  | done => exact .done _
  | input isIn _ ih => exact .input (weaker _ isIn) ih
  | hint inputs outputs _ ih => exact .hint inputs outputs ih
  | define defines _ ih => exact .define defines ih
  | check wires _ ih => exact .check wires ih

theorem wires_lt (h : StraightLine isInput n tasks m) :
    ∀ task ∈ tasks, ∀ wire ∈ task.wires, wire.index < m := by
  induction h with
  | done => simp
  | input _ _ ih => exact ih
  | @hint n m k b tasks inputs outputs rest ih =>
      intro task htask wire hwire
      rcases List.mem_cons.mp htask with rfl | htask
      · have := rest.le
        rcases List.mem_append.mp hwire with h | h
        · have := inputs wire h
          omega
        · have := (Wire.mem_span.mp (outputs ▸ h)).2
          omega
      · exact ih task htask wire hwire
  | define defines rest ih =>
      intro task htask wire hwire
      rcases List.mem_cons.mp htask with rfl | htask
      · have := rest.le
        have := defines.wires_le wire hwire
        simp only at this
        omega
      · exact ih task htask wire hwire
  | check wires rest ih =>
      intro task htask wire hwire
      rcases List.mem_cons.mp htask with rfl | htask
      · have := rest.le
        have := wires wire hwire
        omega
      · exact ih task htask wire hwire

theorem le_outputs (h : StraightLine isInput n tasks m) {b : HintBinding} (hb : Task.hint b ∈ tasks)
    {wire : Wire} (hwire : wire ∈ b.outputs) : n ≤ wire.index := by
  induction h with
  | done => cases hb
  | input _ _ ih => exact Nat.le_of_succ_le (ih hb)
  | hint inputs outputs rest ih =>
      rcases List.mem_cons.mp hb with same | hb
      · cases same
        exact (Wire.mem_span.mp (outputs ▸ hwire)).1
      · exact Nat.le_trans (Nat.le_add_right _ _) (ih hb)
  | define _ _ ih => exact Nat.le_of_succ_le (ih (by simpa using hb))
  | check _ _ ih => exact ih (by simpa using hb)

/-- A list of tasks may be cut anywhere. -/
theorem of_append (h : StraightLine isInput n (tasks ++ tasks') m) :
    ∃ k, StraightLine isInput n tasks k ∧ StraightLine isInput k tasks' m := by
  generalize whole : tasks ++ tasks' = all at h
  induction h generalizing tasks with
  | done n =>
      obtain ⟨rfl, rfl⟩ := List.append_eq_nil_iff.mp whole
      exact ⟨n, .done n, .done n⟩
  | input isIn _ ih =>
      obtain ⟨k, first, second⟩ := ih whole
      exact ⟨k, .input isIn first, second⟩
  | hint inputs outputs rest ih =>
      cases tasks with
      | nil => exact ⟨_, .done _, (show tasks' = _ from whole) ▸ .hint inputs outputs rest⟩
      | cons task tasks =>
          obtain ⟨rfl, tail⟩ := List.cons.inj whole
          obtain ⟨k, first, second⟩ := ih tail
          exact ⟨k, .hint inputs outputs first, second⟩
  | define defines rest ih =>
      cases tasks with
      | nil => exact ⟨_, .done _, (show tasks' = _ from whole) ▸ .define defines rest⟩
      | cons task tasks =>
          obtain ⟨rfl, tail⟩ := List.cons.inj whole
          obtain ⟨k, first, second⟩ := ih tail
          exact ⟨k, .define defines first, second⟩
  | check wires rest ih =>
      cases tasks with
      | nil => exact ⟨_, .done _, (show tasks' = _ from whole) ▸ .check wires rest⟩
      | cons task tasks =>
          obtain ⟨rfl, tail⟩ := List.cons.inj whole
          obtain ⟨k, first, second⟩ := ih tail
          exact ⟨k, .check wires first, second⟩

/-- A hint with outputs is run once. -/
theorem not_mem_outputs (h : StraightLine isInput n (tasks ++ tasks') m) {b : HintBinding}
    (hb : Task.hint b ∈ tasks) (hb' : Task.hint b ∈ tasks') (wire : Wire) : wire ∉ b.outputs := by
  intro hwire
  obtain ⟨k, first, second⟩ := h.of_append
  have hlt := first.wires_lt _ hb wire (List.mem_append_right _ hwire)
  have hle := second.le_outputs hb' hwire
  omega

theorem input_lt_output (h : StraightLine isInput n tasks m) {b : HintBinding} (hb : Task.hint b ∈ tasks)
    {input output : Wire} (hinput : input ∈ b.inputs) (houtput : output ∈ b.outputs) :
    input.index < output.index := by
  induction h with
  | done => cases hb
  | input _ _ ih => exact ih hb
  | hint inputs outputs _ ih =>
      rcases List.mem_cons.mp hb with same | hb
      · cases same
        exact Nat.lt_of_lt_of_le (inputs input hinput) (Wire.mem_span.mp (outputs ▸ houtput)).1
      · exact ih hb
  | define _ _ ih => exact ih (by simpa using hb)
  | check _ _ ih => exact ih (by simpa using hb)

/-- Where a wire gets its value: it is an input, an output of a hint, or defined by a constraint behind the
wires before it. -/
inductive Source (isInput : Wire → Prop) (n : Nat) (tasks : List (Task F)) (m : Nat) (wire : Wire) : Prop
  | input : isInput wire → Source isInput n tasks m wire
  | output {b : HintBinding} : Task.hint b ∈ tasks → wire ∈ b.outputs → Source isInput n tasks m wire
  | defined {before after : List (Task F)} {i : Nat} {c : Constraint F} {result : (Wire → F.Elem) → F.Elem} :
      tasks = before ++ .constraint i c :: after → c.Defines wire result →
      StraightLine isInput n before wire.index → StraightLine isInput (wire.index + 1) after m →
      Source isInput n tasks m wire

/-- What comes before the constraint that defines a wire grows with the list of tasks. -/
theorem Source.behind {n' : Nat} {wire : Wire} (source : Source isInput n' tasks m wire) (first : List (Task F))
    (grow : ∀ before k, StraightLine isInput n' before k → StraightLine isInput n (first ++ before) k) :
    Source isInput n (first ++ tasks) m wire := by
  cases source with
  | input isIn => exact .input isIn
  | output hb h => exact .output (List.mem_append_right _ hb) h
  | @defined before after i c result split defines start rest =>
      exact .defined (by rw [split, List.append_assoc]) defines (grow before _ start) rest

theorem source (h : StraightLine isInput n tasks m) {wire : Wire} (hle : n ≤ wire.index)
    (hlt : wire.index < m) : Source isInput n tasks m wire := by
  obtain ⟨j⟩ := wire
  induction h with
  | done => exact absurd hlt (Nat.not_lt_of_le hle)
  | @input n m tasks isIn rest ih =>
      by_cases same : j = n
      · exact .input (same ▸ isIn)
      · exact (ih (Nat.lt_of_le_of_ne hle (Ne.symm same)) hlt).behind [] fun _ _ => .input isIn
  | @hint n m k b tasks inputs outputs rest ih =>
      by_cases new : j < n + k
      · exact .output List.mem_cons_self (outputs ▸ Wire.mem_span.mpr ⟨hle, new⟩)
      · exact (ih (Nat.le_of_not_lt new) hlt).behind [.hint b] fun _ _ => .hint inputs outputs
  | @define n m i c result tasks defines rest ih =>
      by_cases same : j = n
      · subst same
        exact .defined rfl defines (.done j) rest
      · exact (ih (Nat.lt_of_le_of_ne hle (Ne.symm same)) hlt).behind [_] fun _ _ => .define defines
  | check wires rest ih => exact (ih hle hlt).behind [_] fun _ _ => .check wires

/-- Every wire is an input or occurs in a task. -/
theorem mem_wires (h : StraightLine isInput n tasks m) {wire : Wire} (hle : n ≤ wire.index)
    (hlt : wire.index < m) : isInput wire ∨ ∃ task ∈ tasks, wire ∈ task.wires := by
  cases h.source hle hlt with
  | input isIn => exact .inl isIn
  | @output b hb output => exact .inr ⟨.hint b, hb, List.mem_append_right _ output⟩
  | @defined before after i c result split defines _ _ =>
      exact .inr ⟨.constraint i c, by simp [split], defines.mentions⟩

end StraightLine

end ArithCircuit
