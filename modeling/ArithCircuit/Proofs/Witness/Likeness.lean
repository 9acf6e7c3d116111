import ArithCircuit.Proofs.Witness.Attempts
import ArithCircuit.Proofs.Witness.Moments

/-!
# Runs from like knowledge

A run looks at the wires of its tasks and at the wires that need a value, and it learns the wires of its
tasks. So two runs that start with the same values for all of these do the same, attempt by attempt.
-/

namespace ArithCircuit

variable {F : PrimeField}

/-- A relation between two states of knowledge with the same values for the wires of a kind, which is kept
when both learn the same about such a wire. -/
structure Likeness (kind : Wire → Prop) (like : Knowledge F → Knowledge F → Prop) : Prop where
  get?_eq : ∀ {known known'}, like known known' → ∀ wire, kind wire → known'.get? wire = known.get? wire
  learn : ∀ {known known'}, like known known' → ∀ wire, kind wire → ∀ x,
    like (known.learn wire x) (known'.learn wire x)

/-- The same outcome of two attempts, with like knowledge where something was learned. -/
inductive Attempt.Like (like : Knowledge F → Knowledge F → Prop) :
    Except (SolveError F) (Attempt F) → Except (SolveError F) (Attempt F) → Prop
  | failed (error : SolveError F) : Like like (.error error) (.error error)
  | waiting : Like like (.ok .waiting) (.ok .waiting)
  | settled : Like like (.ok .settled) (.ok .settled)
  | learned {known known' : Knowledge F} : like known known' →
      Like like (.ok (.learned known)) (.ok (.learned known'))

namespace SolvingContext

/-- The same pass, apart from what is known. -/
structure Pass.Like (like : Knowledge F → Knowledge F → Prop) (pass pass' : Pass F) : Prop where
  known : like pass.known pass'.known
  pending : pass'.pending = pass.pending
  progress : pass'.progress = pass.progress
  error? : pass'.error? = pass.error?

/-- The same run, apart from what is known. -/
structure Propagation.Like (like : Knowledge F → Knowledge F → Prop) (run run' : Propagation F) : Prop where
  known : like run.known run'.known
  passes : run'.passes = run.passes
  error? : run'.error? = run.error?

end SolvingContext

namespace Likeness

variable {kind : Wire → Prop} {like : Knowledge F → Knowledge F → Prop} {known known' : Knowledge F}
  {context : SolvingContext F} {tasks : List (Task F)} {wires : List Wire}

section

variable (likeness : Likeness kind like) (h : like known known')
include likeness h

theorem valueOrZero {wire : Wire} (hwire : kind wire) : known'.valueOrZero wire = known.valueOrZero wire := by
  rw [Knowledge.valueOrZero, likeness.get?_eq h wire hwire, Knowledge.valueOrZero]

theorem getAll? (hwires : ∀ wire ∈ wires, kind wire) : known'.getAll? wires = known.getAll? wires := by
  induction wires with
  | nil => rfl
  | cons wire wires ih =>
      obtain ⟨first, later⟩ := List.forall_mem_cons.mp hwires
      rw [Knowledge.getAll?_cons, Knowledge.getAll?_cons, likeness.get?_eq h wire first, ih later]

theorem learnAll (hwires : ∀ wire ∈ wires, kind wire) (values : List F.Elem) :
    like (known.learnAll wires values) (known'.learnAll wires values) := by
  induction wires generalizing known known' values with
  | nil => exact h
  | cons wire wires ih =>
      obtain ⟨first, later⟩ := List.forall_mem_cons.mp hwires
      cases values with
      | nil => exact h
      | cons x values => exact ih (likeness.learn h wire first x) later values

/-! ## Attempts -/

theorem fire {b : HintBinding} (hwires : ∀ wire ∈ b.wires, kind wire) :
    Attempt.Like like (context.fire b known) (context.fire b known') := by
  obtain ⟨inputs, outputs⟩ := List.forall_mem_append.mp hwires
  rw [SolvingContext.fire_eq, SolvingContext.fire_eq, likeness.getAll? h inputs]
  cases known.getAll? b.inputs with
  | none => exact .waiting
  | some values =>
      dsimp only
      split
      · exact .failed _
      · exact .learned (likeness.learnAll h outputs _)

theorem resolve {index : Nat} {c : Constraint F} (hwires : ∀ wire ∈ c.wires, kind wire) :
    Attempt.Like like (context.resolve index c known) (context.resolve index c known') := by
  have unknowns : (c.wires.filter fun wire => (known'.get? wire).isNone)
      = c.wires.filter fun wire => (known.get? wire).isNone :=
    List.filter_congr fun wire hwire => by rw [likeness.get?_eq h wire (hwires wire hwire)]
  have values : ∀ wire ∈ c.wires, known'.valueOrZero wire = known.valueOrZero wire :=
    fun wire hwire => likeness.valueOrZero h (hwires wire hwire)
  rw [SolvingContext.resolve, SolvingContext.resolve, unknowns, Constraint.violation?_congr values]
  cases hfilter : c.wires.filter fun wire => (known.get? wire).isNone with
  | nil =>
      dsimp only
      split
      · exact .failed _
      · exact .settled
  | cons unknown others =>
      have hunknown : unknown ∈ c.wires := (List.mem_filter.mp (hfilter ▸ List.mem_cons_self)).1
      dsimp only
      rw [Constraint.isolate, Constraint.isolate, Constraint.isolate?_congr fun wire hwire _ => values wire hwire]
      split
      · split
        · exact .learned (likeness.learn h unknown (hwires unknown hunknown) _)
        · exact .waiting
      · exact .waiting

/-- Trying a task has the same outcome on both sides. -/
theorem attempt {task : Task F} (hwires : ∀ wire ∈ task.wires, kind wire) :
    Attempt.Like like (context.attempt known task) (context.attempt known' task) := by
  cases task with
  | hint b => exact likeness.fire h hwires
  | constraint index c => exact likeness.resolve h hwires

/-! ## Passes and runs -/

theorem pass (inside : ∀ task ∈ tasks, ∀ wire ∈ task.wires, kind wire) :
    (context.pass tasks known).Like like (context.pass tasks known') := by
  induction tasks generalizing known known' with
  | nil => exact ⟨h, rfl, rfl, rfl⟩
  | cons task rest ih =>
      obtain ⟨first, later⟩ := List.forall_mem_cons.mp inside
      have attempted : Attempt.Like like (context.attempt known task) (context.attempt known' task) :=
        likeness.attempt h first
      rw [SolvingContext.pass, SolvingContext.pass]
      generalize context.attempt known task = outcome, context.attempt known' task = outcome' at attempted ⊢
      cases attempted with
      | failed error => exact ⟨h, rfl, rfl, rfl⟩
      | waiting =>
          have after := ih h later
          exact ⟨after.known, congrArg (task :: ·) after.pending, after.progress, after.error?⟩
      | settled => exact ih h later
      | learned h' =>
          have after := ih h' later
          exact ⟨after.known, after.pending, rfl, after.error?⟩

theorem leastUnknown? (needed : ∀ i, context.mentioned.getD i false = true → kind ⟨i⟩) :
    context.leastUnknown? known' = context.leastUnknown? known := by
  unfold SolvingContext.leastUnknown?
  refine List.find?_congr fun i _ => ?_
  cases marked : context.mentioned.getD i false with
  | false => rfl
  | true => rw [likeness.get?_eq h ⟨i⟩ (needed i marked)]

/-- A run has the same outcome after the same passes on both sides. -/
theorem propagate (needed : ∀ i, context.mentioned.getD i false = true → kind ⟨i⟩)
    (inside : ∀ task ∈ tasks, ∀ wire ∈ task.wires, kind wire) {fuel passes : Nat} :
    (context.propagate fuel passes tasks known).Like like (context.propagate fuel passes tasks known') := by
  induction fuel generalizing passes tasks known known' with
  | zero => exact ⟨h, rfl, rfl⟩
  | succ fuel ih =>
      have after : (context.pass tasks known).Like like (context.pass tasks known') := likeness.pass h inside
      rw [SolvingContext.propagate, SolvingContext.propagate, likeness.leastUnknown? h needed]
      cases context.leastUnknown? known with
      | none => exact ⟨h, rfl, rfl⟩
      | some wire =>
          dsimp only
          rw [after.error?, after.progress, after.pending]
          cases (context.pass tasks known).error? with
          | some error => exact ⟨after.known, rfl, rfl⟩
          | none =>
              cases (context.pass tasks known).progress with
              | false => exact ⟨after.known, rfl, rfl⟩
              | true => exact ih after.known fun task htask => inside task (context.pending_subset tasks known htask)

end

end Likeness

end ArithCircuit
