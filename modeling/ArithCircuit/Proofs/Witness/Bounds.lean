import ArithCircuit.Proofs.Hint.Totality
import ArithCircuit.Proofs.Witness.Confluence
import ArithCircuit.Proofs.Witness.Likeness

/-!
# Runs stay in bounds and end

An attempt looks at the wires of its task and teaches no others. So if all wires of a system are in
range, entries behind the last wire play no part in a run, whatever they are. Every pass but the last
one completes a task, so a run is over after as many passes as there are tasks, and one more.
-/

namespace ArithCircuit

variable {F : PrimeField}

/-! ## Entries behind the wires -/

namespace Knowledge

variable {known : Knowledge F} {more : Array (Option F.Elem)} {wire : Wire} {wires : List Wire} {x : F.Elem}

/-- The same knowledge with further entries behind it. -/
def extend (known : Knowledge F) (more : Array (Option F.Elem)) : Knowledge F := ⟨known.values ++ more⟩

theorem get?_extend (inside : wire.index < known.values.size) : (known.extend more).get? wire = known.get? wire := by
  simp [extend, get?, Array.getD_eq_getD_getElem?, Array.getElem?_append_left inside]

theorem learn_extend (inside : wire.index < known.values.size) :
    (known.extend more).learn wire x = (known.learn wire x).extend more := by
  simp [extend, learn, Array.setIfInBounds_append_left inside]

theorem likeness_extend (wires : Nat) (more : Array (Option F.Elem)) :
    Likeness (fun wire => wire.index < wires)
      (fun known known' : Knowledge F => known.values.size = wires ∧ known' = known.extend more) where
  get?_eq := by
    rintro known _ ⟨rfl, rfl⟩ wire inside
    exact get?_extend inside
  learn := by
    rintro known _ ⟨rfl, rfl⟩ wire inside x
    exact ⟨size_learn, learn_extend inside⟩

theorem learnAll_extend (inside : ∀ wire ∈ wires, wire.index < known.values.size) (values : List F.Elem) :
    (known.extend more).learnAll wires values = (known.learnAll wires values).extend more :=
  ((likeness_extend known.values.size more).learnAll ⟨rfl, rfl⟩ inside values).2

end Knowledge

/-- All wires of a task have entries. -/
def Task.Inside (known : Knowledge F) (task : Task F) : Prop := ∀ wire ∈ task.wires, wire.index < known.values.size

namespace SolvingContext

def Propagation.extend (run : Propagation F) (more : Array (Option F.Elem)) : Propagation F :=
  { run with known := run.known.extend more }

variable {context : SolvingContext F} {known : Knowledge F} {more : Array (Option F.Elem)} {tasks : List (Task F)}

theorem Propagation.Like.eq_extend {wires : Nat} {run run' : Propagation F}
    (like : run.Like (fun known known' => known.values.size = wires ∧ known' = known.extend more) run') :
    run' = run.extend more := by
  obtain ⟨known, passes, error?⟩ := run'
  obtain ⟨⟨-, rfl⟩, rfl, rfl⟩ := like
  rfl

/-! ## Runs -/

/-- A run takes one pass more than there are tasks, at most. -/
theorem passes_propagate_le {fuel passes : Nat} :
    (context.propagate fuel passes tasks known).passes ≤ passes + tasks.length + 1 := by
  induction fuel generalizing passes tasks known with
  | zero => exact Nat.le_trans (Nat.le_add_right passes tasks.length) (Nat.le_succ _)
  | succ fuel ih =>
      cases context.round tasks known with
      | complete complete =>
          rw [propagate_complete _ _ complete]
          exact Nat.le_trans (Nat.le_add_right passes tasks.length) (Nat.le_succ _)
      | failed unknown failed =>
          rw [propagate_failed unknown failed]
          exact Nat.succ_le_succ (Nat.le_add_right passes tasks.length)
      | stuck unknown noError noProgress =>
          rw [propagate_stuck unknown noError noProgress]
          exact Nat.succ_le_succ (Nat.le_add_right passes tasks.length)
      | next unknown noError progress =>
          have completed := (context.length_pending_pass tasks known).2 progress
          have rest : (context.propagate fuel (passes + 1) (context.pass tasks known).pending
              (context.pass tasks known).known).passes
            ≤ passes + 1 + (context.pass tasks known).pending.length + 1 := ih
          rw [propagate_next unknown noError progress]
          omega

/-- To be allowed more passes makes no difference. -/
theorem propagate_of_enough {fuel passes : Nat} (enough : tasks.length < fuel) (further : Nat) :
    context.propagate (fuel + further) passes tasks known = context.propagate fuel passes tasks known := by
  induction fuel generalizing passes tasks known with
  | zero => cases enough
  | succ fuel ih =>
      rw [Nat.succ_add]
      cases context.round tasks known with
      | complete complete => rw [propagate_complete _ _ complete, propagate_complete _ _ complete]
      | failed unknown failed => rw [propagate_failed unknown failed, propagate_failed unknown failed]
      | stuck unknown noError noProgress =>
          rw [propagate_stuck unknown noError noProgress, propagate_stuck unknown noError noProgress]
      | next unknown noError progress =>
          have completed := (context.length_pending_pass tasks known).2 progress
          rw [propagate_next unknown noError progress, propagate_next unknown noError progress]
          exact ih (Nat.lt_of_lt_of_le completed (Nat.le_of_lt_succ enough))

end SolvingContext

/-! ## Errors -/

/-- The errors that stand for undefined behaviour: a wire out of range, or undefined arithmetic in a hint. -/
def SolveError.Undefined : SolveError F → Prop
  | .wireOutOfRange => True
  | .hint error => error.Undefined
  | _ => False

theorem Refused.defined {surplus : SurplusInputs} {role : Role} {declared : List Input} {supplied : List F.Elem}
    {error : SolveError F} (refused : Refused surplus role declared supplied error) : ¬ error.Undefined := by
  cases refused <;> exact id

namespace SolvingContext

variable {context : SolvingContext F} {known : Knowledge F} {task : Task F}

theorem attempt_defined (total : context.registry.Total F.modulus) {error : SolveError F}
    (failed : context.attempt known task = .error error) : ¬ error.Undefined := by
  cases fails_of_attempt failed with
  | hint _ invoked => exact total.invoke_defined (Nat.ne_of_gt (Nat.lt_of_succ_lt F.two_le)) invoked
  | constraint _ => exact id

end SolvingContext

/-! ## Solving -/

namespace Solver

variable {solver : Solver F} {publicValues secretValues : List F.Elem}

/-- Solving for the inputs has no undefined behaviour and comes to an end. -/
structure Safe (solver : Solver F) (publicValues secretValues : List F.Elem) : Prop where
  defined : ∀ error, (solver.solve publicValues secretValues).1 = .error error → ¬ error.Undefined
  /-- At every moment each wire has an entry, and the tasks that are left have no other wires. -/
  inside : ∀ moment, solver.Visits publicValues secretValues moment →
    moment.known.values.size = solver.system.wireCount ∧
      ∀ task ∈ moment.waiting ++ moment.ahead, task.Inside moment.known
  /-- Entries behind the wires are neither looked at nor changed. -/
  confined : ∀ more,
    solver.run ((((Knowledge.blank solver.system.wireCount).extend more).learnAll
        (solver.system.publicInputs.map (·.wire)) publicValues).learnAll
        (solver.system.secretInputs.map (·.wire)) secretValues)
      = (solver.run (solver.system.seed publicValues secretValues)).extend more
  /-- The run is over after the passes that it is allowed. -/
  ends : ∀ further, solver.context.propagate (solver.system.tasks.length + 1 + further) 0 solver.system.tasks
      (solver.system.seed publicValues secretValues)
    = solver.run (solver.system.seed publicValues secretValues)
  passes : solver.passes ≤ solver.system.hints.length + solver.system.constraintCount + 1 →
    (solver.solve publicValues secretValues).2.passes
      ≤ solver.system.hints.length + solver.system.constraintCount + 1
  known : (solver.solve publicValues secretValues).2.known.values.size = solver.system.wireCount
  witness : ∀ witness, (solver.solve publicValues secretValues).1 = .ok witness →
    witness.values.size = solver.system.wireCount ∧
      ∀ wire ∈ witness.publicWires ++ witness.secretWires, wire.index < witness.values.size

theorem hintError?_defined {system : System F} {registry : HintRegistry} {error : HintError}
    (found : system.hintError? registry = some error) : ¬ error.Undefined := by
  obtain ⟨b, -, hb⟩ := List.exists_of_findSome?_eq_some found
  cases checked : registry.check b with
  | error error' =>
      simp only [checked, Option.some.injEq] at hb
      exact hb ▸ HintRegistry.check_defined checked
  | ok _ => simp [checked] at hb

/-- A solve fails before its first pass, or it is a run from the seeded inputs. -/
theorem solve_cases (inRange : solver.system.InRange) (publicValues secretValues : List F.Elem) :
    (∃ error known, solver.solve publicValues secretValues = (.error error, { solver with known := known }) ∧
      ¬ error.Undefined ∧ known.values.size = solver.system.wireCount) ∨
    solver.solve publicValues secretValues = solver.complete (solver.system.seed publicValues secretValues) := by
  cases solver.stage publicValues secretValues with
  | unfit found => exact .inl ⟨_, _, solve_unfit _ found, hintError?_defined found, Knowledge.size_blank _⟩
  | publicRefused checked refused =>
      exact .inl ⟨_, _, solve_publicRefused _ checked refused, refused.defined, Knowledge.size_blank _⟩
  | secretRefused checked accepted refused =>
      exact .inl ⟨_, _, solve_secretRefused _ checked accepted refused, refused.defined, by simp⟩
  | outOfRange _ _ _ out => exact absurd inRange.mentioned out
  | runs starts => exact .inr starts.solve_eq

theorem outcome_defined (total : solver.registry.Total F.modulus) {seeded : Knowledge F} {error : SolveError F}
    (failed : solver.outcome (solver.run seeded).known (solver.run seeded).error? = .error error) :
    ¬ error.Undefined := by
  cases raises_of_outcome failed with
  | underdetermined _ => exact id
  | violated _ _ => exact id
  | failed _ fails => exact SolvingContext.attempt_defined total fails

theorem size_run (solver : Solver F) (seeded : Knowledge F) :
    (solver.run seeded).known.values.size = seeded.values.size := by
  obtain ⟨moment, reaches, same, -⟩ := solver.run_reaches seeded
  rw [← same]
  exact reaches.remembers.size

theorem size_seed (system : System F) (publicValues secretValues : List F.Elem) :
    (system.seed publicValues secretValues).values.size = system.wireCount := by
  simp [System.seed]

/-- A run does not depend on entries behind the wires, and leaves them as they are. -/
theorem run_extend (inRange : solver.system.InRange) {seeded : Knowledge F}
    (size : seeded.values.size = solver.system.wireCount) (more : Array (Option F.Elem)) :
    solver.run (seeded.extend more) = (solver.run seeded).extend more := by
  refine SolvingContext.Propagation.Like.eq_extend ((Knowledge.likeness_extend solver.system.wireCount more).propagate
    ⟨size, rfl⟩ (fun i marked => (getD_markWires.mp marked).1) fun task htask wire hwire => ?_)
  exact inRange.mentioned wire (System.mem_mentioned_of_task htask hwire)

theorem passes_run_le (solver : Solver F) (seeded : Knowledge F) :
    (solver.run seeded).passes ≤ solver.system.hints.length + solver.system.constraintCount + 1 := by
  have passes : (solver.run seeded).passes ≤ 0 + solver.system.tasks.length + 1 := SolvingContext.passes_propagate_le
  have tasks : solver.system.tasks.length ≤ solver.system.hints.length + solver.system.constraints.toList.length :=
    length_schedule_le _ 0 _
  rw [Constraints.length_toList] at tasks
  rw [System.constraintCount]
  omega

/-- With total handlers, a system whose wires are all in range is safe to solve for any inputs. -/
theorem safe_of_inRange (inRange : solver.system.InRange) (total : solver.registry.Total F.modulus)
    (publicValues secretValues : List F.Elem) : solver.Safe publicValues secretValues where
  defined := by
    intro error failed
    rcases solve_cases inRange publicValues secretValues with
      ⟨error', known, early, defined, -⟩ | run
    · rw [early] at failed
      exact Except.error.inj failed ▸ defined
    · rw [run, complete_eq] at failed
      exact outcome_defined total failed
  inside := by
    intro moment visits
    have accounts := accounts_of_visits inRange visits
    refine ⟨accounts.size, fun task htask wire hwire => ?_⟩
    rw [accounts.size]
    have mem : task ∈ solver.system.tasks := accounts.tasks.subset (List.mem_append_right _ htask)
    exact inRange.mentioned wire (System.mem_mentioned_of_task mem hwire)
  confined := by
    intro more
    obtain ⟨publicInside, secretInside⟩ := List.forall_mem_append.mp inRange.inputs
    rw [Knowledge.learnAll_extend (by simpa using publicInside), Knowledge.learnAll_extend (by simpa using secretInside)]
    exact run_extend inRange (size_seed _ _ _) more
  ends := SolvingContext.propagate_of_enough (Nat.lt_succ_self _)
  passes := by
    intro before
    rcases solve_cases inRange publicValues secretValues with
      ⟨error', known, early, -⟩ | run
    · rw [early]
      exact before
    · rw [run, complete_eq]
      exact solver.passes_run_le _
  known := by
    rcases solve_cases inRange publicValues secretValues with
      ⟨error', known, early, -, size⟩ | run
    · rw [early]
      exact size
    · rw [run, complete_eq]
      exact (solver.size_run _).trans (size_seed _ _ _)
  witness := by
    intro witness solved
    obtain ⟨-, -, -, -, run⟩ := of_solve_ok solved
    rw [run, complete_eq] at solved
    obtain ⟨-, -, rfl⟩ := of_outcome_ok solved
    have size : (solver.witnessOf (solver.run (solver.system.seed publicValues secretValues)).known).values.size
        = solver.system.wireCount := by
      rw [witnessOf, Array.size_map, size_run, size_seed]
    refine ⟨size, fun wire hwire => ?_⟩
    rw [size]
    simp only [witnessOf, ← List.map_append] at hwire
    obtain ⟨input, hinput, rfl⟩ := List.mem_map.mp hwire
    exact inRange.inputs input hinput

end Solver

end ArithCircuit
