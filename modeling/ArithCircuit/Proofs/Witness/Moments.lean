import ArithCircuit.Witness.Propagation
import Mathlib.Logic.Relation

/-!
# The moments of a run

Propagation goes from moment to moment by trying one task after the other. What holds at the start
and is kept by every step holds at every moment, and every run ends in a moment that says why. A hint is
called when its task is tried and all its inputs are known, so the moments also say which calls are made.
-/

namespace ArithCircuit

variable {F : PrimeField}

/-- Where a run stands between two attempts. -/
structure Moment (F : PrimeField) where
  known : Knowledge F
  /-- The tasks that are done. -/
  done : List (Task F)
  /-- The tasks that this pass has left waiting. -/
  waiting : List (Task F)
  /-- The tasks that this pass has still to try. -/
  ahead : List (Task F)

/-- A run of a hint on values for its inputs. -/
structure Call (F : PrimeField) where
  binding : HintBinding
  inputs : List F.Elem
deriving DecidableEq

/-- The call that trying a task makes. -/
def Task.call? (known : Knowledge F) : Task F → Option (Call F)
  | .hint b => (known.getAll? b.inputs).map fun inputs => ⟨b, inputs⟩
  | .constraint _ _ => none

/-- The call that the next attempt makes. -/
def Moment.call? (moment : Moment F) : Option (Call F) := moment.ahead.head?.bind (·.call? moment.known)

namespace SolvingContext

/-- Trying the next task, or turning to those left waiting. -/
inductive Step (context : SolvingContext F) : Moment F → Moment F → Prop
  | wait {known task done waiting ahead} : context.attempt known task = .ok .waiting →
      Step context ⟨known, done, waiting, task :: ahead⟩ ⟨known, done, waiting ++ [task], ahead⟩
  | settle {known task done waiting ahead} : context.attempt known task = .ok .settled →
      Step context ⟨known, done, waiting, task :: ahead⟩ ⟨known, done ++ [task], waiting, ahead⟩
  | learn {known task known' done waiting ahead} :
      context.attempt known task = .ok (.learned known') →
      Step context ⟨known, done, waiting, task :: ahead⟩ ⟨known', done ++ [task], waiting, ahead⟩
  | nextPass {known done waiting} :
      Step context ⟨known, done, waiting, []⟩ ⟨known, done, [], waiting⟩

abbrev Reaches (context : SolvingContext F) : Moment F → Moment F → Prop :=
  Relation.ReflTransGen context.Step

/-- From moment to moment, with the calls on the way. -/
inductive Traces (context : SolvingContext F) : Moment F → List (Call F) → Moment F → Prop
  | refl {moment} : Traces context moment [] moment
  | step {moment next calls last} : context.Step moment next → Traces context next calls last →
      Traces context moment (moment.call?.toList ++ calls) last

variable {context : SolvingContext F} {known known' : Knowledge F} {task : Task F}
  {ahead : List (Task F)} {moment moment' moment'' : Moment F} {calls calls' : List (Call F)}

theorem Traces.trans (first : context.Traces moment calls moment') (second : context.Traces moment' calls' moment'') :
    context.Traces moment (calls ++ calls') moment'' := by
  induction first with
  | refl => exact second
  | step step _ ih =>
      rw [List.append_assoc]
      exact .step step (ih second)

theorem Traces.reaches (traces : context.Traces moment calls moment') : context.Reaches moment moment' := by
  induction traces with
  | refl => exact .refl
  | step step _ ih => exact .head step ih

/-! ## Passes -/

theorem pass_cons_error {error : SolveError F} (h : context.attempt known task = .error error) :
    context.pass (task :: ahead) known = ⟨known, task :: ahead, false, some error⟩ := by
  simp [pass, h]

theorem pass_cons_waiting (h : context.attempt known task = .ok .waiting) :
    context.pass (task :: ahead) known
      = { context.pass ahead known with pending := task :: (context.pass ahead known).pending } := by
  simp [pass, h]

theorem pass_cons_settled (h : context.attempt known task = .ok .settled) :
    context.pass (task :: ahead) known = context.pass ahead known := by
  simp [pass, h]

theorem pass_cons_learned (h : context.attempt known task = .ok (.learned known')) :
    context.pass (task :: ahead) known = { context.pass ahead known' with progress := true } := by
  simp [pass, h]

theorem length_pending_pass (context : SolvingContext F) (tasks : List (Task F)) (known : Knowledge F) :
    (context.pass tasks known).pending.length ≤ tasks.length ∧
      ((context.pass tasks known).progress →
        (context.pass tasks known).pending.length < tasks.length) := by
  induction tasks generalizing known with
  | nil => simp [pass]
  | cons task rest ih =>
      cases h : context.attempt known task with
      | error error => simp [pass_cons_error h]
      | ok attempt =>
          cases attempt with
          | waiting => simpa [pass_cons_waiting h] using ih known
          | settled =>
              rw [pass_cons_settled h, List.length_cons]
              exact ⟨by have := (ih known).1; omega, fun hp => by have := (ih known).2 hp; omega⟩
          | learned known' =>
              rw [pass_cons_learned h, List.length_cons]
              exact ⟨by have := (ih known').1; simp only; omega,
                fun _ => by have := (ih known').1; simp only; omega⟩

theorem pending_subset (context : SolvingContext F) (tasks : List (Task F)) (known : Knowledge F) :
    (context.pass tasks known).pending ⊆ tasks := by
  induction tasks generalizing known with
  | nil => exact List.Subset.refl _
  | cons task rest ih =>
      cases h : context.attempt known task with
      | error error => simp [pass_cons_error h]
      | ok attempt =>
          cases attempt with
          | waiting =>
              rw [pass_cons_waiting h]
              exact List.cons_subset_cons task (ih known)
          | settled =>
              rw [pass_cons_settled h]
              exact List.subset_cons_of_subset task (ih known)
          | learned known' =>
              rw [pass_cons_learned h]
              exact List.subset_cons_of_subset task (ih known')

/-- A pass fails at one of its tasks. -/
theorem exists_of_pass_error {tasks : List (Task F)} {error : SolveError F}
    (failed : (context.pass tasks known).error? = some error) :
    ∃ task ∈ tasks, ∃ now, context.attempt now task = .error error := by
  induction tasks generalizing known with
  | nil => cases failed
  | cons task rest ih =>
      have later {now : Knowledge F} (failed : (context.pass rest now).error? = some error) :
          ∃ other ∈ task :: rest, ∃ now, context.attempt now other = .error error := by
        obtain ⟨other, hother, fails⟩ := ih failed
        exact ⟨other, List.mem_cons_of_mem task hother, fails⟩
      cases h : context.attempt known task with
      | error error' =>
          rw [pass_cons_error h] at failed
          exact ⟨task, List.mem_cons_self, known, h.trans (congrArg _ (Option.some.inj failed))⟩
      | ok attempt =>
          cases attempt with
          | waiting => exact later (by simpa [pass_cons_waiting h] using failed)
          | settled => exact later (by simpa [pass_cons_settled h] using failed)
          | learned known' => exact later (by simpa [pass_cons_learned h] using failed)

/-- A pass without progress leaves every value as it was, and tasks that all have to wait. -/
theorem pass_without_progress {tasks : List (Task F)} {known : Knowledge F}
    (noError : (context.pass tasks known).error? = none)
    (noProgress : (context.pass tasks known).progress = false) :
    (context.pass tasks known).known = known ∧
      ∀ task ∈ (context.pass tasks known).pending, context.attempt known task = .ok .waiting := by
  induction tasks with
  | nil => simp [pass]
  | cons task rest ih =>
      cases h : context.attempt known task with
      | error error => simp [pass_cons_error h] at noError
      | ok attempt =>
          cases attempt with
          | waiting =>
              rw [pass_cons_waiting h] at noError noProgress ⊢
              obtain ⟨same, waits⟩ := ih noError noProgress
              refine ⟨same, fun t ht => ?_⟩
              rcases List.mem_cons.mp ht with rfl | ht
              · exact h
              · exact waits t ht
          | settled =>
              rw [pass_cons_settled h] at noError noProgress ⊢
              exact ih noError noProgress
          | learned known' => simp [pass_cons_learned h] at noProgress

/-- The calls of a pass, in order. -/
def passCalls (context : SolvingContext F) : List (Task F) → Knowledge F → List (Call F)
  | [], _ => []
  | task :: rest, known =>
    (task.call? known).toList ++
      match context.attempt known task with
      | .error _ => []
      | .ok (.learned known) => context.passCalls rest known
      | .ok _ => context.passCalls rest known

/-- A pass goes through moments up to its end, or up to the task that fails. Its calls are those on the way, and
that of the task that fails. -/
theorem pass_traces (context : SolvingContext F) (tasks : List (Task F)) (known : Knowledge F)
    (done waiting : List (Task F)) :
    ∃ moment calls, context.Traces ⟨known, done, waiting, tasks⟩ calls moment ∧
      moment.known = (context.pass tasks known).known ∧
      context.passCalls tasks known = calls ++ moment.call?.toList ∧
      match (context.pass tasks known).error? with
      | none => moment.ahead = [] ∧ moment.waiting = waiting ++ (context.pass tasks known).pending
      | some error => ∃ task ∈ moment.ahead, context.attempt moment.known task = .error error := by
  induction tasks generalizing known done waiting with
  | nil => exact ⟨_, _, .refl, rfl, rfl, rfl, by simp [pass]⟩
  | cons task rest ih =>
      cases h : context.attempt known task with
      | error error =>
          rw [pass_cons_error h]
          exact ⟨_, _, .refl, rfl, by simp [passCalls, h, Moment.call?], task, by simp, h⟩
      | ok attempt =>
          cases attempt with
          | waiting =>
              obtain ⟨moment, calls, traces, hknown, hcalls, hend⟩ := ih known done (waiting ++ [task])
              rw [pass_cons_waiting h]
              refine ⟨moment, _, .step (.wait h) traces, hknown, by simp [passCalls, h, hcalls, Moment.call?], ?_⟩
              revert hend
              cases (context.pass rest known).error? <;> simp
          | settled =>
              obtain ⟨moment, calls, traces, hknown, hcalls, hend⟩ := ih known (done ++ [task]) waiting
              rw [pass_cons_settled h]
              exact ⟨moment, _, .step (.settle h) traces, hknown, by simp [passCalls, h, hcalls, Moment.call?], hend⟩
          | learned known' =>
              obtain ⟨moment, calls, traces, hknown, hcalls, hend⟩ := ih known' (done ++ [task]) waiting
              rw [pass_cons_learned h]
              exact ⟨moment, _, .step (.learn h) traces, hknown, by simp [passCalls, h, hcalls, Moment.call?], hend⟩

/-! ## Runs -/

variable {tasks : List (Task F)} {fuel passes wire : Nat} {error : SolveError F}

/-- How a run goes on, or why it ends. -/
inductive Round (context : SolvingContext F) (tasks : List (Task F)) (known : Knowledge F) : Prop
  | complete : context.leastUnknown? known = none → Round context tasks known
  | failed {wire : Nat} {error : SolveError F} : context.leastUnknown? known = some wire →
      (context.pass tasks known).error? = some error → Round context tasks known
  | stuck {wire : Nat} : context.leastUnknown? known = some wire → (context.pass tasks known).error? = none →
      (context.pass tasks known).progress = false → Round context tasks known
  | next {wire : Nat} : context.leastUnknown? known = some wire → (context.pass tasks known).error? = none →
      (context.pass tasks known).progress = true → Round context tasks known

theorem round (context : SolvingContext F) (tasks : List (Task F)) (known : Knowledge F) :
    context.Round tasks known := by
  cases unknown : context.leastUnknown? known with
  | none => exact .complete unknown
  | some wire =>
      cases failed : (context.pass tasks known).error? with
      | some error => exact .failed unknown failed
      | none =>
          cases progress : (context.pass tasks known).progress with
          | false => exact .stuck unknown failed progress
          | true => exact .next unknown failed progress

theorem propagate_complete (fuel passes : Nat) (complete : context.leastUnknown? known = none) :
    context.propagate fuel passes tasks known = ⟨known, passes, none⟩ := by
  cases fuel with
  | zero => rfl
  | succ fuel => rw [propagate, complete]

theorem propagate_failed (unknown : context.leastUnknown? known = some wire)
    (failed : (context.pass tasks known).error? = some error) :
    context.propagate (fuel + 1) passes tasks known
      = ⟨(context.pass tasks known).known, passes + 1, some error⟩ := by
  simp [propagate, unknown, failed]

theorem propagate_stuck (unknown : context.leastUnknown? known = some wire)
    (noError : (context.pass tasks known).error? = none) (noProgress : (context.pass tasks known).progress = false) :
    context.propagate (fuel + 1) passes tasks known
      = ⟨(context.pass tasks known).known, passes + 1, some (.underdetermined wire)⟩ := by
  simp [propagate, unknown, noError, noProgress]

theorem propagate_next (unknown : context.leastUnknown? known = some wire)
    (noError : (context.pass tasks known).error? = none) (progress : (context.pass tasks known).progress = true) :
    context.propagate (fuel + 1) passes tasks known
      = context.propagate fuel (passes + 1) (context.pass tasks known).pending (context.pass tasks known).known := by
  simp [propagate, unknown, noError, progress]

/-- A run fails at one of its tasks, or for want of a value. -/
theorem exists_of_propagate_error (failed : (context.propagate fuel passes tasks known).error? = some error) :
    (∃ wire, error = .underdetermined wire) ∨ ∃ task ∈ tasks, ∃ now, context.attempt now task = .error error := by
  induction fuel generalizing passes tasks known with
  | zero => cases failed
  | succ fuel ih =>
      cases context.round tasks known with
      | complete complete =>
          rw [propagate_complete _ _ complete] at failed
          cases failed
      | failed unknown failed' =>
          rw [propagate_failed unknown failed'] at failed
          exact .inr (Option.some.inj failed ▸ exists_of_pass_error failed')
      | stuck unknown noError noProgress =>
          rw [propagate_stuck unknown noError noProgress] at failed
          exact .inl ⟨_, (Option.some.inj failed).symm⟩
      | next unknown noError progress =>
          rw [propagate_next unknown noError progress] at failed
          refine (ih failed).imp_right fun ⟨task, htask, fails⟩ => ?_
          exact ⟨task, context.pending_subset tasks known htask, fails⟩

/-- Why a run ends at a moment: no needed value is missing, a task fails, or none can go on. -/
def EndsAt (context : SolvingContext F) (moment : Moment F) : Option (SolveError F) → Prop
  | none => context.leastUnknown? moment.known = none
  | some error =>
    (∃ task ∈ moment.ahead, context.attempt moment.known task = .error error) ∨
    ∃ wire, error = .underdetermined wire ∧ context.leastUnknown? moment.known = some wire ∧
      moment.ahead = [] ∧ ∀ task ∈ moment.waiting, context.attempt moment.known task = .ok .waiting

/-- The calls of all passes of a propagation, in order. -/
def propagateCalls (context : SolvingContext F) : (fuel : Nat) → List (Task F) → Knowledge F → List (Call F)
  | 0, _, _ => []
  | fuel + 1, pending, known =>
    match context.leastUnknown? known with
    | none => []
    | some _ =>
      let after := context.pass pending known
      context.passCalls pending known ++
        if after.error? = none ∧ after.progress then context.propagateCalls fuel after.pending after.known else []

theorem propagateCalls_complete (complete : context.leastUnknown? known = none) :
    context.propagateCalls fuel tasks known = [] := by
  cases fuel with
  | zero => rfl
  | succ fuel => rw [propagateCalls, complete]

theorem propagateCalls_next (unknown : context.leastUnknown? known = some wire)
    (noError : (context.pass tasks known).error? = none) (progress : (context.pass tasks known).progress = true) :
    context.propagateCalls (fuel + 1) tasks known = context.passCalls tasks known
      ++ context.propagateCalls fuel (context.pass tasks known).pending (context.pass tasks known).known := by
  simp [propagateCalls, unknown, noError, progress]

/-- With more passes allowed than there are tasks, a run goes on until it has a reason to end. Its calls are those
on the way, and that of the task that fails. -/
theorem propagate_traces (context : SolvingContext F) {fuel : Nat} {pending : List (Task F)} (passes : Nat)
    (known : Knowledge F) (done : List (Task F)) (enough : pending.length < fuel) :
    ∃ moment calls, context.Traces ⟨known, done, [], pending⟩ calls moment ∧
      moment.known = (context.propagate fuel passes pending known).known ∧
      context.EndsAt moment (context.propagate fuel passes pending known).error? ∧
      context.propagateCalls fuel pending known
        = calls ++ ((context.propagate fuel passes pending known).error?.bind fun _ => moment.call?).toList := by
  induction fuel generalizing passes pending known done with
  | zero => omega
  | succ fuel ih =>
      obtain ⟨moment, calls, traces, hknown, hcalls, hend⟩ := context.pass_traces pending known done []
      cases context.round pending known with
      | complete complete =>
          rw [propagate_complete _ _ complete, propagateCalls_complete complete]
          exact ⟨_, _, .refl, rfl, complete, rfl⟩
      | failed unknown failed =>
          rw [failed] at hend
          rw [propagate_failed unknown failed]
          exact ⟨moment, calls, traces, hknown, .inl hend, by simp [propagateCalls, unknown, failed, hcalls]⟩
      | @stuck wire unknown noError noProgress =>
          obtain ⟨same, waits⟩ := pass_without_progress noError noProgress
          rw [noError] at hend
          rw [propagate_stuck unknown noError noProgress]
          refine ⟨moment, calls, traces, hknown, .inr ⟨wire, rfl, ?_, hend.1, ?_⟩,
            by simp [propagateCalls, unknown, noError, noProgress, hcalls]⟩
          · rw [hknown, same, unknown]
          · rw [hknown, same, hend.2]
            exact waits
      | next unknown noError progress =>
          have shorter : (context.pass pending known).pending.length < fuel :=
            Nat.lt_of_lt_of_le ((context.length_pending_pass pending known).2 progress) (Nat.le_of_lt_succ enough)
          obtain ⟨moment', calls', traces', hknown', hend', hcalls'⟩ :=
            ih (passes + 1) (context.pass pending known).known moment.done shorter
          rw [noError] at hend
          rw [propagate_next unknown noError progress, propagateCalls_next unknown noError progress]
          obtain ⟨known₁, done₁, waiting₁, ahead₁⟩ := moment
          obtain ⟨rfl, hwaiting⟩ := hend
          simp only [List.nil_append] at hknown hwaiting
          subst hknown hwaiting
          refine ⟨moment', _, traces.trans (.step .nextPass traces'), hknown', hend', ?_⟩
          rw [hcalls, hcalls']
          simp [Moment.call?]

end SolvingContext

end ArithCircuit
