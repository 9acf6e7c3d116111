import ArithCircuit.Proofs.Witness.Bounds
import ArithCircuit.Proofs.Witness.SinglePass

/-!
# The calls of a run

A run calls a hint when it tries the hint's task and all inputs are known. One pass over a straight line
calls every hint once, in order, but a run that needs no value makes no pass and calls none.
-/

namespace ArithCircuit

variable {F : PrimeField}

namespace SolvingContext

/-- What the hint of a call gives. -/
def answer (context : SolvingContext F) (call : Call F) : Except HintError (List Nat) :=
  context.registry.invoke call.binding.name F.modulus (call.inputs.map (·.val)) call.binding.outputs.length

variable {context context' : SolvingContext F} {known known' : Knowledge F} {task : Task F} {tasks : List (Task F)}
  {fuel passes wire : Nat}

theorem mem_propagateCalls (unknown : context.leastUnknown? known = some wire) {call : Call F}
    (h : call ∈ context.passCalls tasks known) : call ∈ context.propagateCalls (fuel + 1) tasks known := by
  rw [propagateCalls, unknown]
  exact List.mem_append_left _ h

/-! ## Calls are of hints among the tasks -/

theorem hint_mem_of_passCalls {call : Call F} (h : call ∈ context.passCalls tasks known) :
    Task.hint call.binding ∈ tasks := by
  induction tasks generalizing known with
  | nil => cases h
  | cons task rest ih =>
      rw [passCalls] at h
      rcases List.mem_append.mp h with here | later
      · cases task with
        | constraint i c => simp [Task.call?] at here
        | hint b =>
            obtain ⟨inputs, -, rfl⟩ := Option.map_eq_some_iff.mp (Option.mem_toList.mp here)
            exact List.mem_cons_self
      · refine List.mem_cons_of_mem _ ?_
        split at later
        · cases later
        · exact ih later
        · exact ih later

theorem hint_mem_of_propagateCalls {call : Call F} (h : call ∈ context.propagateCalls fuel tasks known) :
    Task.hint call.binding ∈ tasks := by
  induction fuel generalizing tasks known with
  | zero => cases h
  | succ fuel ih =>
      rw [propagateCalls] at h
      split at h
      · cases h
      · rcases List.mem_append.mp h with here | later
        · exact hint_mem_of_passCalls here
        · split at later
          · exact context.pending_subset tasks known (ih later)
          · cases later

/-! ## Calls are all that a run asks of the registry -/

theorem fire_eq_answer (b : HintBinding) : context.fire b known =
    match (Task.hint b).call? known with
    | none => .ok .waiting
    | some call =>
      match context.answer call with
      | .error error => .error (.hint error)
      | .ok outputs => .ok (.learned (known.learnAll b.outputs (outputs.map F.ofNat))) := by
  simp only [fire_eq, Task.call?]
  cases known.getAll? b.inputs <;> rfl

/-- Two registries that answer the call of a task alike make no difference to it. -/
theorem attempt_congr (owned : context'.hintOwned = context.hintOwned)
    (same : ∀ call ∈ task.call? known, context'.answer call = context.answer call) :
    context'.attempt known task = context.attempt known task := by
  cases task with
  | hint b =>
      rw [attempt, attempt, fire_eq_answer, fire_eq_answer]
      cases hcall : (Task.hint b).call? known with
      | none => rfl
      | some call => simp only [same call hcall]
  | constraint i c => simp only [attempt, resolve, owned]

theorem pass_congr (owned : context'.hintOwned = context.hintOwned)
    (same : ∀ call ∈ context.passCalls tasks known, context'.answer call = context.answer call) :
    context'.pass tasks known = context.pass tasks known := by
  induction tasks generalizing known with
  | nil => rfl
  | cons task rest ih =>
      rw [passCalls] at same
      have first : context'.attempt known task = context.attempt known task :=
        attempt_congr owned fun call hcall => same call (List.mem_append_left _ (Option.mem_toList.mpr hcall))
      rw [pass, pass, first]
      cases h : context.attempt known task with
      | error error => rfl
      | ok attempt =>
          rw [h] at same
          cases attempt <;> simp only [ih fun call hcall => same call (List.mem_append_right _ hcall)]

/-- A run depends on its registry by the answers to its calls alone. -/
theorem propagate_congr (owned : context'.hintOwned = context.hintOwned)
    (mentioned : context'.mentioned = context.mentioned)
    (same : ∀ call ∈ context.propagateCalls fuel tasks known, context'.answer call = context.answer call) :
    context'.propagate fuel passes tasks known = context.propagate fuel passes tasks known := by
  induction fuel generalizing passes tasks known with
  | zero => rfl
  | succ fuel ih =>
      have least : context'.leastUnknown? known = context.leastUnknown? known := by
        rw [leastUnknown?, mentioned, leastUnknown?]
      have pass {wire : Nat} (unknown : context.leastUnknown? known = some wire) :
          context'.pass tasks known = context.pass tasks known :=
        pass_congr owned fun call hcall => same call (mem_propagateCalls unknown hcall)
      cases context.round tasks known with
      | complete complete => rw [propagate_complete _ _ complete, propagate_complete _ _ (least.trans complete)]
      | failed unknown failed =>
          rw [propagate_failed unknown failed, ← pass unknown]
          exact propagate_failed (least.trans unknown) (pass unknown ▸ failed)
      | stuck unknown noError noProgress =>
          rw [propagate_stuck unknown noError noProgress, ← pass unknown]
          exact propagate_stuck (least.trans unknown) (pass unknown ▸ noError) (pass unknown ▸ noProgress)
      | next unknown noError progress =>
          rw [propagate_next unknown noError progress, propagate_next (least.trans unknown) (pass unknown ▸ noError)
            (pass unknown ▸ progress), pass unknown]
          rw [propagateCalls_next unknown noError progress] at same
          exact ih fun call hcall => same call (List.mem_append_right _ hcall)

/-! ## Calls on the way are answered -/

theorem call?_of_waiting (waits : context.attempt known task = .ok .waiting) : task.call? known = none := by
  cases task with
  | constraint index c => rfl
  | hint b =>
      rw [attempt, fire_eq_answer] at waits
      cases hcall : (Task.hint b).call? known with
      | none => rfl
      | some call =>
          simp only [hcall] at waits
          split at waits <;> cases waits

/-- A hint whose task is not left waiting has been called. -/
theorem binding_of_ready (ready : context.attempt known task ≠ .ok .waiting) :
    (task.call? known).map (·.binding) = task.hint? := by
  cases task with
  | constraint index c => rfl
  | hint b =>
      rw [attempt, fire_eq] at ready
      cases hall : known.getAll? b.inputs with
      | none => exact absurd (by simp [hall]) ready
      | some inputs => simp [Task.call?, Task.hint?, hall]

theorem answer_of_attempt {attempt : Attempt F} (h : context.attempt known task = .ok attempt) {call : Call F}
    (made : task.call? known = some call) : ∃ outputs, context.answer call = .ok outputs := by
  cases task with
  | constraint index c => cases made
  | hint b =>
      rw [SolvingContext.attempt, fire_eq_answer, made] at h
      cases hanswer : context.answer call with
      | ok outputs => exact ⟨outputs, rfl⟩
      | error error => simp [hanswer] at h

variable {moment next : Moment F} {calls : List (Call F)}

/-- A step makes no call that fails. -/
theorem Step.answered (step : context.Step moment next) {call : Call F} (made : call ∈ moment.call?) :
    ∃ outputs, context.answer call = .ok outputs := by
  cases step with
  | wait h => exact answer_of_attempt h made
  | settle h => exact answer_of_attempt h made
  | learn h => exact answer_of_attempt h made
  | nextPass => cases made

/-- A step calls the hint whose task it gets done. -/
theorem Step.called (step : context.Step moment next) : next.done.filterMap Task.hint?
    = moment.done.filterMap Task.hint? ++ moment.call?.toList.map (·.binding) := by
  have own {known : Knowledge F} {task : Task F} (ready : context.attempt known task ≠ .ok .waiting) :
      [task].filterMap Task.hint? = (task.call? known).toList.map (·.binding) := by
    rw [← Option.toList_map, binding_of_ready ready]
    cases h : task.hint? <;> simp [h]
  cases step with
  | wait h => simp [Moment.call?, call?_of_waiting h]
  | settle h => simpa [Moment.call?] using own (by simp [h])
  | learn h => simpa [Moment.call?] using own (by simp [h])
  | nextPass => simp [Moment.call?]

theorem Traces.answered (traces : context.Traces moment calls next) :
    ∀ call ∈ calls, ∃ outputs, context.answer call = .ok outputs := by
  induction traces with
  | refl => exact nofun
  | step step _ ih =>
      intro call hcall
      rcases List.mem_append.mp hcall with here | later
      · exact step.answered (Option.mem_toList.mp here)
      · exact ih call later

theorem Traces.called (traces : context.Traces moment calls next) :
    next.done.filterMap Task.hint? = moment.done.filterMap Task.hint? ++ calls.map (·.binding) := by
  induction traces with
  | refl => simp
  | step step _ ih => rw [ih, step.called, List.append_assoc, List.map_append]

/-! ## A pass over a straight line -/

/-- A pass over the tasks that does not fail leaves none waiting, and the wires below the bound known. -/
def Finishes (context : SolvingContext F) (tasks : List (Task F)) (m : Nat) (known : Knowledge F) : Prop :=
  (context.pass tasks known).error? = none →
    (context.pass tasks known).pending = [] ∧ (context.pass tasks known).known.Knows m

theorem Finishes.cons {m : Nat} (ready : context.attempt known task ≠ .ok .waiting)
    (rest : ∀ known', context.Does known task known' → context.Finishes tasks m known') :
    context.Finishes (task :: tasks) m known := by
  intro noError
  cases h : context.attempt known task with
  | error error => simp [pass_cons_error h] at noError
  | ok attempt =>
      cases attempt with
      | waiting => exact absurd h ready
      | settled =>
          rw [pass_cons_settled h] at noError ⊢
          exact rest known (.inr ⟨h, rfl⟩) noError
      | learned known' =>
          rw [pass_cons_learned h] at noError ⊢
          exact rest known' (.inl h) noError

theorem finishes_straightLine {isInput : Wire → Prop} {n m : Nat} (straight : StraightLine isInput n tasks m)
    (owns : context.OwnsOutputs n m tasks) (inputs : ∀ wire, isInput wire → (known.get? wire).isSome)
    (knows : known.Knows n) (fits : m ≤ known.values.size) : context.Finishes tasks m known :=
  straightLine_induction (motive := fun tasks known => context.Finishes tasks m known)
    (fun _ knows _ => ⟨rfl, knows⟩) (fun _ _ _ ready rest => .cons ready rest) straight owns inputs knows fits

/-- A pass that leaves nothing waiting calls every hint once, in order, on the values of any assignment that
passes the tasks. -/
theorem passCalls_eq (prime : F.modulus.Prime) {value : Wire → F.Elem} (agrees : known.Agrees value)
    (respected : ∀ task ∈ tasks, task.RespectedBy context.registry value)
    (finished : (context.pass tasks known).pending = []) :
    context.passCalls tasks known = (tasks.filterMap Task.hint?).map fun b => ⟨b, b.inputs.map value⟩ := by
  induction tasks generalizing known with
  | nil => rfl
  | cons task rest ih =>
      obtain ⟨first, later⟩ := List.forall_mem_cons.mp respected
      have own (ready : context.attempt known task ≠ .ok .waiting) :
          (task.call? known).toList = task.hint?.toList.map fun b => ⟨b, b.inputs.map value⟩ := by
        cases task with
        | constraint i c => rfl
        | hint b =>
            cases hall : known.getAll? b.inputs with
            | none => exact absurd (by simp [attempt, fire_eq, hall]) ready
            | some inputs => simp [Task.call?, Task.hint?, hall, agrees.getAll? hall]
      have split : ((task :: rest).filterMap Task.hint?).map (fun b => (⟨b, b.inputs.map value⟩ : Call F))
          = task.hint?.toList.map (fun b => ⟨b, b.inputs.map value⟩)
            ++ (rest.filterMap Task.hint?).map fun b => ⟨b, b.inputs.map value⟩ := by
        cases h : task.hint? <;> simp [h]
      rw [split, passCalls]
      rcases attempt_of_agrees prime agrees first with waits | settled | ⟨known', learned, agrees'⟩
      · simp [pass_cons_waiting waits] at finished
      · rw [pass_cons_settled settled] at finished
        simp only [own (by simp [settled]), settled, ih agrees later finished]
      · rw [pass_cons_learned learned] at finished
        simp only [own (by simp [learned]), learned, ih agrees' later finished]

end SolvingContext

/-! ## The calls of a solve -/

namespace Solver

variable {solver : Solver F} {publicValues secretValues : List F.Elem}

/-- A solve depends on its registry by the checks of the bindings and by the answers to its calls alone. -/
theorem solve_congr {registry : HintRegistry}
    (checked : solver.system.hintError? registry = solver.system.hintError? solver.registry)
    (same : ∀ call ∈ solver.calls publicValues secretValues,
      (SolvingContext.ofSystem registry solver.system).answer call = solver.context.answer call) :
    ({ solver with registry }.solve publicValues secretValues).1 = (solver.solve publicValues secretValues).1 := by
  have run : { solver with registry }.run (solver.system.seed publicValues secretValues)
      = solver.run (solver.system.seed publicValues secretValues) :=
    SolvingContext.propagate_congr rfl rfl same
  cases solver.stage publicValues secretValues with
  | unfit found => rw [solve_unfit solver found, solve_unfit { solver with registry } (checked.trans found)]
  | publicRefused fits refused =>
      rw [solve_publicRefused solver fits refused,
        solve_publicRefused { solver with registry } (checked.trans fits) refused]
  | secretRefused fits accepted refused =>
      rw [solve_secretRefused solver fits accepted refused,
        solve_secretRefused { solver with registry } (checked.trans fits) accepted refused]
  | outOfRange fits accepted accepted' out =>
      rw [solve_outOfRange solver fits accepted accepted' out,
        solve_outOfRange { solver with registry } (checked.trans fits) accepted accepted' out]
  | runs starts =>
      have starts' : Starts { solver with registry } publicValues secretValues :=
        { starts with checked := checked.trans starts.checked }
      rw [starts.solve_eq, starts'.solve_eq, complete_eq, complete_eq]
      exact congrArg (fun run => solver.outcome run.known run.error?) run

/-- A system without hints is solved alike with every registry. -/
theorem solve_of_no_hints (solver : Solver F) (none : solver.system.hints = []) (registry : HintRegistry) :
    ({ solver with registry }.solve publicValues secretValues).1 = (solver.solve publicValues secretValues).1 := by
  refine solve_congr (by simp [System.hintError?, none]) fun call hcall => ?_
  have bound := System.mem_hints_of_task (SolvingContext.hint_mem_of_propagateCalls hcall)
  rw [none] at bound
  cases bound

/-- On a straight line, the inputs are all that is needed if and only if there are no other wires. -/
theorem leastUnknown?_seed (straight : solver.system.Straight) {value : Wire → F.Elem}
    (supplied : solver.system.Supplied publicValues secretValues value) :
    solver.context.leastUnknown? (solver.system.seed publicValues secretValues) = none ↔
      ∀ wire, wire.index < solver.system.wireCount → solver.system.IsInput wire := by
  constructor
  · intro none wire inRange
    rcases straight.tasks.mem_wires (Nat.zero_le _) inRange with isInput | ⟨task, htask, hwire⟩
    · exact isInput
    · exact System.isInput_of_isSome_seed
        (SolvingContext.leastUnknown?_eq_none none (System.mem_mentioned_of_task htask hwire) inRange)
  · intro all
    exact SolvingContext.leastUnknown?_of_knows fun wire inRange => supplied.isSome_seed.mpr ⟨all wire inRange, inRange⟩

theorem calls_of_inputs_only (straight : solver.system.Straight) {value : Wire → F.Elem}
    (supplied : solver.system.Supplied publicValues secretValues value)
    (inputsOnly : ∀ wire, wire.index < solver.system.wireCount → solver.system.IsInput wire) :
    solver.calls publicValues secretValues = [] :=
  SolvingContext.propagateCalls_complete ((leastUnknown?_seed straight supplied).mpr inputsOnly)

/-- A run along a straight line that starts with some value missing, and does not fail, is one pass. -/
theorem run_eq_pass (straight : solver.system.Straight) {seeded : Knowledge F}
    (size : seeded.values.size = solver.system.wireCount)
    (inputs : ∀ wire, solver.system.IsInput wire → (seeded.get? wire).isSome) {least : Nat}
    (unknown : solver.context.leastUnknown? seeded = some least) (noError : (solver.run seeded).error? = none) :
    (solver.context.pass solver.system.tasks seeded).error? = none ∧
      (solver.context.pass solver.system.tasks seeded).pending = [] ∧
      solver.context.leastUnknown? (solver.context.pass solver.system.tasks seeded).known = none ∧
      solver.run seeded = ⟨(solver.context.pass solver.system.tasks seeded).known, 1, none⟩ := by
  have passed : (solver.context.pass solver.system.tasks seeded).error? = none := by
    by_contra failed
    obtain ⟨error, failed⟩ := Option.ne_none_iff_exists'.mp failed
    rw [run, SolvingContext.propagate_failed unknown failed] at noError
    cases noError
  obtain ⟨finished, knows⟩ := SolvingContext.finishes_straightLine straight.tasks
    (fun i hi => .inr (.inr (hint_mem_tasks straight hi))) inputs (fun _ h => absurd h (Nat.not_lt_zero _))
    (Nat.le_of_eq size.symm) passed
  have ended : solver.context.leastUnknown? (solver.context.pass solver.system.tasks seeded).known = none :=
    SolvingContext.leastUnknown?_of_knows knows
  exact ⟨passed, finished, ended, SolvingContext.propagate_of_covered _ unknown passed ended⟩

/-- What is known after a first pass that leaves no task agrees with the inputs, and passes all tasks. -/
theorem respected_of_finished (prime : F.modulus.Prime) (inRange : solver.system.InRange)
    (single : solver.system.SingleSource) {after : SolvingContext.Pass F}
    (pass : solver.context.pass solver.system.tasks (solver.system.seed publicValues secretValues) = after)
    (passed : after.error? = none) (finished : after.pending = []) :
    (solver.system.seed publicValues secretValues).Agrees after.known.valueOrZero ∧
      ∀ task ∈ solver.system.tasks, task.RespectedBy solver.registry after.known.valueOrZero := by
  subst pass
  have start : solver.Visits publicValues secretValues
      ⟨solver.system.seed publicValues secretValues, [], [], solver.system.tasks⟩ := .refl
  obtain ⟨done, visits⟩ := visits_next start passed
  rw [finished] at visits
  obtain ⟨consistent, persists⟩ := consistent_of_visits prime inRange single visits
  exact ⟨fun wire x h => Knowledge.agrees_valueOrZero _ wire x (persists wire x h),
    fun task htask => consistent.respected task (by simpa using consistent.tasks.symm.subset htask)⟩

/-- A straight line with a wire that is no input is solved in one pass, which calls every hint once, on the
final values of its inputs. -/
theorem calls_of_solve (prime : F.modulus.Prime) (straight : solver.system.Straight)
    (single : solver.system.SingleSource)
    (sorted : solver.system.hints.Pairwise fun b b' => b.position ≤ b'.position) {witness : Witness F}
    (solved : (solver.solve publicValues secretValues).1 = .ok witness) {wire : Wire}
    (inRange : wire.index < solver.system.wireCount) (notInput : ¬ solver.system.IsInput wire) :
    solver.calls publicValues secretValues = (solver.system.hints.map fun b => ⟨b, b.inputs.map witness.value⟩) ∧
      ∀ b ∈ solver.system.hints, (Task.hint b).RespectedBy solver.registry witness.value := by
  obtain ⟨-, publicEnough, secretEnough, -, complete⟩ := of_solve_ok solved
  obtain ⟨value, supplied, seeded⟩ := System.exists_supplied single.inputs publicEnough secretEnough
  obtain ⟨least, unknown⟩ : ∃ least,
      solver.context.leastUnknown? (solver.system.seed publicValues secretValues) = some least :=
    Option.ne_none_iff_exists'.mp fun none =>
      notInput ((leastUnknown?_seed straight supplied).mp (seeded ▸ none) wire inRange)
  rw [complete, complete_eq] at solved
  obtain ⟨noError, -, rfl⟩ := of_outcome_ok solved
  obtain ⟨passed, finished, ended, once⟩ := run_eq_pass straight (by simp [System.seed])
    (fun wire isInput => seeded ▸ input_known straight supplied wire isInput) unknown noError
  obtain ⟨agrees, respected⟩ := respected_of_finished prime straight.inRange single rfl passed finished
  have inOrder : solver.system.tasks.filterMap Task.hint? = solver.system.hints := by
    rw [System.tasks, filterMap_schedule sorted fun b hb => by simpa using straight.positions b hb]
    simp
  have final (known : Knowledge F) : (solver.witnessOf known).value = known.valueOrZero := funext value_witnessOf
  rw [once, final]
  refine ⟨?_, fun b hb => respected _ (System.hint_mem_tasks straight.scheduled hb)⟩
  rw [calls, SolvingContext.propagateCalls, unknown]
  simp only [SolvingContext.passCalls_eq prime agrees respected finished, inOrder,
    SolvingContext.propagateCalls_complete ended, ite_self, List.append_nil]

end Solver

end ArithCircuit
