import ArithCircuit.Proofs.Witness.Agreement
import ArithCircuit.Proofs.Witness.StraightLine

/-!
# Systems solved in one pass

One pass does all the tasks of a straight-line system, or stops at the first one that fails.
-/

namespace ArithCircuit

variable {F : PrimeField} {value : Wire → F.Elem}

/-! ## One task -/

/-- What a pass leaves, no matter whether it made progress. -/
def SolvingContext.Pass.unmarked (pass : SolvingContext.Pass F) : SolvingContext.Pass F :=
  { pass with progress := false }

namespace SolvingContext

variable {context : SolvingContext F} {known known' : Knowledge F} {task : Task F}

/-- The attempt does the task, and then this is known. -/
def Does (context : SolvingContext F) (known : Knowledge F) (task : Task F) (known' : Knowledge F) : Prop :=
  context.attempt known task = .ok (.learned known') ∨
    context.attempt known task = .ok .settled ∧ known' = known

theorem Does.remembers (does : context.Does known task known') : known.Remembers known' := by
  rcases does with learned | ⟨-, rfl⟩
  · exact (attempt_eq_learned.mp learned).remembers
  · exact .refl _

/-- When a task is done, its wires are known. -/
theorem Does.knows (does : context.Does known task known') {wire : Wire} (hwire : wire ∈ task.wires)
    (inRange : wire.index < known.values.size) : (known'.get? wire).isSome := by
  rcases does with learned | ⟨settled, rfl⟩
  · exact (attempt_eq_learned.mp learned).knows hwire inRange
  · cases task with
    | hint b => exact absurd settled fire_ne_settled
    | constraint i c => exact (resolve_eq_settled.mp settled).1 wire hwire

theorem pass_of_does (h : context.Does known task known') (ahead : List (Task F)) :
    (context.pass (task :: ahead) known).unmarked = (context.pass ahead known').unmarked := by
  rcases h with learned | ⟨settled, rfl⟩
  · rw [pass_cons_learned learned]
    rfl
  · rw [pass_cons_settled settled]

theorem fire_error (agrees : known.Agrees value) {b : HintBinding} {error : HintError}
    (inputs : ∀ wire ∈ b.inputs, (known.get? wire).isSome)
    (failed : context.registry.invoke b.name F.modulus (b.inputs.map fun wire => (value wire).val)
      b.outputs.length = .error error) :
    context.attempt known (.hint b) = .error (.hint error) := by
  rw [attempt, fire_eq, agrees.getAll?_eq inputs]
  dsimp only
  rw [List.map_map, Function.comp_def, failed]

theorem resolve_error (agrees : known.Agrees value) {i : Nat} {c : Constraint F}
    (wires : ∀ wire ∈ c.wires, (known.get? wire).isSome) {violation : Violation F}
    (violated : c.violation? value = some violation) :
    context.attempt known (.constraint i c) = .error (.violated i violation) := by
  have same : ∀ wire ∈ c.wires, known.valueOrZero wire = value wire := fun wire hwire =>
    agrees.valueOrZero (wires wire hwire)
  rw [attempt, resolve, filter_known wires]
  simp only [Constraint.violation?_congr same, violated]

/-- A constraint whose wires are all known does not wait. -/
theorem resolve_ne_waiting {i : Nat} {c : Constraint F} (wires : ∀ wire ∈ c.wires, (known.get? wire).isSome) :
    context.resolve i c known ≠ .ok .waiting := by
  rw [resolve, filter_known wires]
  dsimp only
  split <;> simp

theorem define_ne_waiting {n i : Nat} {c : Constraint F} {result : (Wire → F.Elem) → F.Elem}
    (defines : c.Defines ⟨n⟩ result) (knows : known.Knows n) (free : ¬ context.hintOwned.getD n false = true) :
    context.resolve i c known ≠ .ok .waiting := by
  have others : ∀ wire ∈ c.wires, wire ≠ ⟨n⟩ → (known.get? wire).isSome := fun wire hwire different =>
    knows wire (defines.lt_of_ne hwire different)
  cases hget : known.get? ⟨n⟩ with
  | some x =>
      refine resolve_ne_waiting fun wire hwire => ?_
      by_cases same : wire = ⟨n⟩
      · simp [same, hget]
      · exact others wire hwire same
  | none =>
      obtain ⟨root, forces⟩ := defines.isolate?_isSome known
      rw [resolve_eq_learned.mpr ⟨⟨n⟩, root, ⟨defines.mentions, hget, others, free, forces⟩, rfl⟩]
      simp

/-- A task that the assignment passes, and that does not wait, is done. -/
theorem does_of_ready (prime : F.modulus.Prime) (agrees : known.Agrees value)
    (respected : task.RespectedBy context.registry value) (ready : context.attempt known task ≠ .ok .waiting) :
    ∃ known', context.Does known task known' ∧ known'.Agrees value := by
  rcases attempt_of_agrees prime agrees respected with waits | settled | ⟨known', learned, agrees'⟩
  · exact absurd waits ready
  · exact ⟨known, .inr ⟨settled, rfl⟩, agrees⟩
  · exact ⟨known', .inl learned, agrees'⟩

/-! ## One pass -/

/-- Passing over the tasks gives the wires below the bound the values of the assignment, and the
pass goes on behind them. -/
def Covers (context : SolvingContext F) (value : Wire → F.Elem) (tasks : List (Task F)) (m : Nat)
    (known : Knowledge F) : Prop :=
  ∃ known', known'.Agrees value ∧ known'.Knows m ∧ known.Remembers known' ∧
    ∀ ahead, (context.pass (tasks ++ ahead) known).unmarked = (context.pass ahead known').unmarked

theorem Covers.cons {tasks : List (Task F)} {m : Nat} (covers : context.Covers value tasks m known')
    (does : context.Does known task known') : context.Covers value (task :: tasks) m known := by
  obtain ⟨known'', agrees, knows, remembers, pass⟩ := covers
  exact ⟨known'', agrees, knows, does.remembers.trans remembers, fun ahead =>
    (pass_of_does does _).trans (pass ahead)⟩

/-- Of the wires from one index up to another, hints own their outputs alone. -/
def OwnsOutputs (context : SolvingContext F) (n m : Nat) (tasks : List (Task F)) : Prop :=
  ∀ i, context.hintOwned.getD i false = true →
    i < n ∨ m ≤ i ∨ ∃ b, Task.hint b ∈ tasks ∧ ⟨i⟩ ∈ b.outputs

namespace OwnsOutputs

variable {n m k : Nat} {tasks : List (Task F)}

theorem mono (owns : context.OwnsOutputs n m tasks) (hle : n ≤ k) : context.OwnsOutputs k m tasks := by
  intro i hi
  rcases owns i hi with h | h
  · exact .inl (Nat.lt_of_lt_of_le h hle)
  · exact .inr h

theorem tail_hint {b : HintBinding} (owns : context.OwnsOutputs n m (.hint b :: tasks))
    (houtputs : b.outputs = Wire.span n k) : context.OwnsOutputs (n + k) m tasks := by
  intro i hi
  rcases owns i hi with h | h | ⟨b', hb', h⟩
  · exact .inl (by omega)
  · exact .inr (.inl h)
  · rcases List.mem_cons.mp hb' with same | hb'
    · cases same
      exact .inl (Wire.mem_span.mp (houtputs ▸ h)).2
    · exact .inr (.inr ⟨b', hb', h⟩)

theorem tail_constraint {i : Nat} {c : Constraint F}
    (owns : context.OwnsOutputs n m (.constraint i c :: tasks)) : context.OwnsOutputs n m tasks := by
  intro j hj
  rcases owns j hj with h | h | ⟨b, hb, h⟩
  · exact .inl h
  · exact .inr (.inl h)
  · exact .inr (.inr ⟨b, by simpa using hb, h⟩)

/-- A wire that is no output of the tasks ahead is free. -/
theorem free {isInput : Wire → Prop} (owns : context.OwnsOutputs n m tasks)
    (straight : StraightLine isInput (n + 1) tasks m) : ¬ context.hintOwned.getD n false = true := by
  intro hn
  have hle := straight.le
  rcases owns n hn with h | h | ⟨b, hb, h⟩
  · omega
  · omega
  · exact Nat.lt_irrefl n (straight.le_outputs hb h)

end OwnsOutputs

/-- Induction along straight-line tasks: none of them has to wait when it is tried, and in the end the wires
below the bound are known. -/
theorem straightLine_induction {isInput : Wire → Prop} {n m : Nat} {tasks : List (Task F)}
    {motive : List (Task F) → Knowledge F → Prop} (done : ∀ known : Knowledge F, known.Knows m → motive [] known)
    (step : ∀ task tasks known, context.attempt known task ≠ .ok .waiting →
      (∀ known', context.Does known task known' → motive tasks known') → motive (task :: tasks) known)
    (straight : StraightLine isInput n tasks m) (owns : context.OwnsOutputs n m tasks)
    (inputs : ∀ wire, isInput wire → (known.get? wire).isSome) (knows : known.Knows n)
    (fits : m ≤ known.values.size) : motive tasks known := by
  induction straight generalizing known with
  | done => exact done known knows
  | input isIn _ ih => exact ih done (owns.mono (Nat.le_succ _)) inputs (knows.succ (inputs _ isIn)) fits
  | @hint n m k b tasks hinputs houtputs rest ih =>
      have ready : context.attempt known (.hint b) ≠ .ok .waiting := fun waits => by
        obtain ⟨wire, hwire, unknown⟩ := fire_waiting waits
        exact unknown (knows wire (hinputs wire hwire))
      refine step _ _ _ ready fun known' does => ih done (owns.tail_hint houtputs)
        (fun wire isIn => does.remembers.isSome wire (inputs wire isIn)) (fun wire hwire => ?_)
        (does.remembers.size ▸ fits)
      by_cases old : wire.index < n
      · exact does.remembers.isSome wire (knows wire old)
      · have := rest.le
        refine does.knows (List.mem_append_right _ ?_) (by omega)
        exact houtputs ▸ Wire.mem_span.mpr ⟨Nat.le_of_not_lt old, hwire⟩
  | @define n m i c result tasks defines rest ih =>
      have ready : context.attempt known (.constraint i c) ≠ .ok .waiting :=
        define_ne_waiting defines knows (owns.tail_constraint.free rest)
      refine step _ _ _ ready fun known' does => ih done (owns.tail_constraint.mono (Nat.le_succ _))
        (fun wire isIn => does.remembers.isSome wire (inputs wire isIn)) ?_ (does.remembers.size ▸ fits)
      exact (knows.remembered does.remembers).succ (does.knows defines.mentions (Nat.lt_of_lt_of_le rest.le fits))
  | @check n m i c tasks wires rest ih =>
      have ready : context.attempt known (.constraint i c) ≠ .ok .waiting :=
        resolve_ne_waiting fun wire hwire => knows wire (wires wire hwire)
      exact step _ _ _ ready fun known' does => ih done owns.tail_constraint
        (fun wire isIn => does.remembers.isSome wire (inputs wire isIn)) (knows.remembered does.remembers)
        (does.remembers.size ▸ fits)

/-- Straight-line tasks that the assignment passes can all be done in one pass. -/
theorem covers_straightLine (prime : F.modulus.Prime) {isInput : Wire → Prop} {n m : Nat}
    {tasks : List (Task F)} (straight : StraightLine isInput n tasks m)
    (respected : ∀ task ∈ tasks, task.RespectedBy context.registry value)
    (owns : context.OwnsOutputs n m tasks) (inputs : ∀ wire, isInput wire → (known.get? wire).isSome)
    (agrees : known.Agrees value) (knows : known.Knows n) (fits : m ≤ known.values.size) :
    context.Covers value tasks m known := by
  refine straightLine_induction (motive := fun tasks known =>
    (∀ task ∈ tasks, task.RespectedBy context.registry value) → known.Agrees value →
      context.Covers value tasks m known) ?_ ?_ straight owns inputs knows fits respected agrees
  · exact fun known knows _ agrees => ⟨known, agrees, knows, .refl known, fun _ => rfl⟩
  · intro task tasks known ready rest respected agrees
    obtain ⟨first, later⟩ := List.forall_mem_cons.mp respected
    obtain ⟨known', does, agrees'⟩ := does_of_ready prime agrees first ready
    exact (rest known' does later agrees').cons does

/-! ## Runs of at most one pass -/

variable {tasks : List (Task F)} {wire : Nat}

/-- A pass after which no needed value is missing is the last one. -/
theorem propagate_of_covered (fuel : Nat) (unknown : context.leastUnknown? known = some wire)
    (noError : (context.pass tasks known).error? = none)
    (covered : context.leastUnknown? (context.pass tasks known).known = none) :
    context.propagate (fuel + 1) 0 tasks known = ⟨(context.pass tasks known).known, 1, none⟩ := by
  have progress : (context.pass tasks known).progress = true := by
    by_contra noProgress
    rw [(pass_without_progress noError (by simpa using noProgress)).1, unknown] at covered
    cases covered
  rw [propagate_next unknown noError progress, propagate_complete _ _ covered]

end SolvingContext

namespace System

/-- The system is a straight line from its inputs to all of its wires. -/
structure Straight (system : System F) : Prop where
  inRange : system.InRange
  positions : ∀ b ∈ system.hints, b.position ≤ system.constraints.toList.length
  tasks : StraightLine system.IsInput 0 system.tasks system.wireCount

theorem Straight.scheduled {system : System F} (straight : system.Straight) : system.Scheduled := fun b hb => by
  rw [constraintCount, ← Constraints.length_toList]
  exact straight.positions b hb

end System

namespace Solver

variable {solver : Solver F} {publicValues secretValues : List F.Elem}

theorem hint_mem_tasks (straight : solver.system.Straight) {i : Nat}
    (hi : solver.context.hintOwned.getD i false = true) :
    ∃ b, Task.hint b ∈ solver.system.tasks ∧ ⟨i⟩ ∈ b.outputs := by
  obtain ⟨-, b, hb, hout⟩ := (SolvingContext.hintOwned_ofSystem ⟨i⟩).mp hi
  exact ⟨b, hint_mem_schedule hb (Nat.zero_le _) (by simpa using straight.positions b hb), hout⟩

theorem input_known (straight : solver.system.Straight)
    (supplied : solver.system.Supplied publicValues secretValues value) (wire : Wire)
    (isIn : solver.system.IsInput wire) :
    ((solver.system.seed publicValues secretValues).get? wire).isSome :=
  supplied.isSome_seed.mpr ⟨isIn, straight.inRange.input_lt isIn⟩

/-- On a straight-line system with a solution every wire gets known. -/
theorem run_straight (prime : F.modulus.Prime) (straight : solver.system.Straight)
    (solution : solver.system.Solution solver.registry publicValues secretValues value) :
    (solver.run (solver.system.seed publicValues secretValues)).error? = none ∧
      (solver.run (solver.system.seed publicValues secretValues)).passes ≤ 1 ∧
      (solver.run (solver.system.seed publicValues secretValues)).known.Agrees value ∧
      (solver.run (solver.system.seed publicValues secretValues)).known.Knows solver.system.wireCount := by
  have agrees := solution.seed_agrees
  unfold run
  cases hleast : solver.context.leastUnknown? (solver.system.seed publicValues secretValues) with
  | none =>
      rw [SolvingContext.propagate_complete _ _ hleast]
      refine ⟨rfl, Nat.zero_le _, agrees, fun wire hwire => ?_⟩
      rcases straight.tasks.mem_wires (Nat.zero_le _) hwire with isIn | ⟨task, htask, hmem⟩
      · exact solution.isSome_seed.mpr ⟨isIn, hwire⟩
      · exact SolvingContext.leastUnknown?_eq_none hleast (System.mem_mentioned_of_task htask hmem) hwire
  | some wire =>
      have covers : solver.context.Covers value solver.system.tasks solver.system.wireCount
          (solver.system.seed publicValues secretValues) :=
        SolvingContext.covers_straightLine prime straight.tasks solution.respected
          (fun i hi => .inr (.inr (hint_mem_tasks straight hi)))
          (input_known straight solution.toSupplied) agrees (fun _ h => absurd h (Nat.not_lt_zero _))
          (by simp [System.seed])
      obtain ⟨known, agrees', knows, -, pass⟩ := covers
      have left := pass []
      rw [List.append_nil] at left
      have noError := congrArg SolvingContext.Pass.error? left
      have hknown := congrArg SolvingContext.Pass.known left
      have covered : solver.context.leastUnknown? known = none :=
        SolvingContext.leastUnknown?_of_knows knows
      rw [← show (solver.context.pass solver.system.tasks
        (solver.system.seed publicValues secretValues)).known = known from hknown] at covered agrees' knows
      rw [SolvingContext.propagate_of_covered _ hleast noError covered]
      exact ⟨rfl, Nat.le_refl _, agrees', knows⟩

/-- A straight-line system with a solution is solved in at most one pass, by that solution. -/
theorem solve_straight (prime : F.modulus.Prime) (straight : solver.system.Straight)
    (checked : solver.system.hintError? solver.registry = none)
    (solution : solver.system.Solution solver.registry publicValues secretValues value) :
    ∃ witness, (solver.solve publicValues secretValues).1 = .ok witness ∧
      (solver.solve publicValues secretValues).2.passes ≤ 1 ∧
      (∀ wire, wire.index < solver.system.wireCount → witness.value wire = value wire) ∧
      witness.publicWires = solver.system.publicInputs.map (·.wire) ∧
      witness.secretWires = solver.system.secretInputs.map (·.wire) := by
  have inRange := straight.inRange
  obtain ⟨hpublic, hsecret⟩ := solution.lengths
  obtain ⟨noError, onePass, agrees, knows⟩ := run_straight prime straight solution
  have same : ∀ wire, wire.index < solver.system.wireCount →
      (solver.run (solver.system.seed publicValues secretValues)).known.valueOrZero wire = value wire :=
    fun wire hwire => agrees.valueOrZero (knows wire hwire)
  have satisfied := (System.satisfied_congr fun wire hwire => same wire (inRange.mentioned wire hwire)).mpr
    solution.satisfied
  rw [solve_eq_complete checked inRange.mentioned hpublic hsecret, complete_eq]
  refine ⟨solver.witnessOf (solver.run (solver.system.seed publicValues secretValues)).known, ?_, onePass,
    fun wire hwire => ?_, rfl, rfl⟩
  · rw [noError, outcome, System.firstViolation?_eq_none.mpr satisfied]
  · rw [value_witnessOf, same wire hwire]

/-! ### Failing runs -/

/-- The tasks of the system, up to the given one, which all find what they need. The assignment has
the supplied inputs and passes the tasks before that one. -/
structure StopsAt (solver : Solver F) (publicValues secretValues : List F.Elem) (value : Wire → F.Elem)
    (m : Nat) (task : Task F) : Prop where
  supplied : solver.system.Supplied publicValues secretValues value
  before : ∃ isInput done ahead, solver.system.tasks = done ++ task :: ahead ∧
    StraightLine isInput 0 done m ∧ (∀ wire, isInput wire → solver.system.IsInput wire) ∧
    (∀ task ∈ done, task.RespectedBy solver.registry value) ∧
    ∀ b, Task.hint b ∈ task :: ahead → ∀ wire ∈ b.outputs, m ≤ wire.index
  fits : m ≤ solver.system.wireCount

/-- A run that comes to a task that fails ends there. -/
theorem run_stops (prime : F.modulus.Prime) (straight : solver.system.Straight) {m : Nat} {task : Task F}
    (stops : solver.StopsAt publicValues secretValues value m task) {error : SolveError F}
    (failed : ∀ known : Knowledge F, known.Agrees value → known.Knows m →
      solver.context.attempt known task = .error error) {wire : Nat}
    (unknown : solver.context.leastUnknown? (solver.system.seed publicValues secretValues) = some wire) :
    (solver.run (solver.system.seed publicValues secretValues)).error? = some error ∧
      (solver.run (solver.system.seed publicValues secretValues)).passes = 1 := by
  obtain ⟨supplied, ⟨isInput, done, ahead, split, before, hinput, respected, later⟩, fits⟩ := stops
  have owns : solver.context.OwnsOutputs 0 m done := by
    intro i hi
    obtain ⟨b, hb, hout⟩ := hint_mem_tasks straight hi
    rw [split] at hb
    rcases List.mem_append.mp hb with hb | hb
    · exact .inr (.inr ⟨b, hb, hout⟩)
    · exact .inr (.inl (later b hb _ hout))
  have covers : solver.context.Covers value done m (solver.system.seed publicValues secretValues) :=
    SolvingContext.covers_straightLine prime before respected owns
      (fun wire isIn => input_known straight supplied wire (hinput wire isIn)) supplied.seed_agrees
      (fun _ h => absurd h (Nat.not_lt_zero _)) (by simpa [System.seed] using fits)
  obtain ⟨known, agrees, knows, -, pass⟩ := covers
  have left := pass (task :: ahead)
  rw [← split, SolvingContext.pass_cons_error (failed known agrees knows)] at left
  have error := congrArg SolvingContext.Pass.error? left
  unfold run
  rw [SolvingContext.propagate_failed unknown error]
  exact ⟨rfl, rfl⟩

/-- A hint that fails is reported, if it has an output to give a value. -/
theorem solve_stops_hint (prime : F.modulus.Prime) (straight : solver.system.Straight)
    (checked : solver.system.hintError? solver.registry = none) {m : Nat} {b : HintBinding}
    (stops : solver.StopsAt publicValues secretValues value m (.hint b))
    (inputs : ∀ wire ∈ b.inputs, wire.index < m) {error : HintError}
    (failed : solver.registry.invoke b.name F.modulus (b.inputs.map fun wire => (value wire).val)
      b.outputs.length = .error error)
    {output : Wire} (houtput : output ∈ b.outputs) (internal : ¬ solver.system.IsInput output) :
    (solver.solve publicValues secretValues).1 = .error (.hint error) ∧
      (solver.solve publicValues secretValues).2.passes ≤ 1 := by
  obtain ⟨hpublic, hsecret⟩ := stops.supplied.lengths
  have mentioned : output ∈ solver.system.mentioned := by
    obtain ⟨-, done, ahead, split, -⟩ := stops.before
    have htask : Task.hint b ∈ solver.system.tasks := by simp [split]
    exact System.mem_mentioned_of_task htask (List.mem_append.mpr (.inr houtput))
  rw [solve_eq_complete checked straight.inRange.mentioned hpublic hsecret, complete_eq]
  cases hleast : solver.context.leastUnknown? (solver.system.seed publicValues secretValues) with
  | none =>
      have known := SolvingContext.leastUnknown?_eq_none hleast mentioned
        (straight.inRange.mentioned output mentioned)
      exact absurd (stops.supplied.isSome_seed.mp known).1 internal
  | some wire =>
      obtain ⟨herror, hpasses⟩ := run_stops prime straight stops (fun known agrees knows =>
        SolvingContext.fire_error agrees (fun wire hwire => knows wire (inputs wire hwire)) failed) hleast
      rw [herror, hpasses]
      exact ⟨rfl, Nat.le_refl _⟩

/-- The first constraint that fails is reported, by a pass or, if all values are inputs, by the
verification. -/
theorem solve_stops_constraint (prime : F.modulus.Prime) (straight : solver.system.Straight)
    (checked : solver.system.hintError? solver.registry = none) {m : Nat} {c : Constraint F}
    {before after : List (Constraint F)} (split : solver.system.constraints.toList = before ++ c :: after)
    (stops : solver.StopsAt publicValues secretValues value m (.constraint before.length c))
    (holds : ∀ c ∈ before, c.Holds value)
    (wires : ∀ wire ∈ c.wires, wire.index < m) {violation : Violation F}
    (violated : c.violation? value = some violation) :
    (solver.solve publicValues secretValues).1 = .error (.violated before.length violation) ∧
      (solver.solve publicValues secretValues).2.passes ≤ 1 := by
  obtain ⟨hpublic, hsecret⟩ := stops.supplied.lengths
  rw [solve_eq_complete checked straight.inRange.mentioned hpublic hsecret, complete_eq]
  cases hleast : solver.context.leastUnknown? (solver.system.seed publicValues secretValues) with
  | none =>
      have same : ∀ wire ∈ solver.system.mentioned,
          (solver.system.seed publicValues secretValues).valueOrZero wire = value wire := fun wire hwire =>
        stops.supplied.seed_agrees.valueOrZero
          (SolvingContext.leastUnknown?_eq_none hleast hwire (straight.inRange.mentioned wire hwire))
      have first := System.firstViolation?_eq_some split holds violated
      rw [← System.firstViolation?_congr same] at first
      unfold run
      rw [SolvingContext.propagate_complete _ _ hleast]
      simp only [outcome, first]
      exact ⟨trivial, Nat.zero_le _⟩
  | some wire =>
      obtain ⟨herror, hpasses⟩ := run_stops prime straight stops (fun known agrees knows =>
        SolvingContext.resolve_error agrees (fun wire hwire => knows wire (wires wire hwire)) violated) hleast
      rw [herror, hpasses]
      exact ⟨rfl, Nat.le_refl _⟩

end Solver

end ArithCircuit
