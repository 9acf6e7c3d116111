import ArithCircuit.Proofs.Witness.Agreement
import Mathlib.Data.List.Pairwise

/-!
# What every run keeps

If every input and every output of a hint is a wire of its own, then known values never change, and
the tasks that are done stay in agreement with them.
-/

namespace ArithCircuit

variable {F : PrimeField} {registry : HintRegistry} {system : System F}

/-! ## One source for each wire -/

namespace System

/-- No two inputs share a wire, no two outputs of hints do, and no output is an input. -/
structure SingleSource (system : System F) : Prop where
  inputs : ((system.publicInputs ++ system.secretInputs).map (·.wire)).Nodup
  outputs : (system.hints.flatMap (·.outputs)).Nodup
  internal : ∀ b ∈ system.hints, ∀ wire ∈ b.outputs, ¬ system.IsInput wire

namespace SingleSource

variable (single : system.SingleSource)
include single

theorem disjoint : system.hints.Pairwise fun b b' => b.outputs.Disjoint b'.outputs :=
  (List.nodup_flatMap.mp single.outputs).2

theorem nodup_outputs {b : HintBinding} (hb : b ∈ system.hints) : b.outputs.Nodup :=
  (List.nodup_flatMap.mp single.outputs).1 b hb

theorem eq_of_mem_outputs {b b' : HintBinding} (hb : b ∈ system.hints) (hb' : b' ∈ system.hints) {wire : Wire}
    (hwire : wire ∈ b.outputs) (hwire' : wire ∈ b'.outputs) : b = b' := by
  have : Std.Symm fun b b' : HintBinding => b.outputs.Disjoint b'.outputs := ⟨fun _ _ h => h.symm⟩
  by_contra other
  exact single.disjoint.forall hb hb' other hwire hwire'

/-- A hint with outputs is bound once. -/
theorem count_le {b : HintBinding} {wire : Wire} (hwire : wire ∈ b.outputs) : system.hints.count b ≤ 1 := by
  by_contra more
  have twice : List.Pairwise (fun b b' : HintBinding => b.outputs.Disjoint b'.outputs) [b, b] :=
    single.disjoint.sublist (List.replicate_sublist_iff.mpr (Nat.lt_of_not_le more))
  simp only [List.pairwise_cons, List.mem_singleton, forall_eq] at twice
  exact twice.1 hwire hwire

end SingleSource

/-! ## The supplied inputs -/

variable {publicValues secretValues : List F.Elem}

/-- Only inputs are known before the first pass. -/
theorem isInput_of_isSome_seed {wire : Wire} (h : ((system.seed publicValues secretValues).get? wire).isSome) :
    system.IsInput wire := by
  rcases Knowledge.mem_of_isSome_learnAll h with secret | h
  · obtain ⟨input, hinput, rfl⟩ := List.mem_map.mp secret
    exact ⟨input, List.mem_append_right _ hinput, rfl⟩
  · rcases Knowledge.mem_of_isSome_learnAll h with supplied | h
    · obtain ⟨input, hinput, rfl⟩ := List.mem_map.mp supplied
      exact ⟨input, List.mem_append_left _ hinput, rfl⟩
    · simp at h

/-- Distinct inputs get the values supplied for them, the surplus apart. -/
theorem exists_supplied (distinct : ((system.publicInputs ++ system.secretInputs).map (·.wire)).Nodup)
    (publicEnough : system.publicInputs.length ≤ publicValues.length)
    (secretEnough : system.secretInputs.length ≤ secretValues.length) :
    ∃ value, system.Supplied (publicValues.take system.publicInputs.length)
        (secretValues.take system.secretInputs.length) value ∧
      system.seed publicValues secretValues
        = system.seed (publicValues.take system.publicInputs.length) (secretValues.take system.secretInputs.length) := by
  have lengths : ((system.publicInputs ++ system.secretInputs).map (·.wire)).length
      = (publicValues.take system.publicInputs.length ++ secretValues.take system.secretInputs.length).length := by
    simp [publicEnough, secretEnough]
  obtain ⟨value, hvalue⟩ := exists_map_eq distinct lengths
  rw [List.map_map, List.map_append] at hvalue
  obtain ⟨hpublic, hsecret⟩ := List.append_inj hvalue (by simp [publicEnough])
  refine ⟨value, ⟨hpublic, hsecret⟩, ?_⟩
  have taken (known : Knowledge F) (declared : List Input) (values : List F.Elem) :
      known.learnAll (declared.map (·.wire)) (values.take declared.length)
        = known.learnAll (declared.map (·.wire)) values := by
    simpa using known.learnAll_take (declared.map (·.wire)) values
  rw [seed, seed, taken, taken]

end System

/-! ## No task is lost -/

/-- Every task is done, waits or is ahead, and the wires of the tasks that are done are known. -/
structure Moment.Accounts (system : System F) (moment : Moment F) : Prop where
  size : moment.known.values.size = system.wireCount
  tasks : (moment.done ++ (moment.waiting ++ moment.ahead)).Perm system.tasks
  known : ∀ task ∈ moment.done, ∀ wire ∈ task.wires, (moment.known.get? wire).isSome

namespace Moment.Accounts

variable {moment moment' : Moment F} {context : SolvingContext F}

theorem start (system : System F) (publicValues secretValues : List F.Elem) :
    Accounts system ⟨system.seed publicValues secretValues, [], [], system.tasks⟩ where
  size := by simp [System.seed]
  tasks := .refl _
  known := by simp

theorem mem_tasks (accounts : moment.Accounts system) {task : Task F} (h : task ∈ moment.ahead) :
    task ∈ system.tasks :=
  accounts.tasks.subset (by simp [h])

theorem step (accounts : moment.Accounts system) (inRange : system.InRange)
    (step : context.Step moment moment') : moment'.Accounts system := by
  cases step with
  | wait _ => exact ⟨accounts.size, by simpa using accounts.tasks, accounts.known⟩
  | nextPass => exact ⟨accounts.size, by simpa using accounts.tasks, accounts.known⟩
  | @settle known task done waiting ahead settled =>
      refine ⟨accounts.size, .trans ?_ accounts.tasks, fun task' htask' => ?_⟩
      · simpa using List.perm_middle.symm.append_left done
      · rcases List.mem_append.mp htask' with h | h
        · exact accounts.known task' h
        · rw [List.mem_singleton.mp h]
          cases task with
          | hint b => exact absurd settled SolvingContext.fire_ne_settled
          | constraint i c => exact (SolvingContext.resolve_eq_settled.mp settled).1
  | @learn known task known' done waiting ahead learned =>
      have learns := SolvingContext.attempt_eq_learned.mp learned
      refine ⟨learns.remembers.size.trans accounts.size, .trans ?_ accounts.tasks, fun task' htask' wire hwire => ?_⟩
      · simpa using List.perm_middle.symm.append_left done
      · rcases List.mem_append.mp htask' with h | h
        · exact learns.remembers.isSome wire (accounts.known task' h wire hwire)
        · rw [List.mem_singleton.mp h] at hwire
          refine learns.knows hwire ?_
          rw [accounts.size]
          exact inRange.mentioned wire (System.mem_mentioned_of_task (accounts.mem_tasks List.mem_cons_self) hwire)

theorem reaches (accounts : moment.Accounts system) (inRange : system.InRange)
    (reaches : context.Reaches moment moment') : moment'.Accounts system := by
  induction reaches with
  | refl => exact accounts
  | tail _ step ih => exact ih.step inRange step

end Moment.Accounts

/-! ## Values are justified -/

/-- The known values pass all tasks that are done, and an output is known only if its hint is done. -/
structure Moment.Consistent (registry : HintRegistry) (system : System F) (moment : Moment F) : Prop extends
    moment.Accounts system where
  respected : ∀ task ∈ moment.done, task.RespectedBy registry moment.known.valueOrZero
  fired : ∀ b ∈ system.hints, ∀ wire ∈ b.outputs, (moment.known.get? wire).isSome → Task.hint b ∈ moment.done

namespace Moment.Consistent

variable {moment moment' : Moment F}

theorem start (registry : HintRegistry) (single : system.SingleSource) (publicValues secretValues : List F.Elem) :
    Consistent registry system ⟨system.seed publicValues secretValues, [], [], system.tasks⟩ where
  toAccounts := .start system publicValues secretValues
  respected := by simp
  fired b hb wire hwire hknown :=
    absurd (System.isInput_of_isSome_seed hknown) (single.internal b hb wire hwire)

/-- A hint that is still ahead has no known output. -/
theorem output_unknown {known : Knowledge F} {b : HintBinding} {done waiting ahead : List (Task F)}
    (consistent : Consistent registry system ⟨known, done, waiting, .hint b :: ahead⟩)
    (single : system.SingleSource) (hb : b ∈ system.hints) : ∀ wire ∈ b.outputs, known.get? wire = none := by
  intro wire hwire
  by_contra hknown
  have fired := consistent.fired b hb wire hwire (Option.ne_none_iff_isSome.mp hknown)
  have done_count : 1 ≤ done.count (.hint b) := List.one_le_count_iff.mpr fired
  have total := consistent.tasks.count_eq (.hint b)
  simp only [List.count_append, List.count_cons_self] at total
  have bound : system.tasks.count (.hint b) ≤ system.hints.count b := count_schedule_le _ _ 0 b
  have once := single.count_le hwire
  omega

/-- What is learned is new. -/
theorem persists_of_learns {known known' : Knowledge F} {task : Task F} {done waiting ahead : List (Task F)}
    (consistent : Consistent registry system ⟨known, done, waiting, task :: ahead⟩) (single : system.SingleSource)
    (learns : (SolvingContext.ofSystem registry system).Learns known task known') : known.Persists known' := by
  cases learns with
  | isolate isolates => exact Knowledge.persists_learn isolates.isNone
  | @fire b values fires =>
      have hb : b ∈ system.hints := System.mem_hints_of_task (consistent.mem_tasks List.mem_cons_self)
      obtain ⟨value, rfl⟩ := exists_map_eq (single.nodup_outputs hb) fires.length.symm
      exact Knowledge.persists_learnAll (consistent.output_unknown single hb)

/-- A task that taught something is passed by what is known then. -/
theorem respected_of_learns {known known' : Knowledge F} {task : Task F} {done waiting ahead : List (Task F)}
    (consistent : Consistent registry system ⟨known, done, waiting, task :: ahead⟩) (single : system.SingleSource)
    (prime : F.modulus.Prime) (inRange : system.InRange)
    (learns : (SolvingContext.ofSystem registry system).Learns known task known') :
    task.RespectedBy registry known'.valueOrZero := by
  have persists := consistent.persists_of_learns single learns
  have htask := consistent.mem_tasks List.mem_cons_self
  have lt : ∀ wire ∈ task.wires, wire.index < known.values.size := fun wire hwire =>
    consistent.size ▸ inRange.mentioned wire (System.mem_mentioned_of_task htask hwire)
  cases learns with
  | @fire b values fires =>
      obtain ⟨value, rfl⟩ := exists_map_eq (single.nodup_outputs (System.mem_hints_of_task htask)) fires.length.symm
      have inputs : b.inputs.map (fun wire =>
          ((known.learnAll b.outputs (b.outputs.map value)).valueOrZero wire).val)
          = b.inputs.map fun wire => (known.valueOrZero wire).val :=
        List.map_congr_left fun wire hwire => by rw [persists.valueOrZero (fires.inputs wire hwire)]
      have outputs : b.outputs.map (fun wire =>
          ((known.learnAll b.outputs (b.outputs.map value)).valueOrZero wire).val)
          = (b.outputs.map value).map (·.val) := by
        rw [List.map_map]
        refine List.map_congr_left fun wire hwire => ?_
        have learned : (known.learnAll b.outputs (b.outputs.map value)).get? wire = some (value wire) := by
          rw [Knowledge.get?_learnAll, if_pos ⟨hwire, lt wire (List.mem_append_right _ hwire)⟩]
        rw [Knowledge.valueOrZero_of_get? learned]
        rfl
      rw [Task.RespectedBy, inputs, outputs]
      exact fires.invoked
  | @isolate i c unknown x isolates =>
      have learned : (known.learn unknown x).get? unknown = some x := by
        rw [Knowledge.get?_learn, if_pos ⟨rfl, lt unknown isolates.mentions⟩]
      have others : ∀ wire ∈ c.wires, wire ≠ unknown →
          known.valueOrZero wire = (known.learn unknown x).valueOrZero wire := fun wire hwire other =>
        (persists.valueOrZero (isolates.others wire hwire other)).symm
      exact (Constraint.holds_iff_isolate? prime others isolates.forces).mpr (Knowledge.valueOrZero_of_get? learned)

theorem fired_of_learns {known known' : Knowledge F} {task : Task F} {done waiting ahead : List (Task F)}
    (consistent : Consistent registry system ⟨known, done, waiting, task :: ahead⟩) (single : system.SingleSource)
    (inRange : system.InRange) (learns : (SolvingContext.ofSystem registry system).Learns known task known') :
    ∀ b ∈ system.hints, ∀ wire ∈ b.outputs, (known'.get? wire).isSome → Task.hint b ∈ done ++ [task] := by
  intro b hb wire hwire hknown
  have old (h : (known.get? wire).isSome) : Task.hint b ∈ done ++ [task] :=
    List.mem_append_left _ (consistent.fired b hb wire hwire h)
  cases learns with
  | fire fires =>
      rcases Knowledge.mem_of_isSome_learnAll hknown with output | h
      · have hb' := System.mem_hints_of_task (consistent.mem_tasks List.mem_cons_self)
        rw [single.eq_of_mem_outputs hb hb' hwire output]
        simp
      · exact old h
  | isolate isolates =>
      rcases Knowledge.isSome_learn.mp hknown with ⟨rfl, -⟩ | h
      · have lt := inRange.binding_lt hb wire (List.mem_append_right _ hwire)
        exact absurd ((SolvingContext.hintOwned_ofSystem wire).mpr ⟨lt, b, hb, hwire⟩) isolates.free
      · exact old h

/-- Trying a task keeps the values that are known, and the tasks that are done. -/
theorem step (consistent : moment.Consistent registry system) (single : system.SingleSource)
    (prime : F.modulus.Prime) (inRange : system.InRange)
    (step : (SolvingContext.ofSystem registry system).Step moment moment') :
    moment'.Consistent registry system ∧ moment.known.Persists moment'.known := by
  have accounts := consistent.toAccounts.step inRange step
  cases step with
  | wait _ => exact ⟨⟨accounts, consistent.respected, consistent.fired⟩, .refl _⟩
  | nextPass => exact ⟨⟨accounts, consistent.respected, consistent.fired⟩, .refl _⟩
  | @settle known task done waiting ahead settled =>
      refine ⟨⟨accounts, fun task' htask' => ?_, fun b hb wire hwire h =>
        List.mem_append_left _ (consistent.fired b hb wire hwire h)⟩, .refl _⟩
      rcases List.mem_append.mp htask' with h | h
      · exact consistent.respected task' h
      · rw [List.mem_singleton.mp h]
        cases task with
        | hint b => exact absurd settled SolvingContext.fire_ne_settled
        | constraint i c => exact (SolvingContext.resolve_eq_settled.mp settled).2
  | @learn known task known' done waiting ahead learned =>
      have learns := SolvingContext.attempt_eq_learned.mp learned
      have persists := consistent.persists_of_learns single learns
      refine ⟨⟨accounts, fun task' htask' => ?_, consistent.fired_of_learns single inRange learns⟩, persists⟩
      rcases List.mem_append.mp htask' with h | h
      · exact (consistent.respected task' h).congr fun wire hwire =>
          (persists.valueOrZero (consistent.known task' h wire hwire)).symm
      · rw [List.mem_singleton.mp h]
        exact consistent.respected_of_learns single prime inRange learns

theorem reaches (consistent : moment.Consistent registry system) (single : system.SingleSource)
    (prime : F.modulus.Prime) (inRange : system.InRange)
    (reaches : (SolvingContext.ofSystem registry system).Reaches moment moment') :
    moment'.Consistent registry system ∧ moment.known.Persists moment'.known := by
  induction reaches with
  | refl => exact ⟨consistent, .refl _⟩
  | tail _ step ih =>
      obtain ⟨consistent', persists⟩ := ih.1.step single prime inRange step
      exact ⟨consistent', ih.2.trans persists⟩

end Moment.Consistent

/-! ## Witnesses -/

/-- The witness satisfies the system, keeps the supplied inputs, and has for every hint with outputs
the values that the hint gives. -/
structure Witness.Justified (solver : Solver F) (publicValues secretValues : List F.Elem)
    (witness : Witness F) : Prop where
  satisfied : solver.system.Satisfied witness.value
  publicValues : witness.publicValues = publicValues.take solver.system.publicInputs.length
  secretValues : witness.secretValues = secretValues.take solver.system.secretInputs.length
  hints : ∀ b ∈ solver.system.hints, b.outputs ≠ [] → (Task.hint b).RespectedBy solver.registry witness.value

namespace Solver

variable {solver : Solver F} {publicValues secretValues : List F.Elem}

theorem consistent_of_visits (prime : F.modulus.Prime) (inRange : solver.system.InRange)
    (single : solver.system.SingleSource) {moment : Moment F}
    (visits : solver.Visits publicValues secretValues moment) :
    moment.Consistent solver.registry solver.system ∧
      (solver.system.seed publicValues secretValues).Persists moment.known :=
  (Moment.Consistent.start solver.registry single publicValues secretValues).reaches single prime inRange visits

/-- A witness has the values known at the last moment, when everything needed is known. -/
theorem exists_last (witness : Witness F) (solved : (solver.solve publicValues secretValues).1 = .ok witness) :
    ∃ moment, solver.Traces publicValues secretValues (solver.calls publicValues secretValues) moment ∧
      witness = solver.witnessOf moment.known ∧ (∀ wire ∈ solver.system.mentioned, (moment.known.get? wire).isSome) ∧
      solver.system.Satisfied moment.known.valueOrZero := by
  obtain ⟨-, -, -, mentioned, complete⟩ := of_solve_ok solved
  rw [complete, complete_eq] at solved
  obtain ⟨noError, satisfied, rfl⟩ := of_outcome_ok solved
  obtain ⟨moment, calls, traces, hknown, hend, hcalls⟩ := solver.run_traces publicValues secretValues
  rw [noError] at hend hcalls
  obtain rfl : solver.calls publicValues secretValues = calls := by simpa using hcalls
  rw [← hknown] at satisfied ⊢
  exact ⟨moment, traces, rfl, fun wire hwire => SolvingContext.leastUnknown?_eq_none hend hwire (mentioned wire hwire),
    satisfied⟩

theorem justified_of_solve (prime : F.modulus.Prime) (inRange : solver.system.InRange)
    (single : solver.system.SingleSource) {witness : Witness F}
    (solved : (solver.solve publicValues secretValues).1 = .ok witness) :
    witness.Justified solver publicValues secretValues := by
  obtain ⟨-, publicEnough, secretEnough, -⟩ := of_solve_ok solved
  obtain ⟨moment, traces, rfl, needed, satisfied⟩ := exists_last witness solved
  obtain ⟨consistent, persists⟩ := consistent_of_visits prime inRange single traces.reaches
  have same : (solver.witnessOf moment.known).value = moment.known.valueOrZero := funext value_witnessOf
  obtain ⟨value, supplied, seeded⟩ := System.exists_supplied single.inputs publicEnough secretEnough
  have kept : ∀ input ∈ solver.system.publicInputs ++ solver.system.secretInputs,
      moment.known.valueOrZero input.wire = value input.wire := fun input hinput => by
    have hknown : ((solver.system.seed publicValues secretValues).get? input.wire).isSome := by
      rw [seeded]
      exact supplied.isSome_seed.mpr ⟨⟨input, hinput, rfl⟩, inRange.inputs input hinput⟩
    rw [persists.valueOrZero hknown]
    exact Knowledge.Agrees.valueOrZero (seeded ▸ supplied.seed_agrees) hknown
  refine ⟨same ▸ satisfied, ?_, ?_, fun b hb outputs => ?_⟩
  · rw [← supplied.publicInputs, Witness.publicValues, same]
    simp only [witnessOf, List.map_map]
    exact List.map_congr_left fun input hinput => kept input (List.mem_append_left _ hinput)
  · rw [← supplied.secretInputs, Witness.secretValues, same]
    simp only [witnessOf, List.map_map]
    exact List.map_congr_left fun input hinput => kept input (List.mem_append_right _ hinput)
  · obtain ⟨wire, hwire⟩ := List.exists_mem_of_ne_nil _ outputs
    have mentioned : wire ∈ solver.system.mentioned :=
      System.mem_mentioned.mpr (.inr ⟨b, hb, List.mem_append_right _ hwire⟩)
    rw [same]
    exact consistent.respected _ (consistent.fired b hb wire hwire (needed wire mentioned))

end Solver

end ArithCircuit
