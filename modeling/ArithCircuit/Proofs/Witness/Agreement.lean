import ArithCircuit.Hint.Builtin
import ArithCircuit.Proofs.Witness.Attempts
import ArithCircuit.Proofs.Witness.Outcome

/-!
# Solutions are found

Whatever a run learns is what every solution says, so a system with a solution is never rejected,
and a witness agrees with every solution.
-/

namespace ArithCircuit

variable {F : PrimeField} {value : Wire → F.Elem}

/-! ## One attempt -/

/-- The assignment passes the task. -/
def Task.RespectedBy (registry : HintRegistry) (value : Wire → F.Elem) : Task F → Prop
  | .hint b => registry.invoke b.name F.modulus (b.inputs.map fun wire => (value wire).val)
      b.outputs.length = .ok (b.outputs.map fun wire => (value wire).val)
  | .constraint _ c => c.Holds value

/-- Whether an assignment passes a task depends on the wires of the task alone. -/
theorem Task.RespectedBy.congr {registry : HintRegistry} {value' : Wire → F.Elem} {task : Task F}
    (respected : task.RespectedBy registry value) (same : ∀ wire ∈ task.wires, value wire = value' wire) :
    task.RespectedBy registry value' := by
  cases task with
  | hint b =>
      have inputs : b.inputs.map (fun wire => (value' wire).val) = b.inputs.map fun wire => (value wire).val :=
        List.map_congr_left fun wire hwire => by rw [same wire (List.mem_append_left _ hwire)]
      have outputs : b.outputs.map (fun wire => (value' wire).val) = b.outputs.map fun wire => (value wire).val :=
        List.map_congr_left fun wire hwire => by rw [same wire (List.mem_append_right _ hwire)]
      rw [RespectedBy, inputs, outputs]
      exact respected
  | constraint i c => exact (Constraint.holds_congr same).mp respected

namespace SolvingContext

variable {context : SolvingContext F} {known : Knowledge F}

theorem fire_of_agrees (agrees : known.Agrees value) {binding : HintBinding}
    (respected : (Task.hint binding).RespectedBy context.registry value) :
    context.fire binding known = .ok .waiting ∨
      ∃ known', context.fire binding known = .ok (.learned known') ∧ known'.Agrees value := by
  rw [fire_eq]
  cases hall : known.getAll? binding.inputs with
  | none => exact .inl rfl
  | some inputs =>
      have hinputs : inputs.map (·.val) = binding.inputs.map fun wire => (value wire).val := by
        rw [agrees.getAll? hall, List.map_map]
        rfl
      have houtputs : (binding.outputs.map fun wire => (value wire).val).map F.ofNat
          = binding.outputs.map value := by simp
      simp only [hinputs]
      rw [respected]
      refine .inr ⟨_, rfl, ?_⟩
      rw [houtputs]
      exact agrees.learnAll _

theorem resolve_of_agrees (prime : F.modulus.Prime) (agrees : known.Agrees value) {index : Nat}
    {c : Constraint F} (holds : c.Holds value) :
    context.resolve index c known = .ok .waiting ∨ context.resolve index c known = .ok .settled ∨
      ∃ known', context.resolve index c known = .ok (.learned known') ∧ known'.Agrees value := by
  unfold resolve
  cases hfilter : c.wires.filter fun wire => (known.get? wire).isNone with
  | nil =>
      have same : ∀ wire ∈ c.wires, known.valueOrZero wire = value wire := fun wire hwire =>
        agrees.valueOrZero (known_of_filter_nil hfilter hwire)
      have hnone := Constraint.violation?_eq_none.mpr ((Constraint.holds_congr same).mpr holds)
      exact .inr (.inl (by simp only [hnone]))
  | cons unknown others =>
      dsimp only
      split
      · rename_i hsingle
        have same : ∀ wire ∈ c.wires, wire ≠ unknown → known.valueOrZero wire = value wire :=
          fun wire hwire other => agrees.valueOrZero
            (known_of_filter hfilter (Bool.and_eq_true_iff.mp hsingle).1 hwire other)
        cases hroot : c.isolate? known unknown with
        | none => exact .inl (by rw [Constraint.isolate, hroot])
        | some root =>
            have forced := (Constraint.holds_iff_isolate? prime same hroot).mp holds
            exact .inr (.inr ⟨_, by rw [Constraint.isolate, hroot], forced ▸ agrees.learn⟩)
      · exact .inl rfl

theorem attempt_of_agrees (prime : F.modulus.Prime) (agrees : known.Agrees value) {task : Task F}
    (respected : task.RespectedBy context.registry value) :
    context.attempt known task = .ok .waiting ∨ context.attempt known task = .ok .settled ∨
      ∃ known', context.attempt known task = .ok (.learned known') ∧ known'.Agrees value := by
  cases task with
  | hint binding =>
      rcases fire_of_agrees agrees respected with waits | learns
      · exact .inl waits
      · exact .inr (.inr learns)
  | constraint index c => exact resolve_of_agrees prime agrees respected

/-! ## All moments -/

/-- What every moment of a run keeps: the known values are those of the assignment, and the
assignment passes the tasks that are left. -/
structure Keeps (context : SolvingContext F) (value : Wire → F.Elem) (moment : Moment F) : Prop where
  agrees : moment.known.Agrees value
  respected : ∀ task ∈ moment.waiting ++ moment.ahead, task.RespectedBy context.registry value

theorem Keeps.step (prime : F.modulus.Prime) {before after : Moment F}
    (keeps : context.Keeps value before) (step : context.Step before after) :
    context.Keeps value after := by
  obtain ⟨agrees, respected⟩ := keeps
  cases step with
  | wait _ => exact ⟨agrees, fun task htask => respected task (by simpa using htask)⟩
  | settle _ =>
      exact ⟨agrees, fun task htask => respected task (by
        rcases List.mem_append.mp htask with h | h <;> simp [h])⟩
  | nextPass => exact ⟨agrees, fun task htask => respected task (by simpa using htask)⟩
  | @learn _ task known' _ _ _ learned =>
      refine ⟨?_, fun task htask => respected task (by
        rcases List.mem_append.mp htask with h | h <;> simp [h])⟩
      rcases attempt_of_agrees prime agrees (respected task (by simp)) with h | h | ⟨known'', h, agrees'⟩
      · cases learned.symm.trans h
      · cases learned.symm.trans h
      · cases learned.symm.trans h
        exact agrees'

theorem Keeps.reaches (prime : F.modulus.Prime) {before after : Moment F}
    (keeps : context.Keeps value before) (reaches : context.Reaches before after) :
    context.Keeps value after := by
  induction reaches with
  | refl => exact keeps
  | tail _ step ih => exact ih.step prime step

theorem Keeps.not_error (prime : F.modulus.Prime) {moment : Moment F} (keeps : context.Keeps value moment)
    {task : Task F} (htask : task ∈ moment.ahead) {error : SolveError F} :
    context.attempt moment.known task ≠ .error error := by
  intro failed
  rcases attempt_of_agrees prime keeps.agrees (keeps.respected task (by simp [htask])) with
    h | h | ⟨_, h, _⟩
  all_goals cases failed.symm.trans h

end SolvingContext

/-! ## Solutions -/

namespace System

variable {system : System F} {registry : HintRegistry} {publicValues secretValues : List F.Elem}

theorem Supplied.seed_eq (supplied : system.Supplied publicValues secretValues value) :
    system.seed publicValues secretValues
      = ((Knowledge.blank system.wireCount).learnAll (system.publicInputs.map (·.wire))
          ((system.publicInputs.map (·.wire)).map value)).learnAll (system.secretInputs.map (·.wire))
          ((system.secretInputs.map (·.wire)).map value) := by
  rw [seed, ← supplied.publicInputs, ← supplied.secretInputs, List.map_map, List.map_map]
  rfl

theorem Supplied.seed_agrees (supplied : system.Supplied publicValues secretValues value) :
    (system.seed publicValues secretValues).Agrees value := by
  rw [supplied.seed_eq]
  exact (Knowledge.agrees_blank _).learnAll _ |>.learnAll _

theorem Supplied.isSome_seed (supplied : system.Supplied publicValues secretValues value) {wire : Wire} :
    ((system.seed publicValues secretValues).get? wire).isSome ↔
      system.IsInput wire ∧ wire.index < system.wireCount := by
  rw [supplied.seed_eq, Knowledge.isSome_learnAll (by simp), Knowledge.isSome_learnAll (by simp)]
  simp only [Knowledge.size_learnAll, Knowledge.size_blank, Knowledge.get?_blank, IsInput, List.mem_append,
    List.mem_map, or_and_right, exists_or]
  simp only [Option.isSome_none, Bool.false_eq_true, or_false]
  exact or_comm

theorem Supplied.lengths (supplied : system.Supplied publicValues secretValues value) :
    publicValues.length = system.publicInputs.length ∧ secretValues.length = system.secretInputs.length := by
  simp [← supplied.publicInputs, ← supplied.secretInputs]

theorem Solution.respected (solution : system.Solution registry publicValues secretValues value) :
    ∀ task ∈ system.tasks, task.RespectedBy registry value := by
  intro task htask
  rcases mem_schedule htask with ⟨b, hb, rfl⟩ | ⟨i, c, hc, rfl⟩
  · exact solution.hintsAgree b hb
  · exact solution.satisfied c hc

end System

namespace Solver

variable {solver : Solver F} {publicValues secretValues : List F.Elem}

theorem keeps_of_visits (prime : F.modulus.Prime)
    (solution : solver.system.Solution solver.registry publicValues secretValues value)
    {moment : Moment F} (visits : solver.Visits publicValues secretValues moment) :
    solver.context.Keeps value moment :=
  SolvingContext.Keeps.reaches prime
    ⟨solution.seed_agrees, fun task htask => solution.respected task (by simpa using htask)⟩ visits

/-- With a solution at hand, all that a run ever knows is what the solution says. The outcome is a
witness with the values of the solution on every wire that is mentioned, or it says that the system
is underdetermined. -/
theorem solve_of_solution (prime : F.modulus.Prime) (solver : Solver F)
    (inRange : solver.system.InRange)
    (checked : solver.system.hintError? solver.registry = none)
    (solution : solver.system.Solution solver.registry publicValues secretValues value) :
    (∀ moment, solver.Visits publicValues secretValues moment → moment.known.Agrees value) ∧
      (∃ moment, solver.Visits publicValues secretValues moment ∧
        moment.known = (solver.solve publicValues secretValues).2.known) ∧
      ((∃ witness, (solver.solve publicValues secretValues).1 = .ok witness ∧
          ∀ wire ∈ solver.system.mentioned, witness.value wire = value wire) ∨
        ∃ wire, (solver.solve publicValues secretValues).1 = .error (.underdetermined wire)) := by
  obtain ⟨hpublic, hsecret⟩ := solution.lengths
  obtain ⟨moment, visits, hknown, hend⟩ :=
    solver.run_reaches (solver.system.seed publicValues secretValues)
  have keeps := keeps_of_visits prime solution visits
  rw [solve_eq_complete checked inRange.mentioned hpublic hsecret, complete_eq]
  refine ⟨fun moment visits => (keeps_of_visits prime solution visits).agrees, ⟨moment, visits, hknown⟩, ?_⟩
  rw [← hknown]
  dsimp only
  cases herror : (solver.run (solver.system.seed publicValues secretValues)).error? with
  | some error =>
      rw [herror] at hend
      rcases hend with ⟨task, htask, failed⟩ | ⟨wire, rfl, -⟩
      · exact absurd failed (keeps.not_error prime htask)
      · exact .inr ⟨wire, rfl⟩
  | none =>
      rw [herror] at hend
      have same : ∀ wire ∈ solver.system.mentioned, moment.known.valueOrZero wire = value wire :=
        fun wire hwire => keeps.agrees.valueOrZero
          (SolvingContext.leastUnknown?_eq_none hend hwire (inRange.mentioned wire hwire))
      have satisfied := (System.satisfied_congr same).mpr solution.satisfied
      refine .inl ⟨solver.witnessOf moment.known, ?_, fun wire hwire => ?_⟩
      · rw [outcome, System.firstViolation?_eq_none.mpr satisfied]
      · rw [value_witnessOf, same wire hwire]

/-- A secret `x`, a hint for its inverse, the constraint that checks it, and their sum. -/
def inverseSystem : System .seven where
  roles := [.secretInput, .internal, .internal]
  publicInputs := []
  secretInputs := [⟨⟨0⟩, "x"⟩]
  constraints := .rank1 [
    ⟨.ofWire ⟨0⟩, .ofWire ⟨1⟩, .ofConstant 1⟩,
    ⟨(LinearCombination.ofWire ⟨0⟩).addWire ⟨1⟩, .ofConstant 1, .ofWire ⟨2⟩⟩]
  hints := [⟨Hint.invertName, [⟨0⟩], [⟨1⟩], 0⟩]

/-- The inverse of three is five, and their sum is one. -/
theorem solution_inverseSystem :
    inverseSystem.Solution .builtin [] [3] fun wire => [3, 5, 1].getD wire.index 0 where
  publicInputs := rfl
  secretInputs := rfl
  satisfied := by decide +kernel
  hintsAgree := List.forall_mem_singleton.mpr rfl

theorem solve_inverseSystem :
    (∃ witness, (({ system := inverseSystem, registry := .builtin } : Solver .seven).solve [] [3]).1
        = .ok witness ∧
      ∀ wire ∈ inverseSystem.mentioned, witness.value wire = [3, 5, 1].getD wire.index 0) ∨
    ∃ wire, (({ system := inverseSystem, registry := .builtin } : Solver .seven).solve [] [3]).1
      = .error (.underdetermined wire) :=
  (solve_of_solution PrimeField.prime_seven { system := inverseSystem, registry := .builtin }
    ⟨by decide, by decide⟩ rfl solution_inverseSystem).2.2

end Solver

end ArithCircuit
