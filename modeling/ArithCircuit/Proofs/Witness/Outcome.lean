import ArithCircuit.Proofs.System.Satisfaction
import ArithCircuit.Proofs.Witness.Knowledge
import ArithCircuit.Proofs.Witness.Moments
import ArithCircuit.Proofs.Witness.Schedule
import ArithCircuit.Witness.Solver
import Mathlib.Order.Bounds.Defs

/-!
# The outcome of a solve

A solve that gets past its checks is a run from the seeded inputs, and its outcome is read off the
moment at which the run ends.
-/

namespace ArithCircuit

variable {F : PrimeField}

/-! ## Needed values -/

@[simp]
theorem size_markWires (count : Nat) (wires : List Wire) : (markWires count wires).size = count := by
  have fold : ∀ (wires : List Wire) (marks : Array Bool),
      (wires.foldl (fun marks wire => marks.setIfInBounds wire.index true) marks).size = marks.size := by
    intro wires
    induction wires with
    | nil => simp
    | cons wire wires ih => simp [ih]
  simp [markWires, fold]

theorem getD_markWires {count : Nat} {wires : List Wire} {i : Nat} :
    (markWires count wires).getD i false = true ↔ i < count ∧ ⟨i⟩ ∈ wires := by
  have fold : ∀ (wires : List Wire) (marks : Array Bool),
      (wires.foldl (fun marks wire => marks.setIfInBounds wire.index true) marks).getD i false = true
        ↔ marks.getD i false = true ∨ i < marks.size ∧ ⟨i⟩ ∈ wires := by
    intro wires
    induction wires with
    | nil => simp
    | cons wire wires ih =>
        intro marks
        obtain ⟨j⟩ := wire
        rw [List.foldl_cons, ih]
        by_cases hj : j = i
        · subst hj
          by_cases hlt : j < marks.size <;> simp [Array.getD_eq_getD_getElem?, hlt]
        · have hj' : (⟨i⟩ : Wire) ≠ ⟨j⟩ := by simp [Ne.symm hj]
          simp [Array.getD_eq_getD_getElem?, hj, hj']
  have blank : ¬ (Array.replicate count false).getD i false = true := by
    rw [Array.getD_eq_getD_getElem?, Array.getElem?_replicate]
    split <;> simp
  rw [markWires, fold]
  simp [blank]

namespace SolvingContext

variable {registry : HintRegistry} {system : System F} {known : Knowledge F}

theorem leastUnknown?_eq_none (h : (ofSystem registry system).leastUnknown? known = none) {wire : Wire}
    (mentioned : wire ∈ system.mentioned) (inRange : wire.index < system.wireCount) :
    (known.get? wire).isSome := by
  simp only [leastUnknown?, ofSystem, size_markWires, List.find?_eq_none, List.mem_range,
    Bool.and_eq_true, getD_markWires, not_and] at h
  simpa [Option.isNone_iff_eq_none, Option.isSome_iff_ne_none] using
    h wire.index inRange ⟨inRange, mentioned⟩

theorem leastUnknown?_eq_some {i : Nat} (h : (ofSystem registry system).leastUnknown? known = some i) :
    ⟨i⟩ ∈ system.mentioned ∧ ¬ (known.get? ⟨i⟩).isSome := by
  have found := List.find?_some h
  simp only [ofSystem, Bool.and_eq_true, getD_markWires] at found
  exact ⟨found.1.2, by simpa using found.2⟩

theorem isLeast_leastUnknown? (inRange : ∀ wire ∈ system.mentioned, wire.index < system.wireCount) {i : Nat}
    (h : (ofSystem registry system).leastUnknown? known = some i) :
    IsLeast {j | ⟨j⟩ ∈ system.mentioned ∧ known.get? ⟨j⟩ = none} i := by
  obtain ⟨mentioned, unknown⟩ := leastUnknown?_eq_some h
  refine ⟨⟨mentioned, Option.not_isSome_iff_eq_none.mp unknown⟩, fun j ⟨mentioned', unknown'⟩ => ?_⟩
  by_contra before
  have passed := (List.find?_range_eq_some.mp h).2.2 j (Nat.lt_of_not_le before)
  have marked : (markWires system.wireCount system.mentioned).getD j false = true :=
    getD_markWires.mpr ⟨inRange _ mentioned', mentioned'⟩
  simp [ofSystem, marked, unknown'] at passed

theorem leastUnknown?_of_knows (knows : known.Knows system.wireCount) :
    (ofSystem registry system).leastUnknown? known = none := by
  simp only [leastUnknown?, ofSystem, size_markWires, List.find?_eq_none, List.mem_range]
  intro i hi
  simp [Option.isNone_eq_false_iff.mpr (knows ⟨i⟩ hi)]

theorem hintOwned_ofSystem (wire : Wire) :
    (ofSystem registry system).hintOwned.getD wire.index false = true ↔
      wire.index < system.wireCount ∧ ∃ b ∈ system.hints, wire ∈ b.outputs :=
  getD_markWires.trans (by simp [List.mem_flatMap])

end SolvingContext

/-! ## Seeds and outcomes -/

/-- There is a value for every declared input, and none is left over unless surplus values are ignored. -/
def SurplusInputs.Accepts (surplus : SurplusInputs) (declared supplied : Nat) : Prop :=
  declared ≤ supplied ∧ (surplus = .reject → supplied ≤ declared)

instance (surplus : SurplusInputs) (declared supplied : Nat) : Decidable (surplus.Accepts declared supplied) :=
  inferInstanceAs (Decidable (_ ∧ _))

theorem SurplusInputs.accepts_of_eq {surplus : SurplusInputs} {declared supplied : Nat} (h : supplied = declared) :
    surplus.Accepts declared supplied :=
  ⟨h.ge, fun _ => h.le⟩

/-- Why values are refused: the first input without a value, or how many values are left over. -/
inductive Refused (surplus : SurplusInputs) (role : Role) (declared : List Input) (supplied : List F.Elem) :
    SolveError F → Prop
  | missing {input : Input} : declared[supplied.length]? = some input →
      Refused surplus role declared supplied (.missingInput role supplied.length input.name)
  | extra : surplus = .reject → declared.length < supplied.length →
      Refused surplus role declared supplied (.extraInput role declared.length supplied.length)

section

variable {surplus : SurplusInputs} {role : Role} {declared : List Input} {supplied : List F.Elem}

theorem accepts_or_refused (surplus : SurplusInputs) (role : Role) (declared : List Input) (supplied : List F.Elem) :
    surplus.Accepts declared.length supplied.length ∨ ∃ error, Refused surplus role declared supplied error := by
  cases h : declared[supplied.length]? with
  | some input => exact .inr ⟨_, .missing h⟩
  | none =>
      by_cases extra : surplus = .reject ∧ declared.length < supplied.length
      · exact .inr ⟨_, .extra extra.1 extra.2⟩
      · exact .inl ⟨List.getElem?_eq_none_iff.mp h, fun rejects => Nat.le_of_not_lt fun more => extra ⟨rejects, more⟩⟩

theorem seedInputs_of_accepts (accepts : surplus.Accepts declared.length supplied.length) (known : Knowledge F) :
    seedInputs surplus role declared supplied known = .ok (known.learnAll (declared.map (·.wire)) supplied) := by
  have fits : ¬ (declared.length < supplied.length ∧ surplus = .reject) := fun ⟨more, rejects⟩ =>
    Nat.not_le_of_lt more (accepts.2 rejects)
  rw [seedInputs, List.getElem?_eq_none accepts.1]
  exact if_neg fits

theorem Refused.seedInputs_eq {error : SolveError F} (refused : Refused surplus role declared supplied error)
    (known : Knowledge F) : seedInputs surplus role declared supplied known = .error error := by
  cases refused with
  | missing first => rw [seedInputs, first]
  | extra rejects more => simp [seedInputs, List.getElem?_eq_none more.le, more, rejects]

end

namespace System

variable {system : System F}

def tasks (system : System F) : List (Task F) := schedule system.hints 0 system.constraints.toList

theorem mem_hints_of_task {b : HintBinding} (h : Task.hint b ∈ system.tasks) : b ∈ system.hints := by
  rcases mem_schedule h with ⟨b', hb', same⟩ | ⟨i, c, -, same⟩
  · cases same
    exact hb'
  · cases same

theorem mem_constraints_of_task {i : Nat} {c : Constraint F} (h : Task.constraint i c ∈ system.tasks) :
    c ∈ system.constraints.toList := by
  rcases mem_schedule h with ⟨b, -, same⟩ | ⟨i', c', hc', same⟩
  · cases same
  · cases same
    exact hc'

theorem hint_mem_tasks (scheduled : system.Scheduled) {b : HintBinding} (hb : b ∈ system.hints) :
    Task.hint b ∈ system.tasks :=
  hint_mem_schedule hb (Nat.zero_le _) (by
    rw [Nat.zero_add, Constraints.length_toList]
    exact scheduled b hb)

/-- The hints among the tasks are those of the system, each as often as it is bound. -/
theorem perm_tasks (scheduled : system.Scheduled) : (system.tasks.filterMap Task.hint?).Perm system.hints := by
  refine (perm_schedule fun b hb => ?_).trans (.of_eq (by simp))
  rw [Nat.zero_add, Constraints.length_toList]
  exact scheduled b hb

theorem mem_mentioned_of_task {task : Task F} (htask : task ∈ system.tasks) {wire : Wire}
    (hwire : wire ∈ task.wires) : wire ∈ system.mentioned := by
  rcases mem_schedule htask with ⟨b, hb, rfl⟩ | ⟨i, c, hc, rfl⟩
  · exact mem_mentioned.mpr (.inr ⟨b, hb, hwire⟩)
  · exact mem_mentioned.mpr (.inl ⟨c, hc, hwire⟩)

theorem hintError?_eq_none {registry : HintRegistry} : system.hintError? registry = none ↔
    ∀ b ∈ system.hints, registry.check b = .ok () := by
  unfold hintError?
  rw [List.findSome?_eq_none_iff]
  refine forall₂_congr fun b _ => ?_
  cases registry.check b <;> simp

/-- What is known before the first pass. -/
def seed (system : System F) (publicValues secretValues : List F.Elem) : Knowledge F :=
  ((Knowledge.blank system.wireCount).learnAll (system.publicInputs.map (·.wire)) publicValues).learnAll
    (system.secretInputs.map (·.wire)) secretValues

end System

namespace Solver

variable {solver : Solver F} {publicValues secretValues : List F.Elem}

def context (solver : Solver F) : SolvingContext F := .ofSystem solver.registry solver.system

/-- The moments of the run for supplied inputs. -/
def Visits (solver : Solver F) (publicValues secretValues : List F.Elem) (moment : Moment F) : Prop :=
  solver.context.Reaches
    ⟨solver.system.seed publicValues secretValues, [], [], solver.system.tasks⟩ moment

/-- The run for supplied inputs comes to the moment and makes these calls on the way. -/
def Traces (solver : Solver F) (publicValues secretValues : List F.Elem) (calls : List (Call F))
    (moment : Moment F) : Prop :=
  solver.context.Traces
    ⟨solver.system.seed publicValues secretValues, [], [], solver.system.tasks⟩ calls moment

/-- What lets a solve come to its run. -/
structure Starts (solver : Solver F) (publicValues secretValues : List F.Elem) : Prop where
  checked : solver.system.hintError? solver.registry = none
  publicAccepted : solver.surplus.Accepts solver.system.publicInputs.length publicValues.length
  secretAccepted : solver.surplus.Accepts solver.system.secretInputs.length secretValues.length
  mentioned : ∀ wire ∈ solver.system.mentioned, wire.index < solver.system.wireCount

/-- How far a solve comes. -/
inductive Stage (solver : Solver F) (publicValues secretValues : List F.Elem) : Prop
  | unfit {error : HintError} : solver.system.hintError? solver.registry = some error →
      Stage solver publicValues secretValues
  | publicRefused {error : SolveError F} : solver.system.hintError? solver.registry = none →
      Refused solver.surplus .publicInput solver.system.publicInputs publicValues error →
      Stage solver publicValues secretValues
  | secretRefused {error : SolveError F} : solver.system.hintError? solver.registry = none →
      solver.surplus.Accepts solver.system.publicInputs.length publicValues.length →
      Refused solver.surplus .secretInput solver.system.secretInputs secretValues error →
      Stage solver publicValues secretValues
  | outOfRange : solver.system.hintError? solver.registry = none →
      solver.surplus.Accepts solver.system.publicInputs.length publicValues.length →
      solver.surplus.Accepts solver.system.secretInputs.length secretValues.length →
      ¬ (∀ wire ∈ solver.system.mentioned, wire.index < solver.system.wireCount) →
      Stage solver publicValues secretValues
  | runs : solver.Starts publicValues secretValues → Stage solver publicValues secretValues

theorem stage (solver : Solver F) (publicValues secretValues : List F.Elem) :
    solver.Stage publicValues secretValues := by
  cases checked : solver.system.hintError? solver.registry with
  | some error => exact .unfit checked
  | none =>
      rcases accepts_or_refused solver.surplus .publicInput solver.system.publicInputs publicValues with
        publicAccepted | ⟨_, refused⟩
      · rcases accepts_or_refused solver.surplus .secretInput solver.system.secretInputs secretValues with
          secretAccepted | ⟨_, refused⟩
        · by_cases mentioned : ∀ wire ∈ solver.system.mentioned, wire.index < solver.system.wireCount
          · exact .runs ⟨checked, publicAccepted, secretAccepted, mentioned⟩
          · exact .outOfRange checked publicAccepted secretAccepted mentioned
        · exact .secretRefused checked publicAccepted refused
      · exact .publicRefused checked refused

theorem solve_unfit (solver : Solver F) {error : HintError}
    (found : solver.system.hintError? solver.registry = some error) :
    solver.solve publicValues secretValues
      = (.error (.hint error), { solver with known := .blank solver.system.wireCount }) := by
  simp [solve, found]

theorem solve_publicRefused (solver : Solver F) {error : SolveError F}
    (checked : solver.system.hintError? solver.registry = none)
    (refused : Refused solver.surplus .publicInput solver.system.publicInputs publicValues error) :
    solver.solve publicValues secretValues
      = (.error error, { solver with known := .blank solver.system.wireCount }) := by
  simp [solve, checked, refused.seedInputs_eq]

theorem solve_secretRefused (solver : Solver F) {error : SolveError F}
    (checked : solver.system.hintError? solver.registry = none)
    (publicAccepted : solver.surplus.Accepts solver.system.publicInputs.length publicValues.length)
    (refused : Refused solver.surplus .secretInput solver.system.secretInputs secretValues error) :
    solver.solve publicValues secretValues
      = (.error error, { solver with
          known := (Knowledge.blank solver.system.wireCount).learnAll
            (solver.system.publicInputs.map (·.wire)) publicValues }) := by
  simp [solve, checked, seedInputs_of_accepts publicAccepted, refused.seedInputs_eq]

theorem solve_outOfRange (solver : Solver F) (checked : solver.system.hintError? solver.registry = none)
    (publicAccepted : solver.surplus.Accepts solver.system.publicInputs.length publicValues.length)
    (secretAccepted : solver.surplus.Accepts solver.system.secretInputs.length secretValues.length)
    (outOfRange : ¬ ∀ wire ∈ solver.system.mentioned, wire.index < solver.system.wireCount) :
    solver.solve publicValues secretValues
      = (.error .wireOutOfRange, { solver with known := solver.system.seed publicValues secretValues }) := by
  have all : ¬ solver.system.mentioned.all (·.index < solver.system.wireCount) = true := by
    simpa using outOfRange
  simp only [solve, checked, seedInputs_of_accepts publicAccepted, seedInputs_of_accepts secretAccepted, if_neg all]
  rfl

theorem Starts.solve_eq (starts : solver.Starts publicValues secretValues) :
    solver.solve publicValues secretValues = solver.complete (solver.system.seed publicValues secretValues) := by
  have all : solver.system.mentioned.all (·.index < solver.system.wireCount) = true := by
    simpa using starts.mentioned
  simp only [solve, starts.checked, seedInputs_of_accepts starts.publicAccepted,
    seedInputs_of_accepts starts.secretAccepted, if_pos all]
  rfl

theorem solve_eq_complete (checked : solver.system.hintError? solver.registry = none)
    (mentioned : ∀ wire ∈ solver.system.mentioned, wire.index < solver.system.wireCount)
    (hpublic : publicValues.length = solver.system.publicInputs.length)
    (hsecret : secretValues.length = solver.system.secretInputs.length) :
    solver.solve publicValues secretValues
      = solver.complete (solver.system.seed publicValues secretValues) :=
  Starts.solve_eq ⟨checked, SurplusInputs.accepts_of_eq hpublic, SurplusInputs.accepts_of_eq hsecret, mentioned⟩

/-- The solver with other values learned and passes counted. -/
def used (solver : Solver F) (known : Knowledge F) (passes : Nat) : Solver F := { solver with known, passes }

/-- A solve that does not come to its run fails. What it learns does not depend on what the solver has learned
before, and it counts no passes. -/
theorem exists_of_not_starts (early : ¬ solver.Starts publicValues secretValues) :
    ∃ error known, (∀ wire, error ≠ .underdetermined wire) ∧ ∀ before passes,
      (solver.used before passes).solve publicValues secretValues = (.error error, solver.used known passes) := by
  cases solver.stage publicValues secretValues with
  | @unfit error found =>
      exact ⟨.hint error, .blank solver.system.wireCount, nofun, fun before passes =>
        solve_unfit (solver.used before passes) found⟩
  | @publicRefused error checked refused =>
      refine ⟨error, .blank solver.system.wireCount, ?_, fun before passes =>
        solve_publicRefused (solver.used before passes) checked refused⟩
      rintro _ rfl
      cases refused
  | @secretRefused error checked accepted refused =>
      refine ⟨error, (Knowledge.blank solver.system.wireCount).learnAll (solver.system.publicInputs.map Input.wire)
        publicValues, ?_, fun before passes =>
          solve_secretRefused (solver.used before passes) checked accepted refused⟩
      rintro _ rfl
      cases refused
  | outOfRange checked accepted accepted' out =>
      exact ⟨.wireOutOfRange, solver.system.seed publicValues secretValues, nofun, fun before passes =>
        solve_outOfRange (solver.used before passes) checked accepted accepted' out⟩
  | runs starts => exact absurd starts early

theorem starts_of_solve_ok {witness : Witness F} (solved : (solver.solve publicValues secretValues).1 = .ok witness) :
    solver.Starts publicValues secretValues := by
  by_contra early
  obtain ⟨error, known, -, fails⟩ := exists_of_not_starts early
  cases (congrArg Prod.fst (fails solver.known solver.passes)).symm.trans solved

/-- A solve that succeeds has passed the checks and come to its run. -/
theorem of_solve_ok {witness : Witness F} (solved : (solver.solve publicValues secretValues).1 = .ok witness) :
    solver.system.hintError? solver.registry = none ∧
      solver.system.publicInputs.length ≤ publicValues.length ∧
      solver.system.secretInputs.length ≤ secretValues.length ∧
      (∀ wire ∈ solver.system.mentioned, wire.index < solver.system.wireCount) ∧
      solver.solve publicValues secretValues
        = solver.complete (solver.system.seed publicValues secretValues) :=
  have starts := starts_of_solve_ok solved
  ⟨starts.checked, starts.publicAccepted.1, starts.secretAccepted.1, starts.mentioned, starts.solve_eq⟩

/-- A solver that rejects surplus inputs succeeds for as many public values as there are inputs. -/
theorem publicLength_of_solve (rejects : solver.surplus = .reject) {witness : Witness F}
    (solved : (solver.solve publicValues secretValues).1 = .ok witness) :
    publicValues.length = solver.system.publicInputs.length :=
  have accepted := (starts_of_solve_ok solved).publicAccepted
  Nat.le_antisymm (accepted.2 rejects) accepted.1

def run (solver : Solver F) (seeded : Knowledge F) : SolvingContext.Propagation F :=
  solver.context.propagate (solver.system.tasks.length + 1) 0 solver.system.tasks seeded

/-- The known values, with zero for the wires that nothing mentions. -/
def witnessOf (solver : Solver F) (known : Knowledge F) : Witness F where
  values := known.values.map (·.getD 0)
  publicWires := solver.system.publicInputs.map (·.wire)
  secretWires := solver.system.secretInputs.map (·.wire)

/-- The error of a run, or what verifying all constraints gives. -/
def outcome (solver : Solver F) (known : Knowledge F) :
    Option (SolveError F) → Except (SolveError F) (Witness F)
  | some error => .error error
  | none =>
    match solver.system.firstViolation? known.valueOrZero with
    | some (index, violation) => .error (.violated index violation)
    | none => .ok (solver.witnessOf known)

theorem complete_eq (solver : Solver F) (seeded : Knowledge F) :
    solver.complete seeded
      = (solver.outcome (solver.run seeded).known (solver.run seeded).error?,
        { solver with known := (solver.run seeded).known, passes := (solver.run seeded).passes }) := by
  unfold complete outcome run context System.tasks
  dsimp only
  generalize SolvingContext.propagate _ _ _ _ _ = run
  obtain ⟨known, passes, error?⟩ := run
  cases error? with
  | some error => rfl
  | none =>
      dsimp only
      cases solver.system.firstViolation? known.valueOrZero <;> rfl

theorem of_outcome_ok {known : Knowledge F} {error? : Option (SolveError F)} {witness : Witness F}
    (ok : solver.outcome known error? = .ok witness) :
    error? = none ∧ solver.system.Satisfied known.valueOrZero ∧ witness = solver.witnessOf known := by
  cases error? with
  | some error => cases ok
  | none =>
      unfold outcome at ok
      dsimp only at ok
      split at ok
      · cases ok
      · rename_i noViolation
        exact ⟨rfl, System.firstViolation?_eq_none.mp noViolation, (Except.ok.inj ok).symm⟩

/-- An error is that of the run, or a constraint is violated in the end. -/
theorem of_outcome_error {known : Knowledge F} {error? : Option (SolveError F)} {error : SolveError F}
    (failed : solver.outcome known error? = .error error) :
    error? = some error ∨ ∃ index violation, error = .violated index violation := by
  cases error? with
  | some error' => exact .inl (congrArg some (Except.error.inj failed))
  | none =>
      unfold outcome at failed
      dsimp only at failed
      split at failed
      · cases failed
        exact .inr ⟨_, _, rfl⟩
      · cases failed

/-- Why a solve gives an error after it has come to its run: a wire lacks a value, a constraint is violated in the
end, or a task fails. -/
inductive Raises (solver : Solver F) : SolveError F → Prop
  | underdetermined (wire : Nat) : Raises solver (.underdetermined wire)
  | violated (index : Nat) (violation : Violation F) : Raises solver (.violated index violation)
  | failed {task : Task F} {now : Knowledge F} {error : SolveError F} : task ∈ solver.system.tasks →
      solver.context.attempt now task = .error error → Raises solver error

theorem raises_of_outcome {seeded : Knowledge F} {error : SolveError F}
    (failed : solver.outcome (solver.run seeded).known (solver.run seeded).error? = .error error) :
    solver.Raises error := by
  rcases of_outcome_error failed with stopped | ⟨index, violation, rfl⟩
  · rcases SolvingContext.exists_of_propagate_error stopped with ⟨wire, rfl⟩ | ⟨task, htask, now, fails⟩
    · exact .underdetermined wire
    · exact .failed htask fails
  · exact .violated index violation

/-- The calls of a solve that comes to its run. -/
def calls (solver : Solver F) (publicValues secretValues : List F.Elem) : List (Call F) :=
  solver.context.propagateCalls (solver.system.tasks.length + 1) solver.system.tasks
    (solver.system.seed publicValues secretValues)

/-- A run ends at one of its moments, for a reason. -/
theorem run_reaches (solver : Solver F) (seeded : Knowledge F) :
    ∃ moment, solver.context.Reaches ⟨seeded, [], [], solver.system.tasks⟩ moment ∧
      moment.known = (solver.run seeded).known ∧
      solver.context.EndsAt moment (solver.run seeded).error? := by
  obtain ⟨moment, _, traces, hknown, hend, -⟩ := solver.context.propagate_traces 0 seeded [] (Nat.lt_succ_self _)
  exact ⟨moment, traces.reaches, hknown, hend⟩

/-- The calls of a run are those on the way to its end, and that of the task that fails. -/
theorem run_traces (solver : Solver F) (publicValues secretValues : List F.Elem) :
    ∃ moment calls, solver.Traces publicValues secretValues calls moment ∧
      moment.known = (solver.run (solver.system.seed publicValues secretValues)).known ∧
      solver.context.EndsAt moment (solver.run (solver.system.seed publicValues secretValues)).error? ∧
      solver.calls publicValues secretValues = calls
        ++ ((solver.run (solver.system.seed publicValues secretValues)).error?.bind fun _ => moment.call?).toList :=
  solver.context.propagate_traces 0 _ [] (Nat.lt_succ_self _)

/-- The moment between a pass and the next one. -/
theorem visits_next {known : Knowledge F} {done tasks : List (Task F)}
    (visits : solver.Visits publicValues secretValues ⟨known, done, [], tasks⟩)
    (noError : (solver.context.pass tasks known).error? = none) :
    ∃ done', solver.Visits publicValues secretValues
      ⟨(solver.context.pass tasks known).known, done', [], (solver.context.pass tasks known).pending⟩ := by
  obtain ⟨⟨known', done', waiting, ahead⟩, _, traces, hknown, -, hend⟩ :=
    solver.context.pass_traces tasks known done []
  rw [noError] at hend
  obtain ⟨rfl, hwaiting⟩ := hend
  simp only [List.nil_append] at hknown hwaiting
  subst hknown hwaiting
  exact ⟨done', (visits.trans traces.reaches).tail .nextPass⟩

theorem value_witnessOf {known : Knowledge F} (wire : Wire) :
    (solver.witnessOf known).value wire = known.valueOrZero wire := by
  simp only [Witness.value, Wire.valueIn, witnessOf, Knowledge.valueOrZero, Knowledge.get?,
    Array.getD_eq_getD_getElem?, Array.getElem?_map]
  cases known.values[wire.index]? <;> rfl

end Solver

end ArithCircuit
