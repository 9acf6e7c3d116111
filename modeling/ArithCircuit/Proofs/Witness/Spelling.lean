import ArithCircuit.Proofs.Hint.Registrations
import ArithCircuit.Proofs.Witness.Outcome

/-!
# The spelling of hint names

A run asks for hints by their canonical names only. So a system whose hint names are spelled otherwise, with the same
canonical names, is solved in the same way, with the same outcome.
-/

namespace ArithCircuit

variable {F : PrimeField}

/-- The bindings differ in the spelling of the name at most. -/
structure HintBinding.SpelledLike (b b' : HintBinding) : Prop where
  name : canonicalName b.name = canonicalName b'.name
  inputs : b.inputs = b'.inputs
  outputs : b.outputs = b'.outputs
  position : b.position = b'.position

/-- The systems differ in the spelling of hint names at most. -/
structure System.SpelledLike (a b : System F) : Prop where
  roles : a.roles = b.roles
  publicInputs : a.publicInputs = b.publicInputs
  secretInputs : a.secretInputs = b.secretInputs
  constraints : a.constraints = b.constraints
  hints : List.Forall₂ HintBinding.SpelledLike a.hints b.hints

/-! ## Canonical spelling -/

def HintBinding.canonical (b : HintBinding) : HintBinding := { b with name := canonicalName b.name }

def Task.canonical : Task F → Task F
  | .hint b => .hint b.canonical
  | .constraint index c => .constraint index c

def System.canonical (system : System F) : System F :=
  { system with hints := system.hints.map HintBinding.canonical }

theorem HintBinding.SpelledLike.canonical_eq {b b' : HintBinding} (like : b.SpelledLike b') :
    b.canonical = b'.canonical := by
  rw [canonical, canonical, like.name, like.inputs, like.outputs, like.position]

theorem map_canonical_eq {bindings bindings' : List HintBinding}
    (like : List.Forall₂ HintBinding.SpelledLike bindings bindings') :
    bindings.map HintBinding.canonical = bindings'.map HintBinding.canonical := by
  induction like with
  | nil => rfl
  | cons first _ ih => rw [List.map_cons, List.map_cons, first.canonical_eq, ih]

theorem System.SpelledLike.canonical_eq {a b : System F} (like : a.SpelledLike b) : a.canonical = b.canonical := by
  rw [canonical, canonical, like.roles, like.publicInputs, like.secretInputs, like.constraints,
    map_canonical_eq like.hints]

theorem HintRegistry.check_canonical (registry : HintRegistry) (b : HintBinding) :
    registry.check b.canonical = registry.check b := by
  rw [check_eq, check_eq]
  exact congrArg _ (lookup_canonicalName b.inputs.length b.outputs.length)

theorem System.mentioned_canonical (system : System F) : system.canonical.mentioned = system.mentioned := by
  have wires : system.canonical.hints.flatMap (·.wires) = system.hints.flatMap (·.wires) :=
    List.flatMap_map HintBinding.canonical _ _
  rw [mentioned, wires]
  rfl

theorem System.hintError?_canonical (system : System F) (registry : HintRegistry) :
    system.canonical.hintError? registry = system.hintError? registry := by
  simp only [hintError?, canonical, List.findSome?_map, Function.comp_def, HintRegistry.check_canonical]

/-! ## Runs -/

theorem hintTasks_canonical (bindings : List HintBinding) (position : Nat) :
    hintTasks (bindings.map HintBinding.canonical) position
      = (hintTasks bindings position : List (Task F)).map Task.canonical := by
  simp only [hintTasks, List.filter_map, List.map_map]
  rfl

theorem schedule_canonical (bindings : List HintBinding) (index : Nat) (constraints : List (Constraint F)) :
    schedule (bindings.map HintBinding.canonical) index constraints
      = (schedule bindings index constraints).map Task.canonical := by
  induction constraints generalizing index with
  | nil => exact hintTasks_canonical bindings index
  | cons c rest ih => simp only [schedule, hintTasks_canonical, ih, List.map_append, List.map_cons, Task.canonical]

namespace SolvingContext

theorem ofSystem_canonical (registry : HintRegistry) (system : System F) :
    ofSystem registry system.canonical = ofSystem registry system := by
  have outputs : system.canonical.hints.flatMap (·.outputs) = system.hints.flatMap (·.outputs) :=
    List.flatMap_map HintBinding.canonical _ _
  rw [ofSystem, outputs, system.mentioned_canonical]
  rfl

variable (context : SolvingContext F)

theorem attempt_canonical (known : Knowledge F) (task : Task F) :
    context.attempt known task.canonical = context.attempt known task := by
  cases task with
  | hint b => simp only [Task.canonical, attempt, fire, HintBinding.canonical, HintRegistry.invoke_canonicalName]
  | constraint index c => rfl

theorem pass_canonical (tasks : List (Task F)) (known : Knowledge F) :
    context.pass (tasks.map Task.canonical) known
      = { context.pass tasks known with pending := (context.pass tasks known).pending.map Task.canonical } := by
  induction tasks generalizing known with
  | nil => rfl
  | cons task rest ih =>
      have same := context.attempt_canonical known task
      rw [List.map_cons]
      cases h : context.attempt known task with
      | error error => rw [pass_cons_error (same.trans h), pass_cons_error h, List.map_cons]
      | ok attempt =>
          cases attempt with
          | waiting => rw [pass_cons_waiting (same.trans h), pass_cons_waiting h, ih, List.map_cons]
          | settled => rw [pass_cons_settled (same.trans h), pass_cons_settled h, ih]
          | learned known' => rw [pass_cons_learned (same.trans h), pass_cons_learned h, ih]

theorem propagate_canonical (fuel passes : Nat) (tasks : List (Task F)) (known : Knowledge F) :
    context.propagate fuel passes (tasks.map Task.canonical) known = context.propagate fuel passes tasks known := by
  induction fuel generalizing passes tasks known with
  | zero => rfl
  | succ fuel ih =>
      have pass := context.pass_canonical tasks known
      cases context.round tasks known with
      | complete complete => rw [propagate_complete _ _ complete, propagate_complete _ _ complete]
      | failed unknown failed =>
          rw [propagate_failed unknown failed, propagate_failed unknown (by rw [pass, failed]), pass]
      | stuck unknown noError noProgress =>
          rw [propagate_stuck unknown noError noProgress,
            propagate_stuck unknown (by rw [pass, noError]) (by rw [pass, noProgress]), pass]
      | next unknown noError progress =>
          rw [propagate_next unknown noError progress,
            propagate_next unknown (by rw [pass, noError]) (by rw [pass, progress]), pass, ih]

end SolvingContext

/-! ## Solves -/

namespace Solver

variable (solver : Solver F) (publicValues secretValues : List F.Elem)

/-- The solver for the system with canonical names. -/
def canonical : Solver F := { solver with system := solver.system.canonical }

theorem run_canonical (seeded : Knowledge F) : solver.canonical.run seeded = solver.run seeded := by
  have context : solver.canonical.context = solver.context :=
    SolvingContext.ofSystem_canonical solver.registry solver.system
  have tasks : solver.canonical.system.tasks = solver.system.tasks.map Task.canonical :=
    schedule_canonical solver.system.hints 0 solver.system.constraints.toList
  rw [run, context, tasks, List.length_map, SolvingContext.propagate_canonical, run]

theorem solve_canonical : solver.canonical.solve publicValues secretValues
    = ((solver.solve publicValues secretValues).1, (solver.solve publicValues secretValues).2.canonical) := by
  have checks := solver.system.hintError?_canonical solver.registry
  have mentioned := solver.system.mentioned_canonical
  cases solver.stage publicValues secretValues with
  | unfit found =>
      rw [solve_unfit solver found, solve_unfit solver.canonical (checks.trans found)]
      rfl
  | publicRefused checked refused =>
      rw [solve_publicRefused solver checked refused,
        solve_publicRefused solver.canonical (checks.trans checked) refused]
      rfl
  | secretRefused checked accepted refused =>
      rw [solve_secretRefused solver checked accepted refused,
        solve_secretRefused solver.canonical (checks.trans checked) accepted refused]
      rfl
  | outOfRange checked accepted accepted' out =>
      rw [solve_outOfRange solver checked accepted accepted' out,
        solve_outOfRange solver.canonical (checks.trans checked) accepted accepted' (mentioned ▸ out)]
      rfl
  | runs starts =>
      have starts' : solver.canonical.Starts publicValues secretValues :=
        ⟨checks.trans starts.checked, starts.publicAccepted, starts.secretAccepted, mentioned ▸ starts.mentioned⟩
      rw [starts.solve_eq, starts'.solve_eq, complete_eq, complete_eq, run_canonical]
      rfl

/-- The spelling of hint names makes no difference to a solve. -/
theorem solve_spelledLike {system : System F} (like : solver.system.SpelledLike system) :
    ({ solver with system }.solve publicValues secretValues).1 = (solver.solve publicValues secretValues).1 ∧
      ({ solver with system }.solve publicValues secretValues).2.known
        = (solver.solve publicValues secretValues).2.known ∧
      ({ solver with system }.solve publicValues secretValues).2.passes
        = (solver.solve publicValues secretValues).2.passes := by
  -- The two solvers have one canonical form, and each does what that does.
  have same : { solver with system }.canonical = solver.canonical := by
    rw [canonical, canonical, like.canonical_eq]
  have solves := { solver with system }.solve_canonical publicValues secretValues
  rw [same, solver.solve_canonical publicValues secretValues, Prod.mk.injEq] at solves
  exact ⟨solves.1.symm, (congrArg Solver.known solves.2.symm :), (congrArg Solver.passes solves.2.symm :)⟩

end Solver

/-! ## Registries -/

namespace HintRegistry

/-- Registries are maps of canonical names in which the first registration wins, for every sequence of requests.
What a name gives does not depend on its spelling, and neither does the outcome of a solve. -/
theorem first_registration_wins {start : HintRegistry} (starts : start = .builtin ∨ start = .empty)
    (requests : List Registration) :
    (start.afterAll requests).Ordered ∧
    (∀ request, (start.afterAll requests).Handles request) ∧
    (start.afterAll requests).AnswersBy (start.hints ++ (start.granted requests).map Registration.hint) ∧
    (∀ name name', canonicalName name = canonicalName name' →
      (∀ modulus inputs outputs, (start.afterAll requests).invoke name modulus inputs outputs
        = (start.afterAll requests).invoke name' modulus inputs outputs) ∧
      ∀ b : HintBinding, (start.afterAll requests).check { b with name }
        = (start.afterAll requests).check { b with name := name' }) ∧
    ∀ (F : PrimeField) (solver : Solver F) (system : System F), solver.registry = start.afterAll requests →
      solver.system.SpelledLike system → ∀ publicValues secretValues,
        ({ solver with system }.solve publicValues secretValues).1 = (solver.solve publicValues secretValues).1 ∧
          ({ solver with system }.solve publicValues secretValues).2.known
            = (solver.solve publicValues secretValues).2.known ∧
          ({ solver with system }.solve publicValues secretValues).2.passes
            = (solver.solve publicValues secretValues).2.passes := by
  have ordered : start.Ordered := by
    rcases starts with rfl | rfl
    · exact ordered_builtin
    · exact ordered_empty
  refine ⟨ordered.afterAll requests, handles _, answersBy_afterAll start requests, fun name name' same => ⟨?_, ?_⟩,
    fun F solver system _ like publicValues secretValues =>
      solver.solve_spelledLike publicValues secretValues like⟩
  · intro modulus inputs outputs
    rw [← invoke_canonicalName, same, invoke_canonicalName]
  · intro b
    have canonical : ({ b with name } : HintBinding).canonical = ({ b with name := name' } : HintBinding).canonical := by
      simp only [HintBinding.canonical, same]
    rw [← check_canonical, canonical, check_canonical]

/-- A callback whose name is not canonical, and a later one with the canonical name. -/
def doubling : Registration := ⟨"main.init.func1", .exactly 1, .exactly 1, fun _ inputs _ => .ok [2 * inputs.getD 0 0]⟩

def tripling : Registration := ⟨"main.glob..func1", .any, .any, fun _ inputs _ => .ok [3 * inputs.getD 0 0]⟩

/-- A solver for a secret and what the hint of a name gives for it. -/
def callbackSolver (name : String) : Solver .seven where
  system := {
    roles := [.secretInput, .internal]
    publicInputs := []
    secretInputs := [⟨⟨0⟩, "x"⟩]
    constraints := .rank1 [⟨.ofWire ⟨1⟩, .ofConstant 1, .ofWire ⟨1⟩⟩]
    hints := [⟨name, [⟨0⟩], [⟨1⟩], 0⟩] }
  registry := HintRegistry.builtin.afterAll [doubling, tripling]

/-- The second callback is refused, and its name gives what the first one gives. -/
theorem doubling_wins :
    (HintRegistry.builtin.afterAll [doubling]).contains tripling.name = true ∧
    (HintRegistry.builtin.afterAll [doubling]).after tripling = HintRegistry.builtin.afterAll [doubling] ∧
    doubling.hint.Gives 7 [5] 1 ((HintRegistry.builtin.afterAll [doubling, tripling]).invoke tripling.name 7 [5] 1) ∧
    canonicalName doubling.name = canonicalName tripling.name ∧
    ((callbackSolver tripling.name).solve [] [5]).1 = ((callbackSolver doubling.name).solve [] [5]).1 := by
  have taken : (HintRegistry.builtin.afterAll [doubling]).contains tripling.name = true := by decide +kernel
  have same : canonicalName doubling.name = canonicalName tripling.name := by decide +kernel
  obtain ⟨-, -, answers, -, solves⟩ := first_registration_wins (.inl rfl) [doubling, tripling]
  refine ⟨taken, ((first_registration_wins (.inl rfl) [doubling]).2.1 tripling).refused taken, ?_, same, ?_⟩
  · exact answers.gives tripling.name doubling.hint rfl 7 [5] 1
  · exact (solves .seven (callbackSolver doubling.name) (callbackSolver tripling.name).system rfl
      ⟨rfl, rfl, rfl, rfl, .cons ⟨same, rfl, rfl, rfl⟩ .nil⟩ [] [5]).1

end HintRegistry

end ArithCircuit
