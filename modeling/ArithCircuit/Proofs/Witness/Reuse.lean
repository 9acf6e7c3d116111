import ArithCircuit.Hint.Builtin
import ArithCircuit.Proofs.Witness.Outcome

/-!
# Solving several times

A solve that comes to its run leaves nothing of what the solver kept before. A solve that fails earlier leaves the
number of passes as it was, and nothing else. So a solver that has been used before gives the outcome of a new one
and knows the same, but its passes are those of the last solve that came to its run.
-/

namespace ArithCircuit.Solver

variable {F : PrimeField} {solver : Solver F} {publicValues secretValues : List F.Elem}

/-- The solver before it has solved anything. -/
def fresh (solver : Solver F) : Solver F := solver.used {} 0

/-- The solver after solving for some inputs, one after the other. -/
def solveAll (solver : Solver F) (inputs : List (List F.Elem × List F.Elem)) : Solver F :=
  inputs.foldl (fun solver (publicValues, secretValues) => (solver.solve publicValues secretValues).2) solver

/-! ## One solve -/

theorem starts_fresh : solver.fresh.Starts publicValues secretValues ↔ solver.Starts publicValues secretValues :=
  ⟨fun ⟨checked, publicAccepted, secretAccepted, mentioned⟩ => ⟨checked, publicAccepted, secretAccepted, mentioned⟩,
    fun ⟨checked, publicAccepted, secretAccepted, mentioned⟩ => ⟨checked, publicAccepted, secretAccepted, mentioned⟩⟩

theorem starts_congr {solver' : Solver F} (same : solver'.fresh = solver.fresh) :
    solver'.Starts publicValues secretValues ↔ solver.Starts publicValues secretValues := by
  rw [← starts_fresh, same, starts_fresh]

/-- A solve that comes to its run forgets everything. -/
theorem Starts.solve_fresh (starts : solver.Starts publicValues secretValues) :
    solver.solve publicValues secretValues = solver.fresh.solve publicValues secretValues := by
  rw [starts.solve_eq, (starts_fresh.mpr starts).solve_eq, complete_eq, complete_eq]
  rfl

/-- A solve that does not come to its run keeps the passes, and forgets the rest. -/
theorem solve_of_not_starts (early : ¬ solver.Starts publicValues secretValues) :
    solver.solve publicValues secretValues
      = ((solver.fresh.solve publicValues secretValues).1,
        { (solver.fresh.solve publicValues secretValues).2 with passes := solver.passes }) := by
  obtain ⟨error, known, -, fails⟩ := exists_of_not_starts early
  have now : solver.solve publicValues secretValues = _ := fails solver.known solver.passes
  have new : solver.fresh.solve publicValues secretValues = _ := fails {} 0
  rw [now, new]
  rfl

/-- Solving does not change what is solved. -/
theorem fresh_solve (solver : Solver F) (publicValues secretValues : List F.Elem) :
    (solver.solve publicValues secretValues).2.fresh = solver.fresh := by
  by_cases starts : solver.Starts publicValues secretValues
  · rw [starts.solve_eq, complete_eq]
    rfl
  · obtain ⟨error, known, -, fails⟩ := exists_of_not_starts starts
    have now : solver.solve publicValues secretValues = _ := fails solver.known solver.passes
    rw [now]
    rfl

/-! ## Several solves -/

variable {inputs : List (List F.Elem × List F.Elem)}

theorem solveAll_append (solver : Solver F) (before after : List (List F.Elem × List F.Elem)) :
    solver.solveAll (before ++ after) = (solver.solveAll before).solveAll after :=
  List.foldl_append

theorem fresh_solveAll (solver : Solver F) (inputs : List (List F.Elem × List F.Elem)) :
    (solver.solveAll inputs).fresh = solver.fresh := by
  induction inputs generalizing solver with
  | nil => rfl
  | cons first rest ih => exact (ih _).trans (fresh_solve solver first.1 first.2)

/-- Solves that do not come to their runs keep the passes. -/
theorem passes_solveAll (early : ∀ call ∈ inputs, ¬ solver.Starts call.1 call.2) :
    (solver.solveAll inputs).passes = solver.passes := by
  induction inputs generalizing solver with
  | nil => rfl
  | cons first rest ih =>
      obtain ⟨earlyFirst, earlyRest⟩ := List.forall_mem_cons.mp early
      have kept : (solver.solve first.1 first.2).2.passes = solver.passes := by
        rw [solve_of_not_starts earlyFirst]
      refine (ih fun call hcall starts => earlyRest call hcall ?_).trans kept
      exact (starts_congr (fresh_solve solver first.1 first.2)).mp starts

/-- These are the last inputs of the list for which a solve comes to its run. -/
def LastRun (solver : Solver F) (inputs : List (List F.Elem × List F.Elem)) (publicValues secretValues : List F.Elem) :
    Prop :=
  ∃ before after, inputs = before ++ (publicValues, secretValues) :: after ∧
    solver.Starts publicValues secretValues ∧ ∀ call ∈ after, ¬ solver.Starts call.1 call.2

theorem LastRun.passes (last : solver.LastRun inputs publicValues secretValues) :
    (solver.solveAll inputs).passes = (solver.fresh.solve publicValues secretValues).2.passes := by
  obtain ⟨before, after, rfl, starts, early⟩ := last
  have comes : (solver.solveAll before).solve publicValues secretValues
      = solver.fresh.solve publicValues secretValues := by
    rw [((starts_congr (fresh_solveAll solver before)).mpr starts).solve_fresh, fresh_solveAll]
  have same : (solver.fresh.solve publicValues secretValues).2.fresh = solver.fresh := fresh_solve solver.fresh _ _
  rw [solveAll_append]
  change (((solver.solveAll before).solve publicValues secretValues).2.solveAll after).passes = _
  rw [comes]
  exact passes_solveAll fun call hcall starts => early call hcall ((starts_congr same).mp starts)

/-- What is left of earlier solves: the passes of the last one that came to its run. -/
structure Forgets (solver : Solver F) (earlier : List (List F.Elem × List F.Elem))
    (publicValues secretValues : List F.Elem) : Prop where
  outcome : ((solver.solveAll earlier).solve publicValues secretValues).1
    = (solver.fresh.solve publicValues secretValues).1
  known : ((solver.solveAll earlier).solve publicValues secretValues).2.known
    = (solver.fresh.solve publicValues secretValues).2.known
  passes : ∀ publicValues' secretValues',
    solver.LastRun (earlier ++ [(publicValues, secretValues)]) publicValues' secretValues' →
    ((solver.solveAll earlier).solve publicValues secretValues).2.passes
      = (solver.fresh.solve publicValues' secretValues').2.passes
  passes_unused : (∀ call ∈ earlier ++ [(publicValues, secretValues)], ¬ solver.Starts call.1 call.2) →
    ((solver.solveAll earlier).solve publicValues secretValues).2.passes = solver.passes

/-- A solver that has been used before gives the outcome of a new one and knows the same. -/
theorem solve_forgets (solver : Solver F) (earlier : List (List F.Elem × List F.Elem))
    (publicValues secretValues : List F.Elem) : solver.Forgets earlier publicValues secretValues := by
  have last : ((solver.solveAll earlier).solve publicValues secretValues).2
      = solver.solveAll (earlier ++ [(publicValues, secretValues)]) :=
    (solveAll_append solver earlier [(publicValues, secretValues)]).symm
  have same : ((solver.solveAll earlier).solve publicValues secretValues).1
        = (solver.fresh.solve publicValues secretValues).1 ∧
      ((solver.solveAll earlier).solve publicValues secretValues).2.known
        = (solver.fresh.solve publicValues secretValues).2.known := by
    by_cases starts : (solver.solveAll earlier).Starts publicValues secretValues
    · rw [starts.solve_fresh, fresh_solveAll]
      exact ⟨rfl, rfl⟩
    · rw [solve_of_not_starts starts, fresh_solveAll]
      exact ⟨rfl, rfl⟩
  exact {
    outcome := same.1
    known := same.2
    passes := fun _ _ lastRun => last ▸ lastRun.passes
    passes_unused := fun early => last ▸ passes_solveAll early }

/-- The square of a secret. -/
def squareSystem : System .seven where
  roles := [.secretInput, .internal]
  publicInputs := []
  secretInputs := [⟨⟨0⟩, "x"⟩]
  constraints := .rank1 [⟨.ofWire ⟨0⟩, .ofWire ⟨0⟩, .ofWire ⟨1⟩⟩]
  hints := []

/-- A solve without the secret takes no pass, but a solver that has been used before shows the pass of then. -/
theorem squareSystem_keeps_passes :
    (({ system := squareSystem, registry := .builtin } : Solver .seven).solve [] []).2.passes = 0 ∧
      ((({ system := squareSystem, registry := .builtin } : Solver .seven).solveAll [([], [2])]).solve [] []).2.passes
        = 1 := by
  decide +kernel

end ArithCircuit.Solver
