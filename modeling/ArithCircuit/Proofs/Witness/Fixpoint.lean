import ArithCircuit.Proofs.Witness.Calls

/-!
# Underdetermined systems

A run that makes no progress while a value is missing is at a fixpoint: every hint that has not run lacks
an input, and no constraint with unknown wires can be solved for one.
-/

namespace ArithCircuit

open scoped Fin.CommRing

variable {F : PrimeField}

/-- A constraint with unknown wires that cannot be solved for one: two of them are unknown, a hint outputs the
only one, or the constraint is quadratic in it or does not depend on it. -/
inductive System.Blocks (system : System F) (known : Knowledge F) (c : Constraint F) : Prop
  | several {unknown unknown' : Wire} : unknown ∈ c.wires → unknown' ∈ c.wires → unknown ≠ unknown' →
      known.get? unknown = none → known.get? unknown' = none → Blocks system known c
  | output {unknown : Wire} {b : HintBinding} : SolvingContext.OnlyUnknown known c unknown → b ∈ system.hints →
      unknown ∈ b.outputs → Blocks system known c
  | quadratic {unknown : Wire} : SolvingContext.OnlyUnknown known c unknown →
      (c.polynomial known unknown).coeff 2 ≠ 0 → Blocks system known c
  | constant {unknown : Wire} : SolvingContext.OnlyUnknown known c unknown →
      (c.polynomial known unknown).coeff 1 = 0 → Blocks system known c

/-- The run has come to a moment at which the wire is the least one that lacks a needed value, and nothing more can
be done. The calls on the way, all of them answered, are those of the hints whose tasks are done. The hints whose
tasks wait, which are the others, lack inputs. Constraints with unknown wires cannot be solved. -/
structure Solver.Fixpoint (solver : Solver F) (publicValues secretValues : List F.Elem) (moment : Moment F)
    (wire : Nat) : Prop where
  traces : solver.Traces publicValues secretValues (solver.calls publicValues secretValues) moment
  tried : moment.ahead = []
  least : IsLeast {i | ⟨i⟩ ∈ solver.system.mentioned ∧ moment.known.get? ⟨i⟩ = none} wire
  called : (solver.calls publicValues secretValues).map (·.binding) = moment.done.filterMap Task.hint?
  answered : ∀ call ∈ solver.calls publicValues secretValues, ∃ outputs, solver.context.answer call = .ok outputs
  hints : (moment.done.filterMap Task.hint? ++ moment.waiting.filterMap Task.hint?).Perm solver.system.hints
  idle : ∀ b, Task.hint b ∈ moment.waiting → ∃ input ∈ b.inputs, moment.known.get? input = none
  constraints : ∀ c ∈ solver.system.constraints.toList, (∃ wire ∈ c.wires, moment.known.get? wire = none) →
    solver.system.Blocks moment.known c

theorem System.blocks_of_waiting {system : System F} {registry : HintRegistry} {known : Knowledge F} {index : Nat}
    {c : Constraint F} (waits : (SolvingContext.ofSystem registry system).resolve index c known = .ok .waiting) :
    system.Blocks known c := by
  rcases SolvingContext.resolve_waiting waits with
    ⟨unknown, mentions, unknown', mentions', different, isNone, isNone'⟩ | ⟨unknown, only, owned | unsolvable⟩
  · exact .several mentions mentions' different isNone isNone'
  · obtain ⟨-, b, hb, output⟩ := (SolvingContext.hintOwned_ofSystem unknown).mp owned
    exact .output only hb output
  · rcases Constraint.isolate?_eq_none.mp unsolvable with quadratic | constant
    · exact .quadratic only quadratic
    · exact .constant only constant

namespace Solver

variable {solver : Solver F} {publicValues secretValues : List F.Elem} {wire : Nat}

/-- A solve that reports a wire as underdetermined has come to its run, and the run got stuck. -/
theorem of_solve_underdetermined
    (stuck : (solver.solve publicValues secretValues).1 = .error (.underdetermined wire)) :
    (solver.run (solver.system.seed publicValues secretValues)).error? = some (.underdetermined wire) ∧
      (solver.solve publicValues secretValues).2.known
        = (solver.run (solver.system.seed publicValues secretValues)).known := by
  have starts : solver.Starts publicValues secretValues := by
    by_contra early
    obtain ⟨error, known, other, fails⟩ := exists_of_not_starts early
    cases (congrArg Prod.fst (fails solver.known solver.passes)).symm.trans stuck
    exact other wire rfl
  rw [starts.solve_eq, complete_eq] at stuck ⊢
  refine ⟨?_, rfl⟩
  rcases of_outcome_error stuck with stopped | ⟨_, _, violated⟩
  · exact stopped
  · cases violated

/-- A wire is reported as underdetermined at a fixpoint only, and it is the least wire that lacks a value. -/
theorem fixpoint_of_solve (solver : Solver F) (inRange : solver.system.InRange) (scheduled : solver.system.Scheduled)
    (stuck : (solver.solve publicValues secretValues).1 = .error (.underdetermined wire)) :
    ∃ moment, solver.Fixpoint publicValues secretValues moment wire ∧
      (solver.solve publicValues secretValues).2.known = moment.known := by
  obtain ⟨failed, same⟩ := of_solve_underdetermined stuck
  obtain ⟨moment, calls, traces, hknown, hend, hcalls⟩ := solver.run_traces publicValues secretValues
  have accounts := accounts_of_visits inRange traces.reaches
  rw [failed] at hend hcalls
  obtain ⟨least, tried, waiting⟩ : solver.context.leastUnknown? moment.known = some wire ∧ moment.ahead = [] ∧
      ∀ task ∈ moment.waiting, solver.context.attempt moment.known task = .ok .waiting := by
    rcases hend with ⟨task, -, fails⟩ | ⟨wire', reported, rest⟩
    · cases SolvingContext.fails_of_attempt fails
    · cases reported
      exact rest
  obtain rfl : solver.calls publicValues secretValues = calls := by simpa [Moment.call?, tried] using hcalls
  have tasks : (moment.done ++ moment.waiting).Perm solver.system.tasks := by
    simpa [tried] using accounts.tasks
  refine ⟨moment, ?_, same.trans hknown.symm⟩
  exact {
    traces
    tried
    least := SolvingContext.isLeast_leastUnknown? inRange.mentioned least
    called := by simpa using traces.called.symm
    answered := traces.answered
    hints := by
      rw [← List.filterMap_append]
      exact (tasks.filterMap Task.hint?).trans (System.perm_tasks scheduled)
    idle := fun b hb => by
      obtain ⟨input, hinput, unknown⟩ := SolvingContext.fire_waiting (waiting _ hb)
      exact ⟨input, hinput, Option.not_isSome_iff_eq_none.mp unknown⟩
    constraints := fun c hc lacks => by
      obtain ⟨unknown, mentions, isNone⟩ := lacks
      obtain ⟨i, hi⟩ : ∃ i, Task.constraint i c ∈ solver.system.tasks := constraint_mem_schedule 0 hc
      -- the constraint is not done, for then its wires would be known, so it waits
      rcases List.mem_append.mp (tasks.mem_iff.mpr hi) with finished | waits
      · have known := accounts.known _ finished unknown mentions
        simp [isNone] at known
      · exact System.blocks_of_waiting (waiting _ waits) }

/-- A secret `x`, its root `r`, a hint for the inverse of `r`, and a factor of `x + 3`. -/
def rootInverseSystem : System .seven where
  roles := [.secretInput, .internal, .internal, .internal]
  publicInputs := []
  secretInputs := [⟨⟨0⟩, "x"⟩]
  constraints := .rank1 [
    ⟨.ofWire ⟨1⟩, .ofWire ⟨1⟩, .ofWire ⟨0⟩⟩,
    ⟨.ofWire ⟨1⟩, .ofWire ⟨2⟩, .ofConstant 1⟩,
    ⟨.ofWire ⟨2⟩, .ofConstant 1, .ofWire ⟨0⟩⟩,
    ⟨(LinearCombination.ofConstant 3).addWire ⟨0⟩, .ofWire ⟨3⟩, .ofConstant 0⟩]
  hints := [⟨Hint.invertName, [⟨1⟩], [⟨2⟩], 1⟩]

/-- For four the root is missing. The hint lacks it, and the constraints are blocked in all four ways. -/
theorem fixpoint_rootInverseSystem :
    (({ system := rootInverseSystem, registry := .builtin } : Solver .seven).solve [] [4]).1
        = .error (.underdetermined 1) ∧
      ∃ moment, ({ system := rootInverseSystem, registry := .builtin } : Solver .seven).Fixpoint [] [4] moment 1 ∧
        (({ system := rootInverseSystem, registry := .builtin } : Solver .seven).solve [] [4]).2.known = moment.known :=
  have stuck : (({ system := rootInverseSystem, registry := .builtin } : Solver .seven).solve [] [4]).1
      = .error (.underdetermined 1) := by decide +kernel
  ⟨stuck, fixpoint_of_solve { system := rootInverseSystem, registry := .builtin } ⟨by decide, by decide⟩ (by decide)
    stuck⟩

end Solver

end ArithCircuit
