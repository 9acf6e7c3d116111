import ArithCircuit.Proofs.Witness.Confluence

/-!
# Supplied inputs

A constraint is solved for unknown wires alone, but a hint gives values to all of its outputs. So a known
wire keeps its value unless it is an output of a hint, and an input that no hint outputs is in the witness
as it was supplied.
-/

namespace ArithCircuit

variable {F : PrimeField}

theorem Knowledge.get?_learnAll_of_not_mem {known : Knowledge F} {wire : Wire} {wires : List Wire}
    (values : List F.Elem) (other : wire ∉ wires) : (known.learnAll wires values).get? wire = known.get? wire := by
  induction wires generalizing known values with
  | nil => rfl
  | cons first wires ih =>
      obtain ⟨different, later⟩ : wire ≠ first ∧ wire ∉ wires := by simpa using other
      cases values with
      | nil => rfl
      | cons x values => rw [learnAll_cons, ih values later, get?_learn, if_neg fun same => different same.1]

theorem SolvingContext.Learns.get?_eq {context : SolvingContext F} {known known' : Knowledge F} {task : Task F}
    (learns : context.Learns known task known') {wire : Wire} (hknown : (known.get? wire).isSome)
    (notOutput : ∀ b, task = .hint b → wire ∉ b.outputs) : known'.get? wire = known.get? wire := by
  cases learns with
  | fire _ => exact Knowledge.get?_learnAll_of_not_mem _ (notOutput _ rfl)
  | isolate isolates =>
      rw [Knowledge.get?_learn, if_neg]
      rintro ⟨rfl, -⟩
      simp [isolates.isNone] at hknown

namespace Solver

variable {solver : Solver F} {publicValues secretValues : List F.Elem} {wire : Wire}

/-- An input that no hint outputs has its supplied value at all moments. -/
theorem get?_of_visits (inRange : solver.system.InRange) {moment : Moment F}
    (visits : solver.Visits publicValues secretValues moment)
    (seeded : ((solver.system.seed publicValues secretValues).get? wire).isSome)
    (notOutput : ∀ b ∈ solver.system.hints, wire ∉ b.outputs) :
    moment.known.get? wire = (solver.system.seed publicValues secretValues).get? wire := by
  induction visits with
  | refl => rfl
  | @tail before after visits step ih =>
      have accounts := accounts_of_visits inRange visits
      cases step with
      | wait _ => exact ih
      | settle _ => exact ih
      | nextPass => exact ih
      | @learn known task known' done waiting ahead learned =>
          have htask : task ∈ solver.system.tasks := accounts.mem_tasks List.mem_cons_self
          rw [← ih]
          refine (SolvingContext.attempt_eq_learned.mp learned).get?_eq (ih ▸ seeded) ?_
          rintro b rfl
          exact notOutput b (System.mem_hints_of_task htask)

/-- If the inputs are distinct wires, each of them that no hint outputs is in the witness as it was
supplied. -/
theorem exists_supplied_of_solve (inRange : solver.system.InRange)
    (distinct : ((solver.system.publicInputs ++ solver.system.secretInputs).map (·.wire)).Nodup)
    (publicLength : publicValues.length = solver.system.publicInputs.length)
    (secretLength : secretValues.length = solver.system.secretInputs.length) {witness : Witness F}
    (solved : (solver.solve publicValues secretValues).1 = .ok witness) :
    ∃ value, solver.system.Supplied publicValues secretValues value ∧
      (∀ wire, solver.system.IsInput wire → (∀ b ∈ solver.system.hints, wire ∉ b.outputs) →
        witness.value wire = value wire) ∧
      witness.publicWires = solver.system.publicInputs.map (·.wire) ∧
      witness.secretWires = solver.system.secretInputs.map (·.wire) := by
  obtain ⟨moment, traces, rfl, -, -⟩ := exists_last witness solved
  obtain ⟨value, supplied, -⟩ :=
    System.exists_supplied distinct (Nat.le_of_eq publicLength.symm) (Nat.le_of_eq secretLength.symm)
  rw [List.take_of_length_le (Nat.le_of_eq publicLength),
    List.take_of_length_le (Nat.le_of_eq secretLength)] at supplied
  refine ⟨value, supplied, fun wire isInput notOutput => ?_, rfl, rfl⟩
  have seeded : ((solver.system.seed publicValues secretValues).get? wire).isSome :=
    supplied.isSome_seed.mpr ⟨isInput, inRange.input_lt isInput⟩
  have kept := get?_of_visits inRange traces.reaches seeded notOutput
  rw [value_witnessOf, Knowledge.valueOrZero, kept]
  exact supplied.seed_agrees.valueOrZero seeded

end Solver

end ArithCircuit
