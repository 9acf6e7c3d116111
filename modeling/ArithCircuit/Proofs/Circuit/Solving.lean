import ArithCircuit.Proofs.Circuit.Completeness
import ArithCircuit.Proofs.Witness.SinglePass

/-!
# Solving a compiled circuit is running it

A compiled circuit is solved in one pass, with the values of its evaluation, or the solver stops
where the evaluation does.
-/

namespace ArithCircuit

variable {F : PrimeField} {κ : Type} [ConstraintForm F κ] [LawfulForm F κ] {registry : HintRegistry}
  {given : Supply F}

/-! ## Systems of drafts -/

namespace Draft

variable {d : Draft F κ}

@[simp]
theorem constraints_toSystem :
    (d.toSystem ConstraintForm.collect).constraints.toList = d.constraints.toList.map toConstraint :=
  LawfulForm.toList_collect _

theorem tasks_toSystem : (d.toSystem ConstraintForm.collect).tasks = d.tasks := by
  rw [System.tasks, constraints_toSystem, tasks]
  rfl

theorem Coherent.straight (coherent : d.Coherent) : (d.toSystem ConstraintForm.collect).Straight where
  inRange := {
    inputs := fun input hinput => coherent.inputs input.wire ⟨input, hinput, rfl⟩
    mentioned := fun wire hwire => by
      rcases System.mem_mentioned.mp hwire with ⟨c, hc, hwire⟩ | ⟨b, hb, hwire⟩
      · rw [constraints_toSystem] at hc
        obtain ⟨c, hmem, rfl⟩ := List.mem_map.mp hc
        exact coherent.constraint_lt hmem wire hwire
      · exact coherent.hint_lt hb wire hwire }
  positions b hb := by simpa using coherent.positions b hb
  tasks := by
    rw [tasks_toSystem]
    exact coherent.tasks

end Draft

/-! ## Supplied inputs -/

theorem map_getD_range {values : List F.Elem} {n : Nat} (h : n ≤ values.length) :
    (List.range n).map (values.getD · 0) = values.take n := by
  apply List.ext_getElem (by simpa using h)
  intro i hi hi'
  simp at hi hi'
  simp [hi'.2]

theorem TakesFrom.eq_of_length {values : List F.Elem} {inputs : List Input} {value : Wire → F.Elem}
    (takes : TakesFrom values inputs value) (length : values.length = inputs.length) :
    inputs.map (fun input => value input.wire) = values := by
  rw [takes, map_getD_range (Nat.le_of_eq length.symm), ← length, List.take_length]

/-- Inputs that have their values keep them when later ones are supplied. -/
theorem TakesFrom.eq_of_extended {values : List F.Elem} {inputs inputs' : List Input}
    {value supplied : Wire → F.Elem} {n : Nat} (takes : TakesFrom values inputs value)
    (extended : ExtendedBy (fun input => n ≤ input.wire.index) inputs inputs')
    (whole : inputs'.map (fun input => supplied input.wire) = values) :
    inputs'.map (fun input => if input.wire.index < n then value input.wire else supplied input.wire) = values := by
  obtain ⟨new, rfl, later⟩ := extended
  have length : inputs.length ≤ values.length := by simp [← whole]
  have old : inputs.map (fun input => value input.wire) = inputs.map fun input => supplied input.wire := by
    rw [takes, map_getD_range length, ← whole, List.map_append, List.take_left' (by simp)]
  refine Eq.trans (List.map_congr_left fun input hinput => ?_) whole
  split
  · rename_i lt
    rcases List.mem_append.mp hinput with hinput | hinput
    · exact List.map_inj_left.mp old input hinput
    · exact absurd lt (Nat.not_lt_of_le (later input hinput))
  · rfl

namespace Stage

variable {s : Stage registry given κ} {d : Draft F κ}

theorem solution (s : Stage registry given κ)
    (publicLength : given.publicValues.length = s.draft.wires.publicInputs.size)
    (secretLength : given.secretValues.length = s.draft.wires.secretInputs.size) :
    (s.draft.toSystem ConstraintForm.collect).Solution registry given.publicValues given.secretValues s.value where
  publicInputs := s.honest.publicInputs.eq_of_length (by simpa using publicLength)
  secretInputs := s.honest.secretInputs.eq_of_length (by simpa using secretLength)
  satisfied := Draft.satisfied_toSystem.mpr s.honest.accepts
  hintsAgree := s.honest.hints

/-- Later inputs may be supplied as well. -/
theorem exists_supplied (s : Stage registry given κ) (grows : s.draft.Grows d) (coherent : d.Coherent)
    (publicLength : given.publicValues.length = d.wires.publicInputs.size)
    (secretLength : given.secretValues.length = d.wires.secretInputs.size) :
    ∃ value, AgreeBelow s.draft.size s.value value ∧
      (d.toSystem ConstraintForm.collect).Supplied given.publicValues given.secretValues value := by
  have lengths : ((d.wires.publicInputs.toList ++ d.wires.secretInputs.toList).map Input.wire).length
      = (given.publicValues ++ given.secretValues).length := by
    simp [publicLength, secretLength]
  obtain ⟨supplied, hsupplied⟩ := exists_map_eq coherent.distinct lengths
  rw [List.map_map, List.map_append] at hsupplied
  obtain ⟨hpublic, hsecret⟩ := List.append_inj hsupplied (by simp [publicLength])
  exact ⟨fun wire => if wire.index < s.draft.size then s.value wire else supplied wire,
    fun wire hwire => (if_pos hwire).symm,
    s.honest.publicInputs.eq_of_extended grows.publicInputs hpublic,
    s.honest.secretInputs.eq_of_extended grows.secretInputs hsecret⟩

end Stage

/-! ## Outcomes -/

/-- The solver gives the error of the hint, or reports a constraint as violated. -/
inductive Stop.Reported : Stop → Except (SolveError F) (Witness F) → Prop
  | hint (error : HintError) : Reported (.hint error) (.error (.hint error))
  | violated (index : Nat) (violation : Violation F) : Reported .violated (.error (.violated index violation))

section Solver

variable {solver : Solver F} {d : Draft F κ} (system : solver.system = d.toSystem ConstraintForm.collect)
  (coherent : d.Coherent) {s : Stage solver.registry given κ}
include system coherent

/-- The solver comes to the task behind a stage. -/
theorem Stage.exists_stopsAt {d' : Draft F κ} {task : Task F} (tasks : d'.tasks = s.draft.tasks ++ [task])
    (behind : s.draft.Grows d') (grows : d'.Grows d)
    (publicLength : given.publicValues.length = d.wires.publicInputs.size)
    (secretLength : given.secretValues.length = d.wires.secretInputs.size) :
    ∃ value, AgreeBelow s.draft.size s.value value ∧
      solver.StopsAt given.publicValues given.secretValues value s.draft.size task := by
  have grew := behind.trans grows
  obtain ⟨value, agree, supplied⟩ := s.exists_supplied grew coherent publicLength secretLength
  rw [← system] at supplied
  obtain ⟨ahead, later⟩ := grows.tasks_prefix
  have split : solver.system.tasks = s.draft.tasks ++ task :: ahead := by
    rw [system, Draft.tasks_toSystem, ← later, tasks, List.append_assoc]
    rfl
  have accepts := (s.coherent.accepts_of_agree agree).mp s.honest.accepts
  have hints := s.honest.respected s.coherent agree
  refine ⟨value, agree, supplied,
    ⟨s.draft.IsInput, s.draft.tasks, ahead, split, s.coherent.tasks, ?_, ?_, ?_⟩, ?_⟩
  · rintro wire ⟨input, hinput, rfl⟩
    rw [system]
    refine ⟨input, ?_, rfl⟩
    rcases List.mem_append.mp hinput with h | h
    · exact List.mem_append_left _ (grew.publicInputs.mem h)
    · exact List.mem_append_right _ (grew.secretInputs.mem h)
  · intro task htask
    rcases mem_schedule htask with ⟨b, hb, rfl⟩ | ⟨i, c, hc, rfl⟩
    · exact hints b hb
    · obtain ⟨c, hmem, rfl⟩ := List.mem_map.mp hc
      exact accepts c hmem
  · intro b hb wire hwire
    have straight := coherent.tasks
    have mem : Task.hint b ∈ d.tasks := by
      rw [← Draft.tasks_toSystem, ← system, split]
      exact List.mem_append_right _ hb
    rw [← Draft.tasks_toSystem, ← system, split] at straight
    -- a hint of the stage does not come again, since it has an output
    obtain ⟨new, hints', fresh⟩ := grew.hints
    rcases List.mem_append.mp (hints' ▸ Draft.mem_hints_of_task mem) with old | new
    · exact absurd hwire (straight.not_mem_outputs (s.coherent.hint_mem_tasks old) hb wire)
    · exact (fresh b new).2 wire hwire
  · rw [system]
    exact grew.size_le

/-- The solver reports what the evaluation stops at. -/
theorem Stage.StopsIn.solve (prime : F.modulus.Prime)
    (checked : solver.system.hintError? solver.registry = none)
    (publicLength : given.publicValues.length = d.wires.publicInputs.size)
    (secretLength : given.secretValues.length = d.wires.secretInputs.size) {stop : Stop} (stopsIn : s.StopsIn d stop) :
    stop.Reported (solver.solve given.publicValues given.secretValues).1 ∧
      (solver.solve given.publicValues given.secretValues).2.passes ≤ 1 := by
  have straight := coherent.straight
  rw [← system] at straight
  cases stopsIn with
  | @hint b n error inputs outputs position asks failed grows =>
      have behind : s.draft.Grows ((s.draft.freshMany n).bind b) := .bind (Nat.le_of_eq position.symm) outputs
      obtain ⟨value, agree, stopsAt⟩ := s.exists_stopsAt system coherent (Draft.tasks_bind position) behind grows
        publicLength secretLength
      have same : b.inputs.map (fun wire => (s.value wire).val) = b.inputs.map fun wire => (value wire).val :=
        List.map_congr_left fun wire hwire => by rw [agree wire (inputs wire hwire)]
      have length : b.outputs.length = n := by rw [outputs, Wire.length_span]
      rw [same, ← length] at failed
      have bound : b ∈ d.hints.toList := grows.hints.mem (by simp [Draft.bind])
      have fits : solver.registry.check b = .ok () := System.hintError?_eq_none.mp checked b (system ▸ bound)
      obtain ⟨known, found⟩ := HintRegistry.check_eq_ok.mp fits
      have output : ⟨s.draft.size⟩ ∈ b.outputs := by
        rw [outputs]
        exact Wire.mem_span.mpr ⟨Nat.le_refl _, Nat.lt_add_of_pos_right (asks known (length ▸ found))⟩
      have internal : ¬ solver.system.IsInput ⟨s.draft.size⟩ := by
        rw [system]
        exact coherent.internal b bound _ output
      obtain ⟨reported, passes⟩ := Solver.solve_stops_hint prime straight checked stopsAt inputs failed output internal
      exact ⟨reported ▸ .hint error, passes⟩
  | @violated c wires fails grows =>
      obtain ⟨value, agree, stopsAt⟩ := s.exists_stopsAt system coherent (s.coherent.tasks_emit c) (.emit c) grows
        publicLength secretLength
      obtain ⟨after, hafter, -⟩ := grows.constraints
      have split : solver.system.constraints.toList
          = s.draft.constraints.toList.map toConstraint ++ toConstraint c :: after.map toConstraint := by
        rw [system, Draft.constraints_toSystem, hafter]
        simp [Draft.emit]
      have index : s.draft.constraints.size = (s.draft.constraints.toList.map toConstraint).length := by simp
      rw [index] at stopsAt
      have holds : ∀ c ∈ s.draft.constraints.toList.map toConstraint, c.Holds value :=
        List.forall_mem_map.mpr ((s.coherent.accepts_of_agree agree).mp s.honest.accepts)
      rw [Constraint.holds_congr fun wire hwire => agree wire (wires wire hwire)] at fails
      obtain ⟨violation, violated⟩ := Option.ne_none_iff_exists'.mp (mt Constraint.violation?_eq_none.mp fails)
      obtain ⟨reported, passes⟩ :=
        Solver.solve_stops_constraint prime straight checked split stopsAt holds wires violated
      exact ⟨reported ▸ .violated _ violation, passes⟩

end Solver

/-- The step gave expressions, and these are their values. -/
def StepRecord.Gives (record : StepRecord F) (value : Wire → F.Elem) (vs : List F.Elem) : Prop :=
  ∃ xs, record.outcome = .ok xs ∧ xs.map (·.evalWith value) = vs

/-- The solver finds the values of all results, for the supplied inputs, or it reports why the
evaluation stops. -/
inductive SameOutcome (transcript : List (StepRecord F)) (supply : Supply F) :
    Except Stop (List (List F.Elem)) → Except (SolveError F) (Witness F) → Prop
  | results {results : List (List F.Elem)} {witness : Witness F}
      (publicValues : witness.publicValues = supply.publicValues)
      (secretValues : witness.secretValues = supply.secretValues)
      (values : List.Forall₂ (fun record vs => record.Gives witness.value vs) transcript results) :
      SameOutcome transcript supply (.ok results) (.ok witness)
  | stops {stop : Stop} {outcome : Except (SolveError F) (Witness F)} (reported : stop.Reported outcome) :
      SameOutcome transcript supply (.error stop) outcome

theorem SameOutcome.not_underdetermined {transcript : List (StepRecord F)} {supply : Supply F}
    {evaluation : Except Stop (List (List F.Elem))} {outcome : Except (SolveError F) (Witness F)}
    (same : SameOutcome transcript supply evaluation outcome) (wire : Nat) :
    outcome ≠ .error (.underdetermined wire) := by
  rintro rfl
  cases same with
  | stops reported => cases reported

theorem SameOutcome.solved_iff {transcript : List (StepRecord F)} {supply : Supply F}
    {evaluation : Except Stop (List (List F.Elem))} {outcome : Except (SolveError F) (Witness F)}
    (same : SameOutcome transcript supply evaluation outcome) :
    (∃ witness, outcome = .ok witness) ↔ ∃ results, evaluation = .ok results := by
  cases same with
  | results => simp
  | stops reported => cases reported <;> simp

/-- The values of a stage are those of an assignment that agrees with it. -/
theorem StepRecord.HasValues.gives {s : Stage registry given κ} {record : StepRecord F} {vs : List F.Elem}
    (h : record.HasValues s vs) {value : Wire → F.Elem} (agree : AgreeBelow s.draft.size s.value value) :
    record.Gives value vs := by
  obtain ⟨xs, outcome, hxs⟩ := h
  refine ⟨xs, outcome, ?_⟩
  rw [← hxs.eq]
  exact List.map_congr_left fun x hx => ((hxs.below x hx).evalWith_congr agree).symm

theorem Definition.Follows.solve {solver : Solver F} {definition : Definition F κ}
    {s : Stage solver.registry given κ} {evaluation : Except Stop (List (List F.Elem) × Supply F)}
    (follows : Definition.Follows s definition evaluation) (prime : F.modulus.Prime)
    (coherent : definition.draft.Coherent)
    (system : solver.system = definition.draft.toSystem ConstraintForm.collect)
    (checked : solver.system.hintError? solver.registry = none)
    (publicLength : given.publicValues.length = definition.draft.wires.publicInputs.size)
    (secretLength : given.secretValues.length = definition.draft.wires.secretInputs.size) :
    SameOutcome definition.transcript given (Prod.fst <$> evaluation)
        (solver.solve given.publicValues given.secretValues).1 ∧
      (solver.solve given.publicValues given.secretValues).2.passes ≤ 1 := by
  cases follows with
  | stops last stopsIn =>
      obtain ⟨reported, passes⟩ := stopsIn.solve system coherent prime checked publicLength secretLength
      exact ⟨.stops reported, passes⟩
  | completes after draft grows values =>
      rw [draft] at coherent system publicLength secretLength
      have solution := after.solution publicLength secretLength
      have straight := coherent.straight
      rw [← system] at solution straight
      obtain ⟨witness, solved, passes, agree, publicWires, secretWires⟩ :=
        Solver.solve_straight prime straight checked solution
      have agree' : AgreeBelow after.draft.size after.value witness.value := fun wire hwire =>
        (agree wire (by rw [system]; exact hwire)).symm
      rw [solved]
      refine ⟨.results ?_ ?_ (values.imp fun _ _ h => h.gives agree'), passes⟩
      · rw [Witness.publicValues, publicWires, List.map_map, ← solution.publicInputs]
        exact List.map_congr_left fun input hinput =>
          agree _ (straight.inRange.inputs input (List.mem_append_left _ hinput))
      · rw [Witness.secretValues, secretWires, List.map_map, ← solution.secretInputs]
        exact List.map_congr_left fun input hinput =>
          agree _ (straight.inRange.inputs input (List.mem_append_right _ hinput))

namespace Circuit

def AsksSome (circuit : Circuit F) : Prop := ∀ step ∈ circuit.steps, step.operation.asksSome

instance (circuit : Circuit F) : Decidable circuit.AsksSome :=
  inferInstanceAs (Decidable (∀ step ∈ circuit.steps, step.operation.asksSome))

theorem define_solves (κ : Type) [ConstraintForm F κ] [LawfulForm F κ] (prime : F.modulus.Prime)
    {circuit : Circuit F} (closed : circuit.Closed) {sharesConstants : Bool} {number : Nat} {solver : Solver F}
    (asks : ∀ step ∈ circuit.steps, step.operation.asksSome ∨ solver.registry.IsLenient)
    (compiled : (circuit.define κ sharesConstants number).compilation.result = .ok solver.system)
    (succeeded : circuit.keepsGoing = true →
      ∀ record ∈ (circuit.define κ sharesConstants number).transcript, record.Succeeded)
    (answers : solver.registry.AnswersBuiltin)
    (checked : solver.system.hintError? solver.registry = none) {supply : Supply F}
    (publicLength : supply.publicValues.length = solver.system.publicInputs.length)
    (secretLength : supply.secretValues.length = solver.system.secretInputs.length) :
    SameOutcome (circuit.define κ sharesConstants number).transcript supply
        (circuit.evaluate solver.registry number supply)
        (solver.solve supply.publicValues supply.secretValues).1 ∧
      (solver.solve supply.publicValues supply.secretValues).2.passes ≤ 1 := by
  have system := (Definition.compilation_ok compiled).2
  have all : ∀ record ∈ (circuit.define κ sharesConstants number).transcript, record.Succeeded := by
    cases keeps : circuit.keepsGoing with
    | true => exact succeeded keeps
    | false => exact define_succeeded compiled keeps
  let s : Stage solver.registry supply κ := .start sharesConstants
  have follows := runSteps_follows (s := s) prime answers closed asks .nil all
  have coherent := define_coherent κ prime closed sharesConstants number
  rw [system] at publicLength secretLength
  exact follows.solve prime coherent system checked (publicLength.trans Array.length_toList)
    (secretLength.trans Array.length_toList)

/-- Solving a compiled circuit is running it: the solver finds what the evaluation of the steps gives, in at most one
pass, or it reports the hint or an assertion at which the evaluation stops. It never lacks a value. -/
theorem solve_evaluates (prime : F.modulus.Prime) {circuit : Circuit F} (closed : circuit.Closed)
    (asks : circuit.AsksSome) {options : CompileOptions} {number : Nat} {solver : Solver F}
    (compiled : (circuit.compile options number).result = .ok solver.system)
    (succeeded : circuit.keepsGoing = true →
      ∀ record ∈ (circuit.compile options number).transcript, record.Succeeded)
    (built : HintRegistry.FromBuiltin solver.registry)
    (checked : solver.system.hintError? solver.registry = none) {supply : Supply F}
    (publicLength : supply.publicValues.length = solver.system.publicInputs.length)
    (secretLength : supply.secretValues.length = solver.system.secretInputs.length) :
    SameOutcome (circuit.compile options number).transcript supply
        (circuit.evaluate solver.registry number supply)
        (solver.solve supply.publicValues supply.secretValues).1 ∧
      (solver.solve supply.publicValues supply.secretValues).2.passes ≤ 1 ∧
      ∀ wire, (solver.solve supply.publicValues supply.secretValues).1 ≠ .error (.underdetermined wire) := by
  obtain ⟨κ, _, _, compilation⟩ := exists_compilation options circuit number
  rw [transcript_compile, compilation] at succeeded ⊢
  obtain ⟨same, passes⟩ := define_solves κ prime closed (fun step hstep => .inl (asks step hstep))
    (compilation ▸ (compile_ok compiled).1) succeeded built.answers checked publicLength secretLength
  exact ⟨same, passes, same.not_underdetermined⟩

theorem fiveForZero_solved : ∃ solver : Solver .seven, (fiveForZero.compile {} 0).result = .ok solver.system ∧
    SameOutcome (fiveForZero.compile {} 0).transcript ⟨[], [0]⟩ (.ok [[0], [1], [5]]) (solver.solve [] [0]).1 ∧
    (solver.solve [] [0]).2.passes ≤ 1 ∧ ∀ wire, (solver.solve [] [0]).1 ≠ .error (.underdetermined wire) :=
  ⟨{ system := _, registry := .builtin }, rfl,
    solve_evaluates PrimeField.prime_seven (by decide) (by decide) rfl (fun keeps => absurd keeps (by decide)) .builtin
      rfl rfl rfl⟩

end Circuit

end ArithCircuit
