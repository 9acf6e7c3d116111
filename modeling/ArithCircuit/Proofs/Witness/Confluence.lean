import ArithCircuit.Proofs.Witness.Invariant

/-!
# The order of tasks does not matter

With a solution at hand, a run ends with the least knowledge that holds the inputs and from which no
hint and no constraint gives more. This does not depend on the order of the constraints and hints, so
neither does the outcome.
-/

namespace ArithCircuit

variable {F : PrimeField} {registry : HintRegistry} {system system' : System F} {value : Wire → F.Elem}

/-! ## Saturated knowledge -/

namespace System

/-- Nothing more follows: what a hint gives is known once its inputs are, and so is the only unknown
wire of a constraint that can be solved for it, unless it is an output of a hint. -/
structure Saturated (system : System F) (known : Knowledge F) : Prop where
  hints : ∀ b ∈ system.hints, (∀ wire ∈ b.inputs, (known.get? wire).isSome) →
    ∀ wire ∈ b.outputs, (known.get? wire).isSome
  constraints : ∀ c ∈ system.constraints.toList, ∀ wire ∈ c.wires, (∀ b ∈ system.hints, wire ∉ b.outputs) →
    (∀ other ∈ c.wires, other ≠ wire → (known.get? other).isSome) → (c.isolate? known wire).isSome →
    (known.get? wire).isSome

/-- What is needed is known, so nothing more can follow. -/
theorem saturated_of_mentioned {known : Knowledge F} (needed : ∀ wire ∈ system.mentioned, (known.get? wire).isSome) :
    system.Saturated known where
  hints b hb _ wire hwire := needed wire (mem_mentioned.mpr (.inr ⟨b, hb, List.mem_append_right _ hwire⟩))
  constraints c hc wire hwire _ _ _ := needed wire (mem_mentioned.mpr (.inl ⟨c, hc, hwire⟩))

/-- Where all tasks are done or have to wait, nothing more follows. -/
theorem saturated_of_stuck (scheduled : system.Scheduled) {moment : Moment F}
    (accounts : moment.Accounts system) (nothingAhead : moment.ahead = [])
    (stuck : ∀ task ∈ moment.waiting,
      (SolvingContext.ofSystem registry system).attempt moment.known task = .ok .waiting) :
    system.Saturated moment.known := by
  have split {task : Task F} (h : task ∈ system.tasks) :
      (∀ wire ∈ task.wires, (moment.known.get? wire).isSome) ∨
        (SolvingContext.ofSystem registry system).attempt moment.known task = .ok .waiting := by
    have place := accounts.tasks.mem_iff.mpr h
    rw [nothingAhead, List.append_nil] at place
    exact (List.mem_append.mp place).imp (accounts.known task) (stuck task)
  refine ⟨fun b hb inputs wire hwire => ?_, fun c hc wire hwire notOutput others solvable => ?_⟩
  · rcases split (system.hint_mem_tasks scheduled hb) with known | waits
    · exact known wire (List.mem_append_right _ hwire)
    · obtain ⟨input, hinput, unknown⟩ := SolvingContext.fire_waiting waits
      exact absurd (inputs input hinput) unknown
  · obtain ⟨i, hi⟩ : ∃ i, Task.constraint i c ∈ system.tasks := constraint_mem_schedule 0 hc
    rcases split hi with known | waits
    · exact known wire hwire
    · by_contra unknown
      obtain ⟨x, hx⟩ := Option.isSome_iff_exists.mp solvable
      have free : ¬ (SolvingContext.ofSystem registry system).hintOwned.getD wire.index false = true := by
        rw [SolvingContext.hintOwned_ofSystem]
        rintro ⟨-, b, hb, output⟩
        exact notOutput b hb output
      have isolates : (SolvingContext.ofSystem registry system).Isolates moment.known c wire x :=
        ⟨hwire, Option.not_isSome_iff_eq_none.mp unknown, others, free, hx⟩
      cases (SolvingContext.attempt_eq_learned.mpr (.isolate isolates)).symm.trans waits

end System

/-! ## Runs end with the least saturated knowledge -/

namespace SolvingContext

variable {moment moment' : Moment F}

theorem Reaches.remembers {context : SolvingContext F} (reaches : context.Reaches moment moment') :
    moment.known.Remembers moment'.known := by
  induction reaches with
  | refl => exact .refl _
  | tail _ step ih =>
      cases step with
      | learn learned => exact ih.trans (attempt_eq_learned.mp learned).remembers
      | _ => exact ih

end SolvingContext

namespace Solver

variable {solver : Solver F} {publicValues secretValues : List F.Elem}

theorem accounts_of_visits (inRange : solver.system.InRange) {moment : Moment F}
    (visits : solver.Visits publicValues secretValues moment) : moment.Accounts solver.system :=
  (Moment.Accounts.start solver.system publicValues secretValues).reaches inRange visits

/-- Saturated knowledge that holds the inputs holds all that a run learns. -/
theorem isSome_of_saturated (prime : F.modulus.Prime) (inRange : solver.system.InRange)
    (solution : solver.system.Solution solver.registry publicValues secretValues value) {known : Knowledge F}
    (agrees : known.Agrees value) (seeded : (solver.system.seed publicValues secretValues).Remembers known)
    (saturated : solver.system.Saturated known) {moment : Moment F}
    (visits : solver.Visits publicValues secretValues moment) :
    ∀ wire, (moment.known.get? wire).isSome → (known.get? wire).isSome := by
  induction visits with
  | refl => exact seeded.isSome
  | @tail before after visits step ih =>
      have keeps := keeps_of_visits prime solution visits
      have htasks := (accounts_of_visits inRange visits).tasks
      cases step with
      | wait _ => exact ih
      | settle _ => exact ih
      | nextPass => exact ih
      | @learn now task known' done waiting ahead learned =>
          intro wire hwire
          have htask : task ∈ solver.system.tasks := htasks.subset (by simp)
          cases SolvingContext.attempt_eq_learned.mp learned with
          | @fire b values fires =>
              rcases Knowledge.mem_of_isSome_learnAll hwire with output | h
              · exact saturated.hints b (System.mem_hints_of_task htask)
                  (fun input hinput => ih input (fires.inputs input hinput)) wire output
              · exact ih wire h
          | @isolate i c unknown x isolates =>
              rcases Knowledge.isSome_learn.mp hwire with ⟨rfl, hlt⟩ | h
              · have same : ∀ other ∈ c.wires, other ≠ wire →
                    known.valueOrZero other = now.valueOrZero other := fun other hother different => by
                  have hnow := isolates.others other hother different
                  rw [agrees.valueOrZero (ih other hnow), keeps.agrees.valueOrZero hnow]
                refine saturated.constraints c (System.mem_constraints_of_task htask) wire isolates.mentions
                  (fun b hb output => isolates.free ?_)
                  (fun other hother different => ih other (isolates.others other hother different)) ?_
                · refine (SolvingContext.hintOwned_ofSystem wire).mpr ⟨?_, b, hb, output⟩
                  exact inRange.mentioned wire (System.mem_mentioned_of_task htask isolates.mentions)
                · simp [Constraint.isolate?_congr same, isolates.forces]
              · exact ih wire h

/-- With a solution, a solve fails only because nothing more follows from what is known. -/
theorem solve_eq_of_solution (prime : F.modulus.Prime) (inRange : solver.system.InRange)
    (scheduled : solver.system.Scheduled) (checked : solver.system.hintError? solver.registry = none)
    (solution : solver.system.Solution solver.registry publicValues secretValues value) :
    ∃ known : Knowledge F, (solver.solve publicValues secretValues).2.known = known ∧
      (solver.solve publicValues secretValues).1
        = (match solver.context.leastUnknown? known with
          | some wire => .error (.underdetermined wire)
          | none => .ok (solver.witnessOf known)) ∧
      known.values.size = solver.system.wireCount ∧ known.Agrees value ∧
      (solver.system.seed publicValues secretValues).Remembers known ∧ solver.system.Saturated known ∧
      ∃ moment, solver.Visits publicValues secretValues moment ∧ moment.known = known := by
  obtain ⟨hpublic, hsecret⟩ := solution.lengths
  obtain ⟨moment, visits, hknown, hend⟩ :=
    solver.run_reaches (solver.system.seed publicValues secretValues)
  have keeps := keeps_of_visits prime solution visits
  have accounts := accounts_of_visits inRange visits
  rw [solve_eq_complete checked inRange.mentioned hpublic hsecret, complete_eq]
  refine ⟨moment.known, hknown.symm, ?_, accounts.size, keeps.agrees, visits.remembers, ?_, moment, visits, rfl⟩
  · rw [← hknown]
    dsimp only
    cases herror : (solver.run (solver.system.seed publicValues secretValues)).error? with
    | some error =>
        rw [herror] at hend
        rcases hend with ⟨task, htask, failed⟩ | ⟨wire, rfl, hleast, -⟩
        · exact absurd failed (keeps.not_error prime htask)
        · rw [hleast]
          rfl
    | none =>
        rw [herror] at hend
        have same : ∀ wire ∈ solver.system.mentioned, moment.known.valueOrZero wire = value wire :=
          fun wire hwire => keeps.agrees.valueOrZero
            (SolvingContext.leastUnknown?_eq_none hend hwire (inRange.mentioned wire hwire))
        rw [outcome, System.firstViolation?_eq_none.mpr ((System.satisfied_congr same).mpr solution.satisfied),
          show solver.context.leastUnknown? moment.known = none from hend]
  · cases herror : (solver.run (solver.system.seed publicValues secretValues)).error? with
    | some error =>
        rw [herror] at hend
        rcases hend with ⟨task, htask, failed⟩ | ⟨wire, -, -, nothingAhead, stuck⟩
        · exact absurd failed (keeps.not_error prime htask)
        · exact System.saturated_of_stuck scheduled accounts nothingAhead stuck
    | none =>
        rw [herror] at hend
        exact System.saturated_of_mentioned fun wire hwire =>
          SolvingContext.leastUnknown?_eq_none hend hwire (inRange.mentioned wire hwire)

end Solver

/-! ## Other orders -/

namespace System

/-- The same inputs, constraints and hints, the constraints and the hints each in any order, and the
hints at any positions. -/
structure Rearranges (system system' : System F) : Prop where
  roles : system'.roles = system.roles
  publicInputs : system'.publicInputs = system.publicInputs
  secretInputs : system'.secretInputs = system.secretInputs
  constraints : system'.constraints.toList.Perm system.constraints.toList
  hints : (system'.hints.map fun b => { b with position := 0 }).Perm
    (system.hints.map fun b => { b with position := 0 })

namespace Rearranges

variable (rearranges : system.Rearranges system')
include rearranges

theorem symm : system'.Rearranges system where
  roles := rearranges.roles.symm
  publicInputs := rearranges.publicInputs.symm
  secretInputs := rearranges.secretInputs.symm
  constraints := rearranges.constraints.symm
  hints := rearranges.hints.symm

theorem wireCount : system'.wireCount = system.wireCount := by
  rw [System.wireCount, rearranges.roles, System.wireCount]

theorem seed (publicValues secretValues : List F.Elem) :
    system'.seed publicValues secretValues = system.seed publicValues secretValues := by
  rw [System.seed, rearranges.wireCount, rearranges.publicInputs, rearranges.secretInputs, System.seed]

/-- Every hint is bound in both systems, apart from its position. -/
theorem exists_hint {b : HintBinding} (hb : b ∈ system'.hints) :
    ∃ b' ∈ system.hints, b'.name = b.name ∧ b'.inputs = b.inputs ∧ b'.outputs = b.outputs := by
  have placed := rearranges.hints.mem_iff.mp (List.mem_map_of_mem hb)
  obtain ⟨b', hb', same⟩ := List.mem_map.mp placed
  injection same with name inputs outputs
  exact ⟨b', hb', name, inputs, outputs⟩

theorem mem_mentioned {wire : Wire} (h : wire ∈ system'.mentioned) : wire ∈ system.mentioned := by
  rcases System.mem_mentioned.mp h with ⟨c, hc, hwire⟩ | ⟨b, hb, hwire⟩
  · exact System.mem_mentioned.mpr (.inl ⟨c, rearranges.constraints.subset hc, hwire⟩)
  · obtain ⟨b', hb', -, inputs, outputs⟩ := rearranges.exists_hint hb
    refine System.mem_mentioned.mpr (.inr ⟨b', hb', ?_⟩)
    rwa [HintBinding.wires, inputs, outputs]

theorem inRange (inRange : system.InRange) : system'.InRange where
  inputs := by
    rw [rearranges.publicInputs, rearranges.secretInputs, rearranges.wireCount]
    exact inRange.inputs
  mentioned wire hwire := by
    rw [rearranges.wireCount]
    exact inRange.mentioned wire (rearranges.mem_mentioned hwire)

theorem saturated {known : Knowledge F} (saturated : system.Saturated known) : system'.Saturated known where
  hints b hb := by
    obtain ⟨b', hb', -, inputs, outputs⟩ := rearranges.exists_hint hb
    rw [← inputs, ← outputs]
    exact saturated.hints b' hb'
  constraints c hc wire hwire notOutput := by
    refine saturated.constraints c (rearranges.constraints.subset hc) wire hwire fun b hb => ?_
    obtain ⟨b', hb', -, -, outputs⟩ := rearranges.symm.exists_hint hb
    rw [← outputs]
    exact notOutput b' hb'

theorem solution {publicValues secretValues : List F.Elem}
    (solution : system.Solution registry publicValues secretValues value) :
    system'.Solution registry publicValues secretValues value where
  publicInputs := by rw [rearranges.publicInputs, solution.publicInputs]
  secretInputs := by rw [rearranges.secretInputs, solution.secretInputs]
  satisfied c hc := solution.satisfied c (rearranges.constraints.subset hc)
  hintsAgree b hb := by
    obtain ⟨b', hb', name, inputs, outputs⟩ := rearranges.exists_hint hb
    rw [← name, ← inputs, ← outputs]
    exact solution.hintsAgree b' hb'

theorem leastUnknown? (known : Knowledge F) : (SolvingContext.ofSystem registry system').leastUnknown? known
    = (SolvingContext.ofSystem registry system).leastUnknown? known := by
  have marks : markWires system'.wireCount system'.mentioned = markWires system.wireCount system.mentioned := by
    have both (i : Nat) : (⟨i⟩ ∈ system'.mentioned) = (⟨i⟩ ∈ system.mentioned) :=
      propext ⟨rearranges.mem_mentioned, rearranges.symm.mem_mentioned⟩
    rw [rearranges.wireCount]
    refine Array.ext (by simp) fun i hi hi' => ?_
    have same : (markWires system.wireCount system'.mentioned).getD i false = true ↔
        i < system.wireCount ∧ ⟨i⟩ ∈ system'.mentioned := getD_markWires
    rw [both, ← getD_markWires] at same
    have marked := Bool.eq_iff_iff.mpr same
    rwa [Array.getD_eq_getD_getElem?, Array.getD_eq_getD_getElem?, Array.getElem?_eq_getElem hi,
      Array.getElem?_eq_getElem hi'] at marked
  simp only [SolvingContext.leastUnknown?, SolvingContext.ofSystem, marks]

end Rearranges

theorem Rearranges.checked (rearranges : system.Rearranges system') (checked : system.hintError? registry = none) :
    system'.hintError? registry = none := by
  rw [hintError?_eq_none] at checked ⊢
  intro b hb
  obtain ⟨b', hb', name, inputs, outputs⟩ := rearranges.exists_hint hb
  have fits := checked b' hb'
  rwa [HintRegistry.check, name, inputs, outputs] at fits

end System

namespace Solver

variable {publicValues secretValues : List F.Elem}

/-- With a solution at hand, the order of the constraints and hints and the positions of the hints have
no influence on the outcome: it is the same witness, or the same wire that is underdetermined, and the
same values are known. -/
theorem solve_rearranged (prime : F.modulus.Prime) (solver solver' : Solver F) (inRange : solver.system.InRange)
    (scheduled : solver.system.Scheduled) (checked : solver.system.hintError? solver.registry = none)
    (solution : solver.system.Solution solver.registry publicValues secretValues value)
    (registry : solver'.registry = solver.registry) (rearranges : solver.system.Rearranges solver'.system)
    (scheduled' : solver'.system.Scheduled) :
    (solver'.solve publicValues secretValues).1 = (solver.solve publicValues secretValues).1 ∧
      (solver'.solve publicValues secretValues).2.known = (solver.solve publicValues secretValues).2.known ∧
      ((∃ witness, (solver.solve publicValues secretValues).1 = .ok witness) ∨
        ∃ wire, (solver.solve publicValues secretValues).1 = .error (.underdetermined wire)) := by
  have inRange' := rearranges.inRange inRange
  have solution' := rearranges.solution solution
  have checked' := rearranges.checked checked
  rw [← registry] at solution' checked'
  obtain ⟨known, hknown, outcome, size, agrees, remembers, saturated, moment, visits, rfl⟩ :=
    solve_eq_of_solution prime inRange scheduled checked solution
  obtain ⟨known', hknown', outcome', size', agrees', remembers', saturated', moment', visits', rfl⟩ :=
    solve_eq_of_solution prime inRange' scheduled' checked' solution'
  -- each of the two is saturated for both systems, so it holds the other
  have same : moment'.known = moment.known := by
    refine agrees'.eq_of_isSome agrees (by rw [size, size', rearranges.wireCount]) fun wire => ⟨?_, ?_⟩
    · exact isSome_of_saturated prime inRange' solution' agrees (rearranges.seed _ _ ▸ remembers)
        (rearranges.saturated saturated) visits' wire
    · exact isSome_of_saturated prime inRange solution agrees' (rearranges.symm.seed _ _ ▸ remembers')
        (rearranges.symm.saturated saturated') visits wire
  have least : solver'.context.leastUnknown? moment.known = solver.context.leastUnknown? moment.known := by
    rw [context, registry]
    exact rearranges.leastUnknown? moment.known
  have witness : solver'.witnessOf moment.known = solver.witnessOf moment.known := by
    rw [witnessOf, rearranges.publicInputs, rearranges.secretInputs, witnessOf]
  refine ⟨?_, by rw [hknown, hknown', same], ?_⟩
  · rw [outcome, outcome', same, least, witness]
  · rw [outcome]
    cases solver.context.leastUnknown? moment.known with
    | some wire => exact .inr ⟨wire, rfl⟩
    | none => exact .inl ⟨_, rfl⟩

/-- The sum comes first and the hint last. -/
def inverseSystemBackwards : System .seven :=
  { inverseSystem with
    constraints := .rank1 [
      ⟨(LinearCombination.ofWire ⟨0⟩).addWire ⟨1⟩, .ofConstant 1, .ofWire ⟨2⟩⟩,
      ⟨.ofWire ⟨0⟩, .ofWire ⟨1⟩, .ofConstant 1⟩]
    hints := [⟨Hint.invertName, [⟨0⟩], [⟨1⟩], 2⟩] }

theorem solve_inverseSystemBackwards :
    (({ system := inverseSystemBackwards, registry := .builtin } : Solver .seven).solve [] [3]).1
        = (({ system := inverseSystem, registry := .builtin } : Solver .seven).solve [] [3]).1 ∧
      (({ system := inverseSystemBackwards, registry := .builtin } : Solver .seven).solve [] [3]).2.known
        = (({ system := inverseSystem, registry := .builtin } : Solver .seven).solve [] [3]).2.known :=
  have rearranged := solve_rearranged PrimeField.prime_seven
    { system := inverseSystem, registry := .builtin } { system := inverseSystemBackwards, registry := .builtin }
    ⟨by decide, by decide⟩ (by decide) rfl solution_inverseSystem rfl
    ⟨rfl, rfl, rfl, .swap _ _ _, .refl _⟩ (by decide)
  ⟨rearranged.1, rearranged.2.1⟩

end Solver

end ArithCircuit
