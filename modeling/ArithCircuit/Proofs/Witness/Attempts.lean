import ArithCircuit.Proofs.Constraint.Isolation
import ArithCircuit.Proofs.Field.Number
import ArithCircuit.Proofs.Hint.Registry
import ArithCircuit.Proofs.Witness.Knowledge
import ArithCircuit.Proofs.Witness.Schedule

/-!
# What an attempt does

A task teaches something in two ways: a hint runs on inputs that are all known, and a constraint is
solved for the one wire that is not. A constraint without unknown wires is settled if it holds.
-/

namespace ArithCircuit.SolvingContext

variable {F : PrimeField} {context : SolvingContext F} {known known' : Knowledge F}

/-! ## Unknown wires -/

/-- The wires of a constraint other than its only unknown one. -/
theorem known_of_filter {wires : List Wire} {unknown : Wire} {others : List Wire}
    (hfilter : (wires.filter fun wire => (known.get? wire).isNone) = unknown :: others)
    (single : others.all (· = unknown) = true) {wire : Wire} (hwire : wire ∈ wires)
    (other : wire ≠ unknown) : (known.get? wire).isSome := by
  by_contra hnone
  have hmem : wire ∈ unknown :: others := hfilter ▸ List.mem_filter.mpr ⟨hwire, by simpa using hnone⟩
  rcases List.mem_cons.mp hmem with same | hothers
  · exact other same
  · exact other (by simpa using List.all_eq_true.mp single wire hothers)

theorem known_of_filter_nil {wires : List Wire}
    (hfilter : (wires.filter fun wire => (known.get? wire).isNone) = []) {wire : Wire}
    (hwire : wire ∈ wires) : (known.get? wire).isSome := by
  simpa [Option.ne_none_iff_isSome] using List.filter_eq_nil_iff.mp hfilter wire hwire

theorem filter_known {wires : List Wire} (hknown : ∀ wire ∈ wires, (known.get? wire).isSome) :
    (wires.filter fun wire => (known.get? wire).isNone) = [] := by
  simpa [List.filter_eq_nil_iff, Option.isSome_iff_ne_none] using hknown

theorem filter_unknown {wires : List Wire} {unknown : Wire} (mem : unknown ∈ wires)
    (isNone : (known.get? unknown).isNone = true)
    (others : ∀ wire ∈ wires, wire ≠ unknown → (known.get? wire).isSome) :
    ∃ rest, (wires.filter fun wire => (known.get? wire).isNone) = unknown :: rest ∧
      rest.all (· = unknown) = true := by
  have all : ∀ wire ∈ wires.filter fun wire => (known.get? wire).isNone, wire = unknown := by
    intro wire hwire
    obtain ⟨hwire, hnone⟩ := List.mem_filter.mp hwire
    by_contra other
    have := others wire hwire other
    simp_all
  cases hfilter : wires.filter fun wire => (known.get? wire).isNone with
  | nil =>
      have : unknown ∈ wires.filter fun wire => (known.get? wire).isNone := List.mem_filter.mpr ⟨mem, isNone⟩
      simp [hfilter] at this
  | cons first rest =>
      rw [hfilter] at all
      obtain rfl := all first (by simp)
      exact ⟨rest, rfl, by simpa using fun wire hwire => all wire (by simp [hwire])⟩

/-! ## Hints -/

/-- The hint gives these values for its outputs. -/
structure Fires (context : SolvingContext F) (known : Knowledge F) (b : HintBinding)
    (values : List F.Elem) : Prop where
  inputs : ∀ wire ∈ b.inputs, (known.get? wire).isSome
  invoked : context.registry.invoke b.name F.modulus
    (b.inputs.map fun wire => (known.valueOrZero wire).val) b.outputs.length = .ok (values.map (·.val))
  length : values.length = b.outputs.length

/-- A hint is invoked on residues, and gives elements by theirs. -/
theorem fire_eq (b : HintBinding) : context.fire b known =
    match known.getAll? b.inputs with
    | none => .ok .waiting
    | some inputs =>
      match context.registry.invoke b.name F.modulus (inputs.map (·.val)) b.outputs.length with
      | .error error => .error (.hint error)
      | .ok outputs => .ok (.learned (known.learnAll b.outputs (outputs.map F.ofNat))) := by
  rw [fire]
  cases known.getAll? b.inputs with
  | none => rfl
  | some inputs =>
      dsimp only
      rw [PrimeField.map_toNumber]
      cases context.registry.invoke b.name F.modulus (inputs.map (·.val)) b.outputs.length with
      | error error => rfl
      | ok outputs =>
          dsimp only
          rw [PrimeField.map_ofNumber]

theorem fire_eq_learned {b : HintBinding} : context.fire b known = .ok (.learned known') ↔
    ∃ values, context.Fires known b values ∧ known' = known.learnAll b.outputs values := by
  rw [fire_eq]
  constructor
  · intro fired
    cases hall : known.getAll? b.inputs with
    | none => simp [hall] at fired
    | some inputs =>
        have hinputs : ∀ wire ∈ b.inputs, (known.get? wire).isSome := known.isSome_of_getAll? hall
        rw [hall, known.agrees_valueOrZero.getAll? hall] at fired
        dsimp only at fired
        rw [List.map_map] at fired
        cases invoked : context.registry.invoke b.name F.modulus
            (b.inputs.map ((·.val) ∘ known.valueOrZero)) b.outputs.length with
        | error error => simp [invoked] at fired
        | ok outputs =>
            obtain ⟨given, rfl⟩ := HintRegistry.exists_of_invoke invoked
            rw [invoked] at fired
            refine ⟨(HintRegistry.reduceOutputs F.modulus b.outputs.length given).map F.ofNat,
              ⟨hinputs, invoked.trans ?_, by simp [HintRegistry.reduceOutputs]⟩, by simpa using fired.symm⟩
            simp [HintRegistry.reduceOutputs, PrimeField.ofNat]
  · rintro ⟨values, ⟨hinputs, invoked, -⟩, rfl⟩
    rw [known.agrees_valueOrZero.getAll?_eq hinputs]
    dsimp only
    rw [List.map_map, Function.comp_def, invoked]
    simp [Function.comp_def]

theorem fire_waiting {b : HintBinding} (waits : context.fire b known = .ok .waiting) :
    ∃ wire ∈ b.inputs, ¬ (known.get? wire).isSome := by
  by_contra hknown
  simp only [not_exists, not_and, not_not] at hknown
  rw [fire_eq, known.agrees_valueOrZero.getAll?_eq hknown] at waits
  dsimp only at waits
  split at waits <;> cases waits

theorem fire_ne_settled {b : HintBinding} : context.fire b known ≠ .ok .settled := by
  rw [fire_eq]
  split
  · simp
  · split <;> simp

/-! ## Constraints -/

theorem isolate_ne_settled {c : Constraint F} {unknown : Wire} : c.isolate known unknown ≠ .settled := by
  unfold Constraint.isolate
  split <;> simp

/-- The constraint forces a value on its only unknown wire, which no hint owns. -/
structure Isolates (context : SolvingContext F) (known : Knowledge F) (c : Constraint F) (unknown : Wire)
    (x : F.Elem) : Prop where
  mentions : unknown ∈ c.wires
  isNone : known.get? unknown = none
  others : ∀ wire ∈ c.wires, wire ≠ unknown → (known.get? wire).isSome
  free : ¬ context.hintOwned.getD unknown.index false = true
  forces : c.isolate? known unknown = some x

theorem resolve_eq_learned {index : Nat} {c : Constraint F} :
    context.resolve index c known = .ok (.learned known') ↔
      ∃ unknown x, context.Isolates known c unknown x ∧ known' = known.learn unknown x := by
  constructor
  · intro resolved
    unfold resolve at resolved
    cases hfilter : c.wires.filter fun wire => (known.get? wire).isNone with
    | nil =>
        rw [hfilter] at resolved
        dsimp only at resolved
        split at resolved <;> cases resolved
    | cons unknown others =>
        rw [hfilter] at resolved
        dsimp only at resolved
        split at resolved
        · rename_i single
          obtain ⟨hothers, free⟩ := Bool.and_eq_true_iff.mp single
          obtain ⟨mentions, isNone⟩ := List.mem_filter.mp (hfilter ▸ List.mem_cons_self)
          cases hroot : c.isolate? known unknown with
          | none => simp [Constraint.isolate, hroot] at resolved
          | some x =>
              exact ⟨unknown, x, ⟨mentions, by simpa using isNone,
                fun _ => known_of_filter hfilter hothers, by simpa using free, hroot⟩,
                by simpa [Constraint.isolate, hroot] using resolved.symm⟩
        · cases resolved
  · rintro ⟨unknown, x, ⟨mentions, isNone, others, free, forces⟩, rfl⟩
    obtain ⟨rest, hfilter, hrest⟩ := filter_unknown mentions (by simp [isNone]) others
    simp [resolve, hfilter, hrest, free, Constraint.isolate, forces]

theorem resolve_eq_settled {index : Nat} {c : Constraint F} :
    context.resolve index c known = .ok .settled ↔
      (∀ wire ∈ c.wires, (known.get? wire).isSome) ∧ c.Holds known.valueOrZero := by
  constructor
  · intro resolved
    unfold resolve at resolved
    cases hfilter : c.wires.filter fun wire => (known.get? wire).isNone with
    | nil =>
        rw [hfilter] at resolved
        dsimp only at resolved
        split at resolved
        · cases resolved
        · rename_i holds
          exact ⟨fun _ => known_of_filter_nil hfilter, Constraint.violation?_eq_none.mp holds⟩
    | cons unknown others =>
        rw [hfilter] at resolved
        dsimp only at resolved
        split at resolved
        · exact absurd (Except.ok.inj resolved) isolate_ne_settled
        · cases resolved
  · rintro ⟨wires, holds⟩
    rw [resolve, filter_known wires]
    simp only [Constraint.violation?_eq_none.mpr holds]

/-- The only wire of the constraint without a value. -/
structure OnlyUnknown (known : Knowledge F) (c : Constraint F) (unknown : Wire) : Prop where
  mentions : unknown ∈ c.wires
  isNone : known.get? unknown = none
  others : ∀ wire ∈ c.wires, wire ≠ unknown → (known.get? wire).isSome

/-- A constraint waits for one of two unknown wires, for a hint that owns its only one, or because it cannot
be solved for that one. -/
theorem resolve_waiting {index : Nat} {c : Constraint F} (waits : context.resolve index c known = .ok .waiting) :
    (∃ unknown ∈ c.wires, ∃ unknown' ∈ c.wires, unknown ≠ unknown' ∧ known.get? unknown = none ∧
      known.get? unknown' = none) ∨
    ∃ unknown, OnlyUnknown known c unknown ∧
      (context.hintOwned.getD unknown.index false = true ∨ c.isolate? known unknown = none) := by
  unfold resolve at waits
  cases hfilter : c.wires.filter fun wire => (known.get? wire).isNone with
  | nil =>
      rw [hfilter] at waits
      dsimp only at waits
      split at waits <;> cases waits
  | cons unknown others =>
      rw [hfilter] at waits
      obtain ⟨mentions, isNone⟩ := List.mem_filter.mp (hfilter ▸ List.mem_cons_self (l := others))
      by_cases single : others.all (· = unknown) = true
      · refine .inr ⟨unknown, ⟨mentions, by simpa using isNone, fun _ => known_of_filter hfilter single⟩, ?_⟩
        by_contra solvable
        rw [not_or] at solvable
        obtain ⟨x, forces⟩ := Option.ne_none_iff_exists'.mp solvable.2
        simp [single, solvable.1, Constraint.isolate, forces] at waits
      · obtain ⟨unknown', hmem, different⟩ : ∃ unknown' ∈ others, unknown' ≠ unknown := by simpa using single
        obtain ⟨mentions', isNone'⟩ := List.mem_filter.mp (hfilter ▸ List.mem_cons_of_mem unknown hmem)
        exact .inl ⟨unknown, mentions, unknown', mentions', different.symm, by simpa using isNone, by simpa using isNone'⟩

/-! ## Tasks -/

/-- The ways to learn from a task. -/
inductive Learns (context : SolvingContext F) (known : Knowledge F) : Task F → Knowledge F → Prop
  | fire {b : HintBinding} {values : List F.Elem} : context.Fires known b values →
      Learns context known (.hint b) (known.learnAll b.outputs values)
  | isolate {index : Nat} {c : Constraint F} {unknown : Wire} {x : F.Elem} :
      context.Isolates known c unknown x → Learns context known (.constraint index c) (known.learn unknown x)

variable {task : Task F}

theorem attempt_eq_learned : context.attempt known task = .ok (.learned known') ↔
    context.Learns known task known' := by
  constructor
  · intro learned
    cases task with
    | hint b =>
        obtain ⟨values, fires, rfl⟩ := fire_eq_learned.mp learned
        exact .fire fires
    | constraint index c =>
        obtain ⟨unknown, x, isolates, rfl⟩ := resolve_eq_learned.mp learned
        exact .isolate isolates
  · rintro (fires | isolates)
    · exact fire_eq_learned.mpr ⟨_, fires, rfl⟩
    · exact resolve_eq_learned.mpr ⟨_, _, isolates, rfl⟩

theorem Learns.remembers (learns : context.Learns known task known') : known.Remembers known' := by
  cases learns with
  | fire _ => exact Knowledge.remembers_learnAll _ _
  | isolate _ => exact Knowledge.remembers_learn

/-- All wires of a task are known when it is done. -/
theorem Learns.knows (learns : context.Learns known task known') {wire : Wire} (hwire : wire ∈ task.wires)
    (inRange : wire.index < known.values.size) : (known'.get? wire).isSome := by
  cases learns with
  | fire fires =>
      rw [Knowledge.isSome_learnAll (Nat.le_of_eq fires.length.symm)]
      rcases List.mem_append.mp hwire with input | output
      · exact .inr (fires.inputs wire input)
      · exact .inl ⟨output, inRange⟩
  | @isolate _ _ unknown _ isolates =>
      rw [Knowledge.isSome_learn]
      by_cases same : wire = unknown
      · exact .inl ⟨same, inRange⟩
      · exact .inr (isolates.others wire hwire same)

/-- The ways to fail: a hint refuses its inputs, or a constraint without unknown wires does not hold. -/
inductive Fails (context : SolvingContext F) (known : Knowledge F) : Task F → SolveError F → Prop
  | hint {b : HintBinding} {error : HintError} {inputs : List Nat} : inputs.length = b.inputs.length →
      context.registry.invoke b.name F.modulus inputs b.outputs.length = .error error →
      Fails context known (.hint b) (.hint error)
  | constraint {index : Nat} {c : Constraint F} {violation : Violation F} :
      c.violation? known.valueOrZero = some violation →
      Fails context known (.constraint index c) (.violated index violation)

theorem fails_of_attempt {error : SolveError F} (failed : context.attempt known task = .error error) :
    context.Fails known task error := by
  cases task with
  | hint b =>
      rw [attempt, fire_eq] at failed
      cases hall : known.getAll? b.inputs with
      | none => simp [hall] at failed
      | some inputs =>
          rw [hall] at failed
          dsimp only at failed
          split at failed
          · rename_i invoked
            cases failed
            refine .hint ?_ invoked
            simpa using (congrArg List.length (Knowledge.getAll?_eq_some.mp hall)).symm
          · cases failed
  | constraint index c =>
      rw [attempt, resolve] at failed
      split at failed
      · split at failed
        · rename_i violated
          cases failed
          exact .constraint violated
        · cases failed
      · split at failed
        · cases failed
        · cases failed

end ArithCircuit.SolvingContext
