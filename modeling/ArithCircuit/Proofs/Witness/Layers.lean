import ArithCircuit.Proofs.Witness.Confluence

/-!
# Passes and the depth of dependencies

With a solution at hand, what can become known is ordered in layers: the inputs, then what hints and
constraints give from the inputs, then what they give from that, and so on. A run learns exactly the wires of
all layers, and at least one layer more in every pass.
-/

namespace ArithCircuit

open scoped Fin.CommRing

variable {F : PrimeField} {system : System F} {registry : HintRegistry} {value : Wire → F.Elem} {wire : Wire}

/-! ## Knowledge from an assignment -/

namespace Knowledge

/-- All values of an assignment. -/
def full (wires : Nat) (value : Wire → F.Elem) : Knowledge F := ⟨Array.ofFn fun i : Fin wires => some (value ⟨i⟩)⟩

@[simp]
theorem size_full (wires : Nat) (value : Wire → F.Elem) : (full wires value).values.size = wires := by
  simp [full]

theorem get?_full (wires : Nat) :
    (full wires value).get? wire = if wire.index < wires then some (value wire) else none := by
  simp only [full, get?, Array.getD_eq_getD_getElem?, Array.getElem?_ofFn]
  split <;> rfl

open Classical in
/-- What is known about the wires of a kind. -/
noncomputable def restrict (known : Knowledge F) (kind : Wire → Prop) : Knowledge F :=
  ⟨known.values.mapIdx fun i x => if kind ⟨i⟩ then x else none⟩

variable {known : Knowledge F} {kind : Wire → Prop}

@[simp]
theorem size_restrict : (known.restrict kind).values.size = known.values.size := by
  simp [restrict]

theorem get?_restrict_of (h : kind wire) : (known.restrict kind).get? wire = known.get? wire := by
  simp only [restrict, get?, Array.getD_eq_getD_getElem?, Array.getElem?_mapIdx]
  cases known.values[wire.index]? <;> simp [h]

theorem get?_restrict_of_not (h : ¬ kind wire) : (known.restrict kind).get? wire = none := by
  simp only [restrict, get?, Array.getD_eq_getD_getElem?, Array.getElem?_mapIdx]
  cases known.values[wire.index]? <;> simp [h]

theorem agrees_full (wires : Nat) (value : Wire → F.Elem) : (full wires value).Agrees value := by
  intro wire x h
  rw [get?_full] at h
  split at h
  · exact (Option.some.inj h).symm
  · cases h

theorem Agrees.restrict (h : known.Agrees value) : (known.restrict kind).Agrees value := by
  intro wire x hx
  by_cases hkind : kind wire
  · exact h wire x (get?_restrict_of hkind ▸ hx)
  · rw [get?_restrict_of_not hkind] at hx
    cases hx

end Knowledge

/-! ## Constraints linear in a wire -/

namespace Constraint

/-- With the values of the other wires, the constraint is linear in the wire. -/
def LinearIn (wires : Nat) (value : Wire → F.Elem) (wire : Wire) (c : Constraint F) : Prop :=
  (c.polynomial (.full wires value) wire).coeff 2 = 0 ∧ (c.polynomial (.full wires value) wire).coeff 1 ≠ 0

instance (wires : Nat) (value : Wire → F.Elem) (wire : Wire) (c : Constraint F) :
    Decidable (c.LinearIn wires value wire) :=
  decidable_of_iff (c.isolate? (.full wires value) wire).isSome isSome_isolate?

variable {c : Constraint F} {known : Knowledge F} {wires : Nat}

/-- Whether a constraint can be solved for a wire depends on the values of the others alone. -/
theorem linearIn_iff (agrees : known.Agrees value) (inRange : ∀ other ∈ c.wires, other.index < wires)
    (others : ∀ other ∈ c.wires, other ≠ wire → (known.get? other).isSome) :
    c.LinearIn wires value wire ↔ (c.isolate? known wire).isSome := by
  rw [LinearIn, ← isSome_isolate?]
  have same : ∀ other ∈ c.wires, other ≠ wire →
      (Knowledge.full wires value).valueOrZero other = known.valueOrZero other := fun other hother different => by
    rw [agrees.valueOrZero (others other hother different)]
    exact (Knowledge.agrees_full wires value).valueOrZero (by simp [Knowledge.get?_full, inRange other hother])
  rw [isolate?_congr same]

end Constraint

/-! ## Layers -/

namespace System

/-- What follows from the wires known before: those wires, the outputs of the hints on them, and every wire
that is the only other one of a constraint linear in it, unless a hint outputs it. -/
inductive Follows (system : System F) (value : Wire → F.Elem) (known : Wire → Prop) (wire : Wire) : Prop
  | old : known wire → Follows system value known wire
  | output {b : HintBinding} : b ∈ system.hints → (∀ input ∈ b.inputs, known input) → wire ∈ b.outputs →
      Follows system value known wire
  | solved {c : Constraint F} : c ∈ system.constraints.toList → wire ∈ c.wires → ¬ known wire →
      (∀ other ∈ c.wires, other ≠ wire → known other) → (∀ b ∈ system.hints, wire ∉ b.outputs) →
      c.LinearIn system.wireCount value wire → Follows system value known wire

theorem follows_iff {known : Wire → Prop} : system.Follows value known wire ↔ known wire ∨
    (∃ b ∈ system.hints, (∀ input ∈ b.inputs, known input) ∧ wire ∈ b.outputs) ∨
    ∃ c ∈ system.constraints.toList, wire ∈ c.wires ∧ ¬ known wire ∧
      (∀ other ∈ c.wires, other ≠ wire → known other) ∧ (∀ b ∈ system.hints, wire ∉ b.outputs) ∧
      c.LinearIn system.wireCount value wire := by
  constructor
  · intro h
    cases h with
    | old h => exact .inl h
    | output hb given output => exact .inr (.inl ⟨_, hb, given, output⟩)
    | solved hc mentions new given notOutput linear =>
        exact .inr (.inr ⟨_, hc, mentions, new, given, notOutput, linear⟩)
  · rintro (h | ⟨b, hb, given, output⟩ | ⟨c, hc, mentions, new, given, notOutput, linear⟩)
    · exact .old h
    · exact .output hb given output
    · exact .solved hc mentions new given notOutput linear

instance (known : Wire → Prop) [DecidablePred known] : DecidablePred (system.Follows value known) :=
  fun _ => decidable_of_iff _ follows_iff.symm

/-- The inputs, and what follows from them in so many rounds. -/
def Layer (system : System F) (value : Wire → F.Elem) : Nat → Wire → Prop
  | 0 => system.IsInput
  | i + 1 => system.Follows value (system.Layer value i)

instance decidableLayer (system : System F) (value : Wire → F.Elem) : (i : Nat) → DecidablePred (system.Layer value i)
  | 0 => inferInstanceAs (DecidablePred system.IsInput)
  | i + 1 =>
    have := decidableLayer system value i
    inferInstanceAs (DecidablePred (system.Follows value (system.Layer value i)))

theorem Layer.mono {i j : Nat} (h : system.Layer value i wire) (hle : i ≤ j) : system.Layer value j wire := by
  induction hle with
  | refl => exact h
  | step _ ih => exact .old ih

theorem Layer.inRange {i : Nat} (inRange : system.InRange) (h : system.Layer value i wire) :
    wire.index < system.wireCount := by
  induction i with
  | zero => exact inRange.input_lt h
  | succ i ih =>
      cases h with
      | old h => exact ih h
      | output hb _ output => exact inRange.binding_lt hb wire (List.mem_append_right _ output)
      | solved hc mentions _ _ _ _ => exact inRange.constraint_lt hc wire mentions

/-- Wires that are each in some layer are all in one. -/
theorem exists_layer {wires : List Wire} (each : ∀ wire ∈ wires, ∃ i, system.Layer value i wire) :
    ∃ i, ∀ wire ∈ wires, system.Layer value i wire := by
  induction wires with
  | nil => exact ⟨0, nofun⟩
  | cons wire wires ih =>
      obtain ⟨⟨i, first⟩, later⟩ := List.forall_mem_cons.mp each
      obtain ⟨j, rest⟩ := ih later
      exact ⟨max i j, List.forall_mem_cons.mpr
        ⟨first.mono (Nat.le_max_left i j), fun wire hwire => (rest wire hwire).mono (Nat.le_max_right i j)⟩⟩

/-- The values of the wires of all layers. -/
noncomputable def layered (system : System F) (value : Wire → F.Elem) : Knowledge F :=
  (Knowledge.full system.wireCount value).restrict fun wire => ∃ i, system.Layer value i wire

theorem agrees_layered : (system.layered value).Agrees value := (Knowledge.agrees_full _ value).restrict

theorem isSome_layered (inRange : system.InRange) :
    ((system.layered value).get? wire).isSome ↔ ∃ i, system.Layer value i wire := by
  by_cases h : ∃ i, system.Layer value i wire
  · obtain ⟨i, hi⟩ := h
    rw [layered, Knowledge.get?_restrict_of ⟨i, hi⟩, Knowledge.get?_full, if_pos (hi.inRange inRange)]
    exact iff_of_true rfl ⟨i, hi⟩
  · rw [layered, Knowledge.get?_restrict_of_not h]
    exact iff_of_false Bool.false_ne_true h

/-- Nothing more follows from all layers. -/
theorem saturated_layered (inRange : system.InRange) : system.Saturated (system.layered value) where
  hints b hb inputs wire hwire := by
    obtain ⟨i, hi⟩ := exists_layer fun input hinput => (isSome_layered inRange).mp (inputs input hinput)
    exact (isSome_layered inRange).mpr ⟨i + 1, .output hb hi hwire⟩
  constraints c hc wire hwire notOutput others solvable := by
    have each : ∀ other ∈ c.wires.filter (· ≠ wire), ∃ i, system.Layer value i other := fun other hother => by
      obtain ⟨hother, different⟩ := List.mem_filter.mp hother
      exact (isSome_layered inRange).mp (others other hother (by simpa using different))
    obtain ⟨i, hi⟩ := exists_layer each
    refine (isSome_layered inRange).mpr ?_
    by_cases h : system.Layer value i wire
    · exact ⟨i, h⟩
    · exact ⟨i + 1, .solved hc hwire h
        (fun other hother different => hi other (List.mem_filter.mpr ⟨hother, by simpa using different⟩)) notOutput
        ((Constraint.linearIn_iff agrees_layered (inRange.constraint_lt hc) others).mpr solvable)⟩

/-- Saturated knowledge that holds the inputs holds all layers. -/
theorem Saturated.layer {known : Knowledge F} (saturated : system.Saturated known) (inRange : system.InRange)
    (agrees : known.Agrees value) (inputs : ∀ wire, system.IsInput wire → (known.get? wire).isSome) {i : Nat}
    (h : system.Layer value i wire) : (known.get? wire).isSome := by
  induction i generalizing wire with
  | zero => exact inputs wire h
  | succ i ih =>
      cases h with
      | old h => exact ih h
      | output hb given output => exact saturated.hints _ hb (fun input hinput => ih (given input hinput)) wire output
      | @solved c hc mentions _ given notOutput linear =>
          have others : ∀ other ∈ c.wires, other ≠ wire → (known.get? other).isSome := fun other hother different =>
            ih (given other hother different)
          exact saturated.constraints c hc wire mentions notOutput others
            ((Constraint.linearIn_iff agrees (inRange.constraint_lt hc) others).mp linear)

end System

/-! ## One pass -/

namespace SolvingContext

variable {context : SolvingContext F} {tasks : List (Task F)} {known : Knowledge F} {task : Task F}

theorem remembers_pass (context : SolvingContext F) (tasks : List (Task F)) (known : Knowledge F) :
    known.Remembers (context.pass tasks known).known := by
  obtain ⟨moment, _, traces, hknown, -⟩ := context.pass_traces tasks known [] []
  exact hknown ▸ traces.reaches.remembers

/-- A task that a pass leaves had to wait when it was tried. -/
theorem exists_wait (noError : (context.pass tasks known).error? = none)
    (left : task ∈ (context.pass tasks known).pending) (done waiting : List (Task F)) :
    ∃ moment, context.Reaches ⟨known, done, waiting, tasks⟩ moment ∧
      moment.known.Remembers (context.pass tasks known).known ∧ context.attempt moment.known task = .ok .waiting := by
  induction tasks generalizing known done waiting with
  | nil => cases left
  | cons first rest ih =>
      cases h : context.attempt known first with
      | error error => simp [pass_cons_error h] at noError
      | ok attempt =>
          cases attempt with
          | waiting =>
              rw [pass_cons_waiting h] at noError left ⊢
              rcases List.mem_cons.mp left with rfl | left
              · exact ⟨_, .refl, context.remembers_pass rest known, h⟩
              · obtain ⟨moment, reaches, remembers, waits⟩ := ih noError left done (waiting ++ [first])
                exact ⟨moment, .head (.wait h) reaches, remembers, waits⟩
          | settled =>
              rw [pass_cons_settled h] at noError left ⊢
              obtain ⟨moment, reaches, remembers, waits⟩ := ih noError left (done ++ [first]) waiting
              exact ⟨moment, .head (.settle h) reaches, remembers, waits⟩
          | learned known' =>
              rw [pass_cons_learned h] at noError left ⊢
              obtain ⟨moment, reaches, remembers, waits⟩ := ih noError left (done ++ [first]) waiting
              exact ⟨moment, .head (.learn h) reaches, remembers, waits⟩

end SolvingContext

namespace Solver

variable {solver : Solver F} {publicValues secretValues : List F.Elem} {known : Knowledge F}
  {done tasks : List (Task F)} {i : Nat}

/-- A pass that starts with the wires of a layer ends with those of the next. -/
theorem layer_pass (prime : F.modulus.Prime) (inRange : solver.system.InRange) (scheduled : solver.system.Scheduled)
    (solution : solver.system.Solution solver.registry publicValues secretValues value)
    (visits : solver.Visits publicValues secretValues ⟨known, done, [], tasks⟩)
    (noError : (solver.context.pass tasks known).error? = none)
    (layer : ∀ wire, solver.system.Layer value i wire → (known.get? wire).isSome) :
    ∀ wire, solver.system.Layer value (i + 1) wire → ((solver.context.pass tasks known).known.get? wire).isSome := by
  obtain ⟨done', visits'⟩ := visits_next visits noError
  have accounts := accounts_of_visits inRange visits'
  -- a task is done by now, or it had to wait at a moment when the layer was known
  have tried {task : Task F} (htask : task ∈ solver.system.tasks) :
      (∀ wire ∈ task.wires, ((solver.context.pass tasks known).known.get? wire).isSome) ∨
        ∃ now : Knowledge F, now.Agrees value ∧ known.Remembers now ∧
          now.Remembers (solver.context.pass tasks known).known ∧ solver.context.attempt now task = .ok .waiting := by
    rcases List.mem_append.mp (accounts.tasks.mem_iff.mpr htask) with h | left
    · exact .inl (accounts.known task h)
    · obtain ⟨moment, reaches, remembers, waits⟩ := SolvingContext.exists_wait noError (by simpa using left) done []
      exact .inr ⟨moment.known, (keeps_of_visits prime solution (visits.trans reaches)).agrees, reaches.remembers,
        remembers, waits⟩
  intro wire hwire
  cases hwire with
  | old h => exact (solver.context.remembers_pass tasks known).isSome wire (layer wire h)
  | output hb given output =>
      rcases tried (System.hint_mem_tasks scheduled hb) with all | ⟨now, -, remembers, -, waits⟩
      · exact all wire (List.mem_append_right _ output)
      · obtain ⟨input, hinput, unknown⟩ := SolvingContext.fire_waiting waits
        exact absurd (remembers.isSome input (layer input (given input hinput))) unknown
  | @solved c hc mentions _ given notOutput linear =>
      obtain ⟨j, hj⟩ : ∃ j, Task.constraint j c ∈ solver.system.tasks := constraint_mem_schedule 0 hc
      rcases tried hj with all | ⟨now, agrees, remembers, later, waits⟩
      · exact all wire mentions
      · by_contra unknown
        have others : ∀ other ∈ c.wires, other ≠ wire → (now.get? other).isSome := fun other hother different =>
          remembers.isSome other (layer other (given other hother different))
        obtain ⟨x, forces⟩ := Option.isSome_iff_exists.mp
          ((Constraint.linearIn_iff agrees (inRange.constraint_lt hc) others).mp linear)
        have isNone : now.get? wire = none := Option.not_isSome_iff_eq_none.mp (mt (later.isSome wire) unknown)
        have free : ¬ solver.context.hintOwned.getD wire.index false = true := fun owned => by
          obtain ⟨-, b, hb, output⟩ := (SolvingContext.hintOwned_ofSystem wire).mp owned
          exact notOutput b hb output
        have isolates : solver.context.Isolates now c wire x := ⟨mentions, isNone, others, free, forces⟩
        cases (SolvingContext.attempt_eq_learned.mpr (.isolate isolates)).symm.trans waits

/-- A run needs at most as many further passes as there are layers still to come. -/
theorem passes_propagate_le_depth (prime : F.modulus.Prime) (inRange : solver.system.InRange)
    (scheduled : solver.system.Scheduled)
    (solution : solver.system.Solution solver.registry publicValues secretValues value) {d : Nat}
    (deep : ∀ wire ∈ solver.system.mentioned, solver.system.Layer value d wire) {fuel passes : Nat}
    (visits : solver.Visits publicValues secretValues ⟨known, done, [], tasks⟩)
    (layer : ∀ wire, solver.system.Layer value i wire → (known.get? wire).isSome) :
    (solver.context.propagate fuel passes tasks known).passes ≤ passes + (d - i) := by
  induction fuel generalizing passes tasks known done i with
  | zero => exact Nat.le_add_right _ _
  | succ fuel ih =>
      have shallow {wire : Nat} (unknown : solver.context.leastUnknown? known = some wire) : i < d := by
        by_contra deepEnough
        obtain ⟨mentioned, unknown⟩ := SolvingContext.leastUnknown?_eq_some unknown
        exact unknown (layer _ ((deep _ mentioned).mono (Nat.le_of_not_lt deepEnough)))
      cases solver.context.round tasks known with
      | complete complete =>
          rw [SolvingContext.propagate_complete _ _ complete]
          exact Nat.le_add_right _ _
      | failed unknown failed =>
          have := shallow unknown
          rw [SolvingContext.propagate_failed unknown failed]
          dsimp only
          omega
      | stuck unknown noError noProgress =>
          have := shallow unknown
          rw [SolvingContext.propagate_stuck unknown noError noProgress]
          dsimp only
          omega
      | next unknown noError progress =>
          have := shallow unknown
          obtain ⟨done', visits'⟩ := visits_next visits noError
          have rest : (solver.context.propagate fuel (passes + 1) (solver.context.pass tasks known).pending
              (solver.context.pass tasks known).known).passes ≤ passes + 1 + (d - (i + 1)) :=
            ih visits' (layer_pass prime inRange scheduled solution visits noError layer)
          rw [SolvingContext.propagate_next unknown noError progress]
          omega

/-! ## Outcomes by depth -/

/-- With a solution at hand, a solve succeeds after at most as many passes as it takes rounds to derive all
wires that are mentioned. If some of them can never be derived, it reports one as underdetermined. -/
theorem solve_layers (prime : F.modulus.Prime) (solver : Solver F) (inRange : solver.system.InRange)
    (scheduled : solver.system.Scheduled) (checked : solver.system.hintError? solver.registry = none)
    (solution : solver.system.Solution solver.registry publicValues secretValues value) :
    (∀ d, (∀ wire ∈ solver.system.mentioned, solver.system.Layer value d wire) →
      (∃ witness, (solver.solve publicValues secretValues).1 = .ok witness) ∧
        (solver.solve publicValues secretValues).2.passes ≤ d) ∧
    ((∃ wire ∈ solver.system.mentioned, ∀ i, ¬ solver.system.Layer value i wire) →
      ∃ wire ∈ solver.system.mentioned, (∀ i, ¬ solver.system.Layer value i wire) ∧
        (solver.solve publicValues secretValues).1 = .error (.underdetermined wire.index)) := by
  have inputs {known : Knowledge F} (remembers : (solver.system.seed publicValues secretValues).Remembers known) :
      ∀ wire, solver.system.IsInput wire → (known.get? wire).isSome := fun wire isInput =>
    remembers.isSome wire (solution.isSome_seed.mpr ⟨isInput, inRange.input_lt isInput⟩)
  obtain ⟨known, -, outcome, -, agrees, remembers, saturated, moment, visits, rfl⟩ :=
    solve_eq_of_solution prime inRange scheduled checked solution
  have reached {i : Nat} {wire : Wire} (h : solver.system.Layer value i wire) : (moment.known.get? wire).isSome :=
    saturated.layer inRange agrees (inputs remembers) h
  refine ⟨fun d deep => ⟨?_, ?_⟩, fun ⟨wire, mentioned, never⟩ => ?_⟩
  · have least : solver.context.leastUnknown? moment.known = none := by
      by_contra h
      obtain ⟨wire, hwire⟩ := Option.ne_none_iff_exists'.mp h
      obtain ⟨mentioned, unknown⟩ := SolvingContext.leastUnknown?_eq_some hwire
      exact unknown (reached (deep _ mentioned))
    rw [outcome, least]
    exact ⟨_, rfl⟩
  · obtain ⟨hpublic, hsecret⟩ := solution.lengths
    have bound : (solver.run (solver.system.seed publicValues secretValues)).passes ≤ 0 + (d - 0) :=
      passes_propagate_le_depth prime inRange scheduled solution deep .refl (inputs (.refl _))
    rw [solve_eq_complete checked inRange.mentioned hpublic hsecret, complete_eq]
    simpa using bound
  · have size : (solver.system.seed publicValues secretValues).values.size
        = (solver.system.layered value).values.size := by
      simp [System.seed, System.layered]
    have seeded : (solver.system.seed publicValues secretValues).Remembers (solver.system.layered value) :=
      ⟨size.symm, fun input known => (System.isSome_layered inRange).mpr ⟨0, System.isInput_of_isSome_seed known⟩⟩
    have unknown : ¬ (moment.known.get? wire).isSome := fun known => by
      have := isSome_of_saturated prime inRange solution System.agrees_layered seeded
        (System.saturated_layered inRange) visits wire known
      obtain ⟨i, hi⟩ := (System.isSome_layered inRange).mp this
      exact never i hi
    rw [outcome]
    cases hleast : solver.context.leastUnknown? moment.known with
    | none =>
        have known := SolvingContext.leastUnknown?_eq_none hleast mentioned (inRange.mentioned wire mentioned)
        exact absurd known unknown
    | some least =>
        obtain ⟨mentioned', unknown'⟩ := SolvingContext.leastUnknown?_eq_some hleast
        exact ⟨⟨least⟩, mentioned', fun i hi => unknown' (reached hi), rfl⟩

/-- A secret and its root, which no hint gives. -/
def rootSystem : System .seven where
  roles := [.secretInput, .internal]
  publicInputs := []
  secretInputs := [⟨⟨0⟩, "x"⟩]
  constraints := .rank1 [⟨.ofWire ⟨1⟩, .ofWire ⟨1⟩, .ofWire ⟨0⟩⟩]
  hints := []

/-- The root is in no layer, since its square is not linear in it. -/
theorem rootSystem_not_layer (i : Nat) : ¬ rootSystem.Layer (fun wire => [4, 2].getD wire.index 0) i ⟨1⟩ := by
  induction i with
  | zero => decide
  | succ i ih =>
      intro h
      cases h with
      | old h => exact ih h
      | output hb _ _ => cases hb
      | solved hc _ _ _ _ linear =>
          rw [List.mem_singleton.mp hc] at linear
          exact absurd linear (by decide +kernel)

/-- The inverse and the sum take two rounds, and the root of four cannot be derived. -/
theorem inverse_and_root_layers :
    ((∃ witness, (({ system := inverseSystem, registry := .builtin } : Solver .seven).solve [] [3]).1 = .ok witness) ∧
        (({ system := inverseSystem, registry := .builtin } : Solver .seven).solve [] [3]).2.passes ≤ 2) ∧
      ∃ wire, (({ system := rootSystem, registry := .builtin } : Solver .seven).solve [] [4]).1
        = .error (.underdetermined wire) := by
  refine ⟨(solve_layers PrimeField.prime_seven { system := inverseSystem, registry := .builtin } ⟨by decide, by decide⟩
    (by decide) rfl solution_inverseSystem).1 2 (by decide +kernel), ?_⟩
  have solution : rootSystem.Solution .builtin [] [4] fun wire => [4, 2].getD wire.index 0 :=
    ⟨⟨rfl, rfl⟩, by decide +kernel, nofun⟩
  obtain ⟨wire, -, -, underdetermined⟩ := (solve_layers PrimeField.prime_seven
    { system := rootSystem, registry := .builtin } ⟨by decide, by decide⟩ (by decide) rfl solution).2
      ⟨⟨1⟩, by decide, rootSystem_not_layer⟩
  exact ⟨wire.index, underdetermined⟩

end Solver

end ArithCircuit
