import ArithCircuit.Proofs.Witness.Attempts
import ArithCircuit.Proofs.Witness.Outcome

/-!
# The checks before a run

A solver checks the hints, then the public values, then the secret values. The first check that fails decides the
error and what the solver knows. After these checks no error is one of theirs.
-/

namespace ArithCircuit

variable {F : PrimeField}

/-- The errors of the checks before a run. -/
def SolveError.Preliminary : SolveError F → Prop
  | .missingInput .. => True
  | .extraInput .. => True
  | .hint error => error.Unfit
  | _ => False

/-- The first hint that does not go with the registry decides the error. -/
theorem System.hintError?_eq_some {system : System F} {registry : HintRegistry} {error : HintError} :
    system.hintError? registry = some error ↔ ∃ before b after, system.hints = before ++ b :: after ∧
      registry.check b = .error error ∧ ∀ b' ∈ before, registry.check b' = .ok () := by
  unfold hintError?
  rw [List.findSome?_eq_some_iff]
  refine exists_congr fun before => exists_congr fun b => exists_congr fun after =>
    and_congr_right fun _ => and_congr ?_ (forall₂_congr fun b' _ => ?_)
  · cases registry.check b <;> simp
  · cases registry.check b' <;> simp

/-! ## Supplied values -/

/-- The last of the pairs that give the wire a value gives it this one. -/
def FinalValue (pairs : List (Wire × F.Elem)) (wire : Wire) (x : F.Elem) : Prop :=
  ∃ before after, pairs = before ++ (wire, x) :: after ∧ wire ∉ after.map Prod.fst

theorem finalValue_cons {pairs : List (Wire × F.Elem)} {wire other : Wire} {x y : F.Elem} :
    FinalValue ((other, y) :: pairs) wire x ↔
      FinalValue pairs wire x ∨ wire = other ∧ x = y ∧ wire ∉ pairs.map Prod.fst := by
  constructor
  · rintro ⟨before, after, split, later⟩
    cases before with
    | nil =>
        cases split
        exact .inr ⟨rfl, rfl, later⟩
    | cons first before =>
        obtain ⟨-, rfl⟩ := List.cons.inj split
        exact .inl ⟨before, after, rfl, later⟩
  · rintro (⟨before, after, rfl, later⟩ | ⟨rfl, rfl, later⟩)
    · exact ⟨(other, y) :: before, after, rfl, later⟩
    · exact ⟨[], pairs, rfl, later⟩

namespace Knowledge

variable {known : Knowledge F} {wire : Wire} {x : F.Elem}

theorem lt_size_of_get? (h : known.get? wire = some x) : wire.index < known.values.size := by
  by_contra outside
  simp [get?, Array.getD_eq_getD_getElem?, outside] at h

theorem get?_learn_eq_some {other : Wire} {y : F.Elem} : (known.learn other y).get? wire = some x ↔
    wire.index < known.values.size ∧ wire = other ∧ x = y ∨ wire ≠ other ∧ known.get? wire = some x := by
  by_cases same : wire = other
  · subst same
    by_cases inside : wire.index < known.values.size
    · simp [get?_learn, inside, eq_comm]
    · have unknown : known.get? wire ≠ some x := fun h => inside (lt_size_of_get? h)
      simp [get?_learn, inside, unknown]
  · simp [get?_learn, same]

theorem get?_learnAll_eq_some {wires : List Wire} {values : List F.Elem} :
    (known.learnAll wires values).get? wire = some x ↔
      wire.index < known.values.size ∧ FinalValue (wires.zip values) wire x ∨
        wire ∉ (wires.zip values).map Prod.fst ∧ known.get? wire = some x := by
  induction wires generalizing known values with
  | nil => simp [FinalValue, learnAll]
  | cons first wires ih =>
      cases values with
      | nil => simp [FinalValue, learnAll]
      | cons y values =>
          rw [learnAll_cons, ih, size_learn, get?_learn_eq_some, List.zip_cons_cons, finalValue_cons, List.map_cons,
            List.mem_cons]
          tauto

theorem get?_learnAll_blank {count : Nat} {wires : List Wire} {values : List F.Elem} :
    ((blank count).learnAll wires values).get? wire = some x ↔
      wire.index < count ∧ FinalValue (wires.zip values) wire x := by
  rw [get?_learnAll_eq_some]
  simp

end Knowledge

/-- Surplus values that are ignored play no part. -/
theorem seedInputs_take (role : Role) (declared : List Input) (values : List F.Elem) (known : Knowledge F) :
    seedInputs .ignore role declared (values.take declared.length) known
      = seedInputs .ignore role declared values known := by
  by_cases few : values.length ≤ declared.length
  · rw [List.take_of_length_le few]
  · have more : declared.length ≤ values.length := Nat.le_of_not_le few
    have ignores {supplied : Nat} (enough : declared.length ≤ supplied) :
        SurplusInputs.ignore.Accepts declared.length supplied := ⟨enough, nofun⟩
    have taken := known.learnAll_take (declared.map (·.wire)) values
    rw [List.length_map] at taken
    rw [seedInputs_of_accepts (ignores more), seedInputs_of_accepts (ignores (by simp [more])), taken]

namespace Solver

variable {solver : Solver F} {publicValues secretValues : List F.Elem}

/-- How the checks of a solve go. -/
structure Screens (solver : Solver F) (publicValues secretValues : List F.Elem) : Prop where
  hints : (∃ b ∈ solver.system.hints, solver.registry.check b ≠ .ok ()) →
    ∃ before b after error, solver.system.hints = before ++ b :: after ∧
      solver.registry.check b = .error error ∧ (∀ b' ∈ before, solver.registry.check b' = .ok ()) ∧
      solver.solve publicValues secretValues
        = (.error (.hint error), { solver with known := .blank solver.system.wireCount })
  publicInputs : (∀ b ∈ solver.system.hints, solver.registry.check b = .ok ()) →
    ¬ solver.surplus.Accepts solver.system.publicInputs.length publicValues.length →
    ∃ error, Refused solver.surplus .publicInput solver.system.publicInputs publicValues error ∧
      solver.solve publicValues secretValues
        = (.error error, { solver with known := .blank solver.system.wireCount })
  /-- The public values are known. -/
  secretInputs : (∀ b ∈ solver.system.hints, solver.registry.check b = .ok ()) →
    solver.surplus.Accepts solver.system.publicInputs.length publicValues.length →
    ¬ solver.surplus.Accepts solver.system.secretInputs.length secretValues.length →
    ∃ error known, Refused solver.surplus .secretInput solver.system.secretInputs secretValues error ∧
      solver.solve publicValues secretValues = (.error error, { solver with known }) ∧
      known.values.size = solver.system.wireCount ∧
      ∀ wire x, known.get? wire = some x ↔
        wire.index < solver.system.wireCount ∧
          FinalValue ((solver.system.publicInputs.map (·.wire)).zip publicValues) wire x
  run : (∀ b ∈ solver.system.hints, solver.registry.check b = .ok ()) →
    solver.surplus.Accepts solver.system.publicInputs.length publicValues.length →
    solver.surplus.Accepts solver.system.secretInputs.length secretValues.length →
    ∀ error, (solver.solve publicValues secretValues).1 = .error error → ¬ error.Preliminary
  surplus : solver.surplus = .ignore →
    solver.solve publicValues secretValues = solver.solve (publicValues.take solver.system.publicInputs.length)
      (secretValues.take solver.system.secretInputs.length)

theorem Raises.not_preliminary (checked : ∀ b ∈ solver.system.hints, solver.registry.check b = .ok ())
    {error : SolveError F} (raises : solver.Raises error) : ¬ error.Preliminary := by
  cases raises with
  | underdetermined _ => exact id
  | violated _ _ => exact id
  | failed htask fails =>
      cases SolvingContext.fails_of_attempt fails with
      | constraint _ => exact id
      | hint length invoked =>
          obtain ⟨hint, found⟩ := HintRegistry.check_eq_ok.mp (checked _ (System.mem_hints_of_task htask))
          exact HintRegistry.invoke_fits (length ▸ found) invoked

/-- An error after the checks is none of theirs. -/
theorem not_preliminary_of_solve (checked : ∀ b ∈ solver.system.hints, solver.registry.check b = .ok ())
    (publicAccepted : solver.surplus.Accepts solver.system.publicInputs.length publicValues.length)
    (secretAccepted : solver.surplus.Accepts solver.system.secretInputs.length secretValues.length)
    {error : SolveError F} (failed : (solver.solve publicValues secretValues).1 = .error error) :
    ¬ error.Preliminary := by
  have fits := System.hintError?_eq_none.mpr checked
  by_cases mentioned : ∀ wire ∈ solver.system.mentioned, wire.index < solver.system.wireCount
  · rw [Starts.solve_eq ⟨fits, publicAccepted, secretAccepted, mentioned⟩, complete_eq] at failed
    exact (raises_of_outcome failed).not_preliminary checked
  · rw [solve_outOfRange _ fits publicAccepted secretAccepted mentioned] at failed
    cases failed
    exact id

/-- The checks before a run come in order, and what fails first is reported. -/
theorem solve_screens (solver : Solver F) (publicValues secretValues : List F.Elem) :
    solver.Screens publicValues secretValues where
  hints := by
    rintro ⟨b, hb, unfit⟩
    cases found : solver.system.hintError? solver.registry with
    | none => exact absurd (System.hintError?_eq_none.mp found b hb) unfit
    | some error =>
        obtain ⟨before, first, after, split, failed, fit⟩ := System.hintError?_eq_some.mp found
        exact ⟨before, first, after, error, split, failed, fit, solve_unfit _ found⟩
  publicInputs := by
    intro checked rejected
    obtain ⟨error, refused⟩ := (accepts_or_refused solver.surplus .publicInput solver.system.publicInputs
      publicValues).resolve_left rejected
    exact ⟨error, refused, solve_publicRefused _ (System.hintError?_eq_none.mpr checked) refused⟩
  secretInputs := by
    intro checked accepted rejected
    obtain ⟨error, refused⟩ := (accepts_or_refused solver.surplus .secretInput solver.system.secretInputs
      secretValues).resolve_left rejected
    exact ⟨error, _, refused, solve_secretRefused _ (System.hintError?_eq_none.mpr checked) accepted refused, by simp,
      fun _ _ => Knowledge.get?_learnAll_blank⟩
  run := fun checked publicAccepted secretAccepted _ => not_preliminary_of_solve checked publicAccepted secretAccepted
  surplus := by
    intro ignores
    simp only [solve, ignores, seedInputs_take]

/-- A public `a`, a secret `b`, a hint for their quotient, and the constraint that checks it. -/
def quotientSystem : System .seven where
  roles := [.publicInput, .secretInput, .internal]
  publicInputs := [⟨⟨0⟩, "a"⟩]
  secretInputs := [⟨⟨1⟩, "b"⟩]
  constraints := .rank1 [⟨.ofWire ⟨1⟩, .ofWire ⟨2⟩, .ofWire ⟨0⟩⟩]
  hints := [⟨Hint.divName, [⟨0⟩, ⟨1⟩], [⟨2⟩], 0⟩]

def quotientSolver (registry : HintRegistry) (surplus : SurplusInputs) : Solver .seven :=
  { system := quotientSystem, registry, surplus }

/-- Without the handler nothing is known, nor without `a`. With two values for `b`, only `a` is. To divide by zero
fails later. Surplus values that are ignored play no part. -/
theorem solve_screens_quotientSystem :
    (quotientSolver ⟨[]⟩ .reject).solve [1] [3]
        = (.error (.hint (.unknown Hint.divName)), { quotientSolver ⟨[]⟩ .reject with known := .blank 3 }) ∧
      (quotientSolver .builtin .reject).solve [] [3]
        = (.error (.missingInput .publicInput 0 "a"), { quotientSolver .builtin .reject with known := .blank 3 }) ∧
      (∃ known, (quotientSolver .builtin .reject).solve [1] [3, 4]
          = (.error (.extraInput .secretInput 1 2), { quotientSolver .builtin .reject with known }) ∧
        ∀ wire x, known.get? wire = some x ↔ wire.index < 3 ∧ FinalValue [(⟨0⟩, 1)] wire x) ∧
      (∃ error, ((quotientSolver .builtin .reject).solve [1] [0]).1 = .error error ∧ ¬ error.Preliminary) ∧
      (quotientSolver .builtin .ignore).solve [1, 5] [3, 6] = (quotientSolver .builtin .ignore).solve [1] [3] := by
  have unknown : ∀ b ∈ quotientSystem.hints, HintRegistry.check ⟨[]⟩ b = .error (.unknown Hint.divName) :=
    List.forall_mem_singleton.mpr (by decide +kernel)
  have checked : ∀ b ∈ quotientSystem.hints, HintRegistry.builtin.check b = .ok () :=
    List.forall_mem_singleton.mpr (by decide +kernel)
  refine ⟨?_, ?_, ?_, ?_, ?_⟩
  · obtain ⟨before, b, after, error, split, failed, -, gives⟩ :=
      (solve_screens (quotientSolver ⟨[]⟩ .reject) [1] [3]).hints
        ⟨_, List.mem_singleton_self _, fun fits => nomatch (unknown _ (List.mem_singleton_self _)).symm.trans fits⟩
    have bound : b ∈ (quotientSolver ⟨[]⟩ .reject).system.hints :=
      split ▸ List.mem_append_right before List.mem_cons_self
    cases (unknown b bound).symm.trans failed
    exact gives
  · obtain ⟨error, refused, gives⟩ :=
      (solve_screens (quotientSolver .builtin .reject) [] [3]).publicInputs checked (by decide)
    cases refused with
    | missing first =>
        cases first
        exact gives
    | extra _ more => exact absurd more (by decide)
  · obtain ⟨error, known, refused, gives, -, holds⟩ :=
      (solve_screens (quotientSolver .builtin .reject) [1] [3, 4]).secretInputs checked (by decide) (by decide)
    cases refused with
    | missing first => cases first
    | extra _ _ => exact ⟨known, gives, holds⟩
  · have failed : ((quotientSolver .builtin .reject).solve [1] [0]).1
        = .error (.hint (.failed Hint.divName [1, 0] "division by zero")) := by decide +kernel
    exact ⟨_, failed, (solve_screens (quotientSolver .builtin .reject) [1] [0]).run checked (by decide) (by decide) _
      failed⟩
  · exact (solve_screens (quotientSolver .builtin .ignore) [1, 5] [3, 6]).surplus rfl

end Solver

end ArithCircuit
