import ArithCircuit.Proofs.Witness.Likeness
import ArithCircuit.Proofs.Witness.Outcome

/-!
# Inputs that nothing mentions

A solve looks at the wires that some constraint or hint mentions, and at no others. So two solves whose inputs
differ on other wires alone have the same outcome after the same passes, and give all other wires the same values.
-/

namespace ArithCircuit

variable {F : PrimeField} {kind : Wire → Prop}

/-! ## The same values for the wires of a kind -/

namespace Knowledge

/-- The same wires of the kind are known, with the same values. -/
structure SameOn (kind : Wire → Prop) (known known' : Knowledge F) : Prop where
  size : known'.values.size = known.values.size
  get?_eq : ∀ wire, kind wire → known'.get? wire = known.get? wire

variable {known known' : Knowledge F} {wire : Wire}

theorem SameOn.refl (kind : Wire → Prop) (known : Knowledge F) : known.SameOn kind known := ⟨rfl, fun _ _ => rfl⟩

theorem SameOn.learn (same : known.SameOn kind known') {x y : F.Elem} (agree : kind wire → x = y) :
    (known.learn wire x).SameOn kind (known'.learn wire y) where
  size := by rw [size_learn, size_learn, same.size]
  get?_eq other hother := by
    rw [get?_learn, get?_learn, same.size, same.get?_eq other hother]
    split
    · rename_i learned
      rw [agree (learned.1 ▸ hother)]
    · rfl

theorem likeness_sameOn : Likeness kind (SameOn kind : Knowledge F → Knowledge F → Prop) where
  get?_eq same := same.get?_eq
  learn same _ _ _ := same.learn fun _ => rfl

/-- Values that differ for wires of other kinds alone. -/
theorem SameOn.learnAll (same : known.SameOn kind known') {wires : List Wire} {values values' : List F.Elem}
    (length : values'.length = values.length)
    (agree : ∀ (i : Nat) (wire : Wire), wires[i]? = some wire → kind wire → values[i]? = values'[i]?) :
    (known.learnAll wires values).SameOn kind (known'.learnAll wires values') := by
  induction wires generalizing known known' values values' with
  | nil => exact same
  | cons wire wires ih =>
      cases values with
      | nil =>
          obtain rfl := List.length_eq_zero_iff.mp length
          exact same
      | cons x values =>
          obtain ⟨y, values', rfl⟩ := List.exists_cons_of_length_eq_add_one length
          have first : kind wire → x = y := fun hwire => by simpa using agree 0 wire rfl hwire
          exact ih (same.learn first) (Nat.succ.inj length) fun i => agree (i + 1)

end Knowledge

/-- The same inputs, and the same values for the wires of the kind. -/
structure Witness.SameOn (kind : Wire → Prop) (witness witness' : Witness F) : Prop where
  size : witness'.values.size = witness.values.size
  publicWires : witness'.publicWires = witness.publicWires
  secretWires : witness'.secretWires = witness.secretWires
  value_eq : ∀ wire, kind wire → witness'.value wire = witness.value wire

namespace Solver

/-- The same error, or witnesses with the same values for the wires of the kind. -/
inductive SameOutcome (kind : Wire → Prop) :
    Except (SolveError F) (Witness F) → Except (SolveError F) (Witness F) → Prop
  | failed (error : SolveError F) : SameOutcome kind (.error error) (.error error)
  | solved {witness witness' : Witness F} : witness.SameOn kind witness' →
      SameOutcome kind (.ok witness) (.ok witness')

variable {solver : Solver F} {known known' : Knowledge F}

theorem witnessOf_sameOn (same : known.SameOn kind known') :
    (solver.witnessOf known).SameOn kind (solver.witnessOf known') where
  size := by simp [witnessOf, same.size]
  publicWires := rfl
  secretWires := rfl
  value_eq wire hwire := by
    rw [value_witnessOf, value_witnessOf, Knowledge.likeness_sameOn.valueOrZero same hwire]

theorem outcome_sameOn (needed : ∀ wire ∈ solver.system.mentioned, kind wire) (same : known.SameOn kind known')
    (error? : Option (SolveError F)) : SameOutcome kind (solver.outcome known error?) (solver.outcome known' error?) := by
  cases error? with
  | some error => exact .failed error
  | none =>
      have values : ∀ wire ∈ solver.system.mentioned, known'.valueOrZero wire = known.valueOrZero wire :=
        fun wire hwire => Knowledge.likeness_sameOn.valueOrZero same (needed wire hwire)
      rw [outcome, outcome, System.firstViolation?_congr values]
      cases solver.system.firstViolation? known.valueOrZero with
      | some violation => exact .failed _
      | none => exact .solved (witnessOf_sameOn same)

/-- The same outcome after as many passes, apart from the wires of other kinds. -/
structure SameSolve (kind : Wire → Prop) (result result' : Except (SolveError F) (Witness F) × Solver F) : Prop where
  outcome : SameOutcome kind result.1 result'.1
  passes : result'.2.passes = result.2.passes
  known : result.2.known.SameOn kind result'.2.known

theorem complete_sameOn (needed : ∀ wire ∈ solver.system.mentioned, kind wire) (same : known.SameOn kind known') :
    SameSolve kind (solver.complete known) (solver.complete known') := by
  have run : (solver.run known).Like (Knowledge.SameOn kind) (solver.run known') :=
    Knowledge.likeness_sameOn.propagate same (fun i marked => needed ⟨i⟩ (getD_markWires.mp marked).2)
      fun task htask wire hwire => needed wire (System.mem_mentioned_of_task htask hwire)
  rw [complete_eq, complete_eq]
  refine ⟨?_, run.passes, run.known⟩
  dsimp only
  rw [run.error?]
  exact outcome_sameOn needed run.known _

end Solver

/-! ## Two solves -/

/-- The wire is declared somewhere with other values in the two lists. -/
def Differs (declared : List Input) (values values' : List F.Elem) (wire : Wire) : Prop :=
  ∃ (i : Nat) (input : Input), declared[i]? = some input ∧ input.wire = wire ∧ values[i]? ≠ values'[i]?

/-- The wire is an input that the two sets of inputs give other values. -/
def System.TellsApart (system : System F) (publicValues secretValues publicValues' secretValues' : List F.Elem)
    (wire : Wire) : Prop :=
  Differs system.publicInputs publicValues publicValues' wire ∨
    Differs system.secretInputs secretValues secretValues' wire

section

variable {declared : List Input} {values values' : List F.Elem}

theorem Knowledge.SameOn.learnInputs {known known' : Knowledge F} (same : known.SameOn kind known')
    (length : values'.length = values.length) (agree : ∀ wire, Differs declared values values' wire → ¬ kind wire) :
    (known.learnAll (declared.map (·.wire)) values).SameOn kind (known'.learnAll (declared.map (·.wire)) values') := by
  refine same.learnAll length fun i wire hi hwire => ?_
  obtain ⟨input, hinput, rfl⟩ : ∃ input, declared[i]? = some input ∧ input.wire = wire := by simpa using hi
  by_contra different
  exact agree input.wire ⟨i, input, hinput, rfl, different⟩ hwire

theorem Refused.of_length {surplus : SurplusInputs} {role : Role} {error : SolveError F}
    (refused : Refused surplus role declared values error) (length : values'.length = values.length) :
    Refused surplus role declared values' error := by
  cases refused with
  | missing first =>
      rw [← length] at first ⊢
      exact .missing first
  | extra rejects more =>
      rw [← length] at more ⊢
      exact .extra rejects more

end

namespace Solver

variable {publicValues secretValues publicValues' secretValues' : List F.Elem}

/-- Inputs that no constraint and no hint mentions have no influence on a solve, apart from their own values. -/
theorem solve_of_unmentioned (solver : Solver F) (publicLength : publicValues'.length = publicValues.length)
    (secretLength : secretValues'.length = secretValues.length)
    (unmentioned : ∀ wire, solver.system.TellsApart publicValues secretValues publicValues' secretValues' wire →
      wire ∉ solver.system.mentioned) :
    SameSolve (fun wire => ¬ solver.system.TellsApart publicValues secretValues publicValues' secretValues' wire)
      (solver.solve publicValues secretValues) (solver.solve publicValues' secretValues') := by
  have publicSame := (Knowledge.SameOn.refl
    (fun wire => ¬ solver.system.TellsApart publicValues secretValues publicValues' secretValues' wire)
    (.blank solver.system.wireCount)).learnInputs publicLength fun _ differs apart => apart (.inl differs)
  have secretSame := publicSame.learnInputs secretLength fun _ differs apart => apart (.inr differs)
  cases solver.stage publicValues secretValues with
  | unfit found =>
      rw [solve_unfit _ found, solve_unfit _ found]
      exact ⟨.failed _, rfl, .refl _ _⟩
  | publicRefused checked refused =>
      rw [solve_publicRefused _ checked refused, solve_publicRefused _ checked (refused.of_length publicLength)]
      exact ⟨.failed _, rfl, .refl _ _⟩
  | secretRefused checked accepted refused =>
      rw [solve_secretRefused _ checked accepted refused,
        solve_secretRefused _ checked (publicLength ▸ accepted) (refused.of_length secretLength)]
      exact ⟨.failed _, rfl, publicSame⟩
  | outOfRange checked accepted accepted' out =>
      rw [solve_outOfRange _ checked accepted accepted' out,
        solve_outOfRange _ checked (publicLength ▸ accepted) (secretLength ▸ accepted') out]
      exact ⟨.failed _, rfl, secretSame⟩
  | runs starts =>
      have starts' : solver.Starts publicValues' secretValues' :=
        ⟨starts.checked, publicLength ▸ starts.publicAccepted, secretLength ▸ starts.secretAccepted, starts.mentioned⟩
      rw [starts.solve_eq, starts'.solve_eq]
      -- the wires told apart are the only ones that may differ, and the run asks for none of them
      exact complete_sameOn (fun wire hwire apart => unmentioned wire apart hwire) secretSame

/-- The square of a secret, and a secret that nothing mentions. -/
def spareSystem : System .seven where
  roles := [.secretInput, .secretInput, .internal]
  publicInputs := []
  secretInputs := [⟨⟨0⟩, "x"⟩, ⟨⟨1⟩, "spare"⟩]
  constraints := .rank1 [⟨.ofWire ⟨0⟩, .ofWire ⟨0⟩, .ofWire ⟨2⟩⟩]
  hints := []

theorem solve_spareSystem :
    (∀ wire, spareSystem.TellsApart [] [3, 5] [] [3, 6] wire → wire ∉ spareSystem.mentioned) ∧
      SameSolve (fun wire => ¬ spareSystem.TellsApart [] [3, 5] [] [3, 6] wire)
        (({ system := spareSystem, registry := .builtin } : Solver .seven).solve [] [3, 5])
        (({ system := spareSystem, registry := .builtin } : Solver .seven).solve [] [3, 6]) :=
  have unmentioned : ∀ wire, spareSystem.TellsApart [] [3, 5] [] [3, 6] wire → wire ∉ spareSystem.mentioned := by
    rintro _ (⟨i, input, declared, -, -⟩ | ⟨i, input, declared, rfl, differs⟩)
    · simp [spareSystem] at declared
    · match i with
      | 0 => exact absurd rfl differs
      | 1 =>
          cases declared
          decide
      | i + 2 => simp [spareSystem] at declared
  ⟨unmentioned, solve_of_unmentioned { system := spareSystem, registry := .builtin } rfl rfl unmentioned⟩

end Solver

end ArithCircuit
