import ArithCircuit.Proofs.Circuit.Soundness
import ArithCircuit.Proofs.Synthesis.Completeness

/-!
# Circuits follow their evaluation

The definition of a circuit leaves an honest assignment with the values of all results, or ends up
with the constraint or the hint at which the evaluation stops. It is not rejected where the evaluation
comes to its end.
-/

namespace ArithCircuit

variable {F : PrimeField} {κ : Type} [ConstraintForm F κ] [LawfulForm F κ] {registry : HintRegistry}
  {given : Supply F} {s s₁ : Stage registry given κ}

/-! ## Registers -/

/-- The same names, for expressions and their values. -/
abbrev Registers.HaveValues (s : Stage registry given κ) : Registers F → ValueRegisters F → Prop :=
  RelatedEntries s.HasValue

namespace Registers.HaveValues

variable {registers : Registers F} {values : ValueRegisters F} {xs : List (LinearCombination F)} {vs : List F.Elem}

theorem grow (h : Registers.HaveValues s registers values) (grows : s.Grows s₁) :
    Registers.HaveValues s₁ registers values :=
  h.imp fun _ _ ⟨name, hx⟩ => ⟨name, hx.grow grows⟩

theorem get (h : Registers.HaveValues s registers values) (name : String) :
    s.HasValue (registers.get name) (values.get name) :=
  RelatedEntries.lookup h name .zero

theorem read (h : Registers.HaveValues s registers values) {operand : Operand F} (closed : operand.Closed) :
    s.HasValue (registers.read operand) (values.read operand) := by
  cases operand with
  | register name => exact h.get name
  | literal x =>
      obtain ⟨terms, constant⟩ := x
      obtain rfl : terms = [] := closed
      exact .ofConstant constant

theorem readAll (h : Registers.HaveValues s registers values) {operands : List (Operand F)}
    (closed : ∀ x ∈ operands, x.Closed) :
    s.HasValues (operands.map registers.read) (operands.map values.read) := by
  unfold Stage.HasValues
  rw [List.forall₂_map_left_iff, List.forall₂_map_right_iff]
  exact List.forall₂_same.mpr fun x hx => h.read (closed x hx)

theorem storeFrom (h : Registers.HaveValues s registers values) (name : String) (i : Nat) (hxs : s.HasValues xs vs) :
    Registers.HaveValues s (Registers.storeFrom name i xs registers) (ValueRegisters.storeFrom name i vs values) := by
  induction hxs generalizing i registers values with
  | nil => exact h
  | cons hx _ ih =>
      refine ih ?_ (i + 1)
      exact .cons ⟨rfl, hx⟩ h

theorem store (h : Registers.HaveValues s registers values) (step : Step F) (hxs : s.HasValues xs vs) :
    Registers.HaveValues s (registers.store step xs) (values.store step vs) := by
  unfold Registers.store ValueRegisters.store
  cases step.out with
  | none => exact h
  | some name =>
      dsimp only
      split
      · exact h.storeFrom name 0 hxs
      · cases hxs with
        | nil => exact h
        | cons hx rest =>
            cases rest with
            | nil => exact .cons ⟨rfl, hx⟩ h
            | cons _ _ => exact h

end Registers.HaveValues

/-! ## Operations -/

/-- A hint is asked for some output. -/
def Operation.asksSome : Operation F → Bool
  | .hint _ _ outputs => 0 < outputs
  | _ => true

/-- The digits that are asked for are at least one, and at most as many as the field has. -/
def Operation.fitsField : Operation F → Bool
  | .toBits _ width => 0 < width ∧ width ≤ F.numBits
  | _ => true

namespace Synthesis

omit [LawfulForm F κ] in
/-- Digits beyond the field are not given for any operand. -/
theorem fitsField_of_run {operation : Operation F} {registers : Registers F} {d d' : Draft F κ}
    {xs : List (LinearCombination F)} (run : (operation.synthesize registers).run d = .ok xs d') :
    operation.fitsField := by
  cases operation with
  | toBits a width =>
      rw [Operation.synthesize, toBits] at run
      split at run
      · cases run
      · rename_i widths
        simp only [Operation.fitsField, decide_eq_true_eq]
        omega
  | _ => rfl

theorem Follows.singleton {m : Synthesis F κ (LinearCombination F)} {e : Evaluation F F.Elem}
    (h : Follows s m e Stage.HasValue) :
    Follows s (List.singleton <$> m) (List.singleton <$> e) Stage.HasValues :=
  h.map fun _ _ _ hx => .cons hx .nil

theorem Follows.silent {m : Synthesis F κ Unit} {e : Evaluation F Unit} (h : Follows s m e fun _ _ _ => True) :
    Follows s (do m; return []) (do e; return []) Stage.HasValues :=
  h.bind fun _ _ _ _ _ => follows_pure .nil

theorem follows_return {x : LinearCombination F} {v : F.Elem} (hx : s.HasValue x v) :
    Follows s (return [x]) (return [v]) Stage.HasValues :=
  follows_pure (.cons hx .nil)

theorem follows_synthesize (prime : F.modulus.Prime) (answers : registry.AnswersBuiltin)
    {registers : Registers F} {values : ValueRegisters F} (haveValues : Registers.HaveValues s registers values)
    (operation : Operation F) (closed : ∀ x ∈ operation.operands, x.Closed)
    (asks : operation.asksSome ∨ registry.IsLenient) (fits : operation.fitsField) :
    Follows s (operation.synthesize registers) (operation.evaluate registry values.read) Stage.HasValues := by
  have read : ∀ x ∈ operation.operands, s.HasValue (registers.read x) (values.read x) := fun x hx =>
    haveValues.read (closed x hx)
  cases operation with
  | publicInput name => exact (follows_input s (by simp) name).singleton
  | secretInput name => exact (follows_input s (by simp) name).singleton
  | constant k => exact follows_return (.ofConstant k)
  | add a b =>
      obtain ⟨ha, hb⟩ := forall_mem_pair.mp read
      exact follows_return (ha.add hb)
  | sub a b =>
      obtain ⟨ha, hb⟩ := forall_mem_pair.mp read
      exact follows_return (ha.sub hb)
  | neg a =>
      have ha := List.forall_mem_singleton.mp read
      exact follows_return ha.neg
  | scale a k =>
      have ha := List.forall_mem_singleton.mp read
      exact follows_return (ha.scale k)
  | ofBits bits => exact follows_return (haveValues.readAll closed).ofBits
  | toWire a =>
      have ha := List.forall_mem_singleton.mp read
      exact (follows_toWire ha).before fun s₁ wire _ hwire => follows_return hwire.hasValue
  | mul a b =>
      obtain ⟨ha, hb⟩ := forall_mem_pair.mp read
      exact (follows_mul ha hb).singleton
  | div a b =>
      obtain ⟨ha, hb⟩ := forall_mem_pair.mp read
      exact (follows_div answers prime ha hb).singleton
  | inverse a =>
      have ha := List.forall_mem_singleton.mp read
      exact (follows_inverse answers prime ha).singleton
  | select c a b =>
      obtain ⟨hc, ha, hb⟩ := forall_mem_triple.mp read
      exact (follows_select prime hc ha hb).singleton
  | assertProduct a b c =>
      obtain ⟨ha, hb, hc⟩ := forall_mem_triple.mp read
      exact (follows_assertProduct ha hb hc).silent
  | assertEqual a b =>
      obtain ⟨ha, hb⟩ := forall_mem_pair.mp read
      exact (follows_assertEqual ha hb).silent
  | assertBoolean a =>
      have ha := List.forall_mem_singleton.mp read
      exact (follows_assertBoolean prime ha).silent
  | toBits a width =>
      have ha := List.forall_mem_singleton.mp read
      obtain ⟨positive, most⟩ := of_decide_eq_true fits
      exact follows_toBits answers prime ha positive most
  | hint name inputs outputs => exact follows_hint (haveValues.readAll closed) name (asks.imp_left of_decide_eq_true)
  | not a =>
      have ha := List.forall_mem_singleton.mp read
      exact follows_return ((Stage.HasValue.ofConstant 1).sub ha)
  | and a b =>
      obtain ⟨ha, hb⟩ := forall_mem_pair.mp read
      exact (follows_mul ha hb).singleton
  | or a b =>
      obtain ⟨ha, hb⟩ := forall_mem_pair.mp read
      exact (follows_or ha hb).singleton
  | xor a b =>
      obtain ⟨ha, hb⟩ := forall_mem_pair.mp read
      exact (follows_xor ha hb).singleton
  | isZero a =>
      have ha := List.forall_mem_singleton.mp read
      exact (follows_isZero answers prime ha).singleton
  | isEqual a b =>
      obtain ⟨ha, hb⟩ := forall_mem_pair.mp read
      exact (follows_isZero answers prime (ha.sub hb)).singleton
  | assertNonZero a =>
      have ha := List.forall_mem_singleton.mp read
      exact ((follows_inverse answers prime ha).map fun _ _ _ _ => trivial).silent
  | lookup2 b0 b1 t0 t1 t2 t3 =>
      simp only [Operation.operands, List.forall_mem_cons, List.not_mem_nil, false_imp_iff, implies_true,
        and_true] at read
      obtain ⟨hb0, hb1, ht0, ht1, ht2, ht3⟩ := read
      exact (follows_lookup2 prime hb0 hb1 ht0 ht1 ht2 ht3).singleton
  | packIntoInputs name bits => exact follows_packChunks name 0 ((haveValues.readAll closed).chunks F.capacity)
  | packBits bits => exact (follows_packBits (haveValues.readAll closed)).singleton

end Synthesis

/-! ## Runs -/

/-- The step gave expressions with these values. -/
def StepRecord.HasValues (s : Stage registry given κ) (record : StepRecord F) (vs : List F.Elem) : Prop :=
  ∃ xs, record.outcome = .ok xs ∧ s.HasValues xs vs

/-- The definition has the values of all results, or a task at which it stops. -/
inductive Definition.Follows (s : Stage registry given κ) (definition : Definition F κ) :
    Except Stop (List (List F.Elem) × Supply F) → Prop
  | completes {results : List (List F.Elem)} (after : Stage registry given κ) (draft : definition.draft = after.draft)
      (grows : s.Grows after) (values : List.Forall₂ (StepRecord.HasValues after) definition.transcript results) :
      Follows s definition (.ok (results, after.rest))
  | stops {stop : Stop} (last : Stage registry given κ) (stopsIn : last.StopsIn definition.draft stop) :
      Follows s definition (.error stop)

theorem Definition.Follows.prepend {definition : Definition F κ}
    {evaluation : Except Stop (List (List F.Elem) × Supply F)} (h : Definition.Follows s₁ definition evaluation)
    (grows : s.Grows s₁) {xs : List (LinearCombination F)} {vs : List F.Elem} (hxs : s₁.HasValues xs vs) (n : Nat) :
    Definition.Follows s (definition.prepend ⟨n, .ok xs⟩)
      (evaluation.map fun (results, rest) => (vs :: results, rest)) := by
  cases h with
  | completes after draft grows₁ values =>
      exact .completes after draft (grows.trans grows₁) (.cons ⟨xs, rfl, hxs.grow grows₁⟩ values)
  | stops last stopsIn => exact .stops last stopsIn

namespace Circuit

omit [ConstraintForm F κ] [LawfulForm F κ] in
theorem run_evaluateSteps {number : Nat} {step : Step F} (taken : ¬ step.onlyIn.any (· ≠ number) = true)
    (rest : List (Step F)) (values : ValueRegisters F) (supply : Supply F) :
    (evaluateSteps registry number (step :: rest) values).run supply
      = ((step.operation.evaluate registry values.read).run supply).bind fun (vs, supply) =>
          ((evaluateSteps registry number rest (values.store step vs)).run supply).map
            fun (results, supply) => (vs :: results, supply) := by
  simp only [evaluateSteps, taken, Bool.false_eq_true, ↓reduceIte, StateT.run_bind]
  cases (step.operation.evaluate registry values.read).run supply with
  | error stop => rfl
  | ok result =>
      simp only [Except.bind, bind]
      cases (evaluateSteps registry number rest (values.store step result.1)).run result.2 <;> rfl

omit [LawfulForm F κ] in
/-- If all records of a run have results, so has the first step. -/
theorem exists_run_of_succeeded {keepsGoing : Bool} {number : Nat} {step : Step F} {rest : List (Step F)}
    {registers : Registers F} {d : Draft F κ} (taken : ¬ step.onlyIn.any (· ≠ number) = true)
    (succeeded : ∀ record ∈ (runSteps keepsGoing number (step :: rest) registers d).transcript, record.Succeeded) :
    ∃ xs d', (step.operation.synthesize registers : Synthesis F κ _).run d = .ok xs d' := by
  cases hrun : (step.operation.synthesize registers : Synthesis F κ _).run d with
  | ok xs d' => exact ⟨xs, d', rfl⟩
  | error error d' =>
      have failed : ⟨d'.constraints.size, .error error⟩ ∈
          (runSteps keepsGoing number (step :: rest) registers d).transcript := by
        simp only [runSteps, taken, hrun, Bool.false_eq_true, ↓reduceIte]
        cases keepsGoing <;> exact List.mem_cons_self
      obtain ⟨xs, hxs⟩ := succeeded _ failed
      cases hxs

/-- A run whose steps all give results follows the evaluation of the steps. -/
theorem runSteps_follows (prime : F.modulus.Prime) (answers : registry.AnswersBuiltin) {keepsGoing : Bool}
    {number : Nat} {steps : List (Step F)} (closed : ∀ step ∈ steps, ∀ x ∈ step.operation.operands, x.Closed)
    (asks : ∀ step ∈ steps, step.operation.asksSome ∨ registry.IsLenient) {registers : Registers F}
    {values : ValueRegisters F} (haveValues : Registers.HaveValues s registers values)
    (succeeded : ∀ record ∈ (runSteps keepsGoing number steps registers s.draft).transcript, record.Succeeded) :
    Definition.Follows s (runSteps keepsGoing number steps registers s.draft)
      ((evaluateSteps registry number steps values).run s.rest) := by
  induction steps generalizing registers values s with
  | nil => exact .completes s rfl (.refl s) .nil
  | cons step rest ih =>
      obtain ⟨hstep, hrest⟩ := List.forall_mem_cons.mp closed
      obtain ⟨hasks, hasks'⟩ := List.forall_mem_cons.mp asks
      by_cases skipped : step.onlyIn.any (· ≠ number) = true
      · simp only [runSteps, evaluateSteps, skipped, ↓reduceIte] at succeeded ⊢
        exact ih hrest hasks' haveValues succeeded
      · obtain ⟨xs, d', hrun⟩ := exists_run_of_succeeded skipped succeeded
        rw [run_evaluateSteps skipped]
        simp only [runSteps, skipped, Bool.false_eq_true, ↓reduceIte] at succeeded ⊢
        have fits := Synthesis.fitsField_of_run hrun
        cases Synthesis.follows_synthesize prime answers haveValues step.operation hstep hasks fits with
        | results s₁ run evaluates grows related =>
            simp only [run, evaluates] at succeeded ⊢
            have later := ih hrest hasks' ((haveValues.grow grows).store step related) fun record hrecord =>
              succeeded record (List.mem_cons_of_mem _ hrecord)
            exact later.prepend grows related _
        | stops last run evaluates stopsIn =>
            simp only [run, evaluates] at succeeded ⊢
            exact .stops last (stopsIn.grow (grows_runSteps keepsGoing number rest _ _))
        | rejects run _ =>
            rw [hrun] at run
            cases run

omit [LawfulForm F κ] in
theorem fitsField_of_runSteps {keepsGoing : Bool} {number : Nat} {steps : List (Step F)} {registers : Registers F}
    {d : Draft F κ}
    (succeeded : ∀ record ∈ (runSteps keepsGoing number steps registers d).transcript, record.Succeeded) :
    ∀ step ∈ steps, ¬ step.onlyIn.any (· ≠ number) = true → step.operation.fitsField := by
  induction steps generalizing registers d with
  | nil => simp
  | cons step rest ih =>
      by_cases skipped : step.onlyIn.any (· ≠ number) = true
      · simp only [runSteps, skipped, ↓reduceIte] at succeeded
        exact List.forall_mem_cons.mpr ⟨fun taken => absurd skipped taken, ih succeeded⟩
      · obtain ⟨xs, d', hrun⟩ := exists_run_of_succeeded skipped succeeded
        simp only [runSteps, skipped, hrun, Bool.false_eq_true, ↓reduceIte] at succeeded
        have later := ih fun record hrecord => succeeded record (List.mem_cons_of_mem _ hrecord)
        exact List.forall_mem_cons.mpr ⟨fun _ => Synthesis.fitsField_of_run hrun, later⟩

/-- Steps that are evaluated to their end are not rejected. -/
theorem error?_of_evaluates (prime : F.modulus.Prime) (answers : registry.AnswersBuiltin) {keepsGoing : Bool}
    {number : Nat} {steps : List (Step F)} (closed : ∀ step ∈ steps, ∀ x ∈ step.operation.operands, x.Closed)
    (asks : ∀ step ∈ steps, step.operation.asksSome ∨ registry.IsLenient)
    (fits : ∀ step ∈ steps, ¬ step.onlyIn.any (· ≠ number) = true → step.operation.fitsField)
    {registers : Registers F} {values : ValueRegisters F} (haveValues : Registers.HaveValues s registers values)
    {results : List (List F.Elem) × Supply F}
    (evaluates : (evaluateSteps registry number steps values).run s.rest = .ok results) :
    (runSteps keepsGoing number steps registers s.draft).error? = none := by
  induction steps generalizing registers values s results with
  | nil => rfl
  | cons step rest ih =>
      obtain ⟨hstep, hrest⟩ := List.forall_mem_cons.mp closed
      obtain ⟨hasks, hasks'⟩ := List.forall_mem_cons.mp asks
      obtain ⟨hfits, hfits'⟩ := List.forall_mem_cons.mp fits
      by_cases skipped : step.onlyIn.any (· ≠ number) = true
      · simp only [runSteps, evaluateSteps, skipped, ↓reduceIte] at evaluates ⊢
        exact ih hrest hasks' hfits' haveValues evaluates
      · rw [run_evaluateSteps skipped] at evaluates
        simp only [runSteps, skipped, Bool.false_eq_true, ↓reduceIte]
        cases Synthesis.follows_synthesize prime answers haveValues step.operation hstep hasks (hfits skipped) with
        | @results xs vs s₁ run evaluated grows related =>
            rw [evaluated] at evaluates
            simp only [run]
            cases later : (evaluateSteps registry number rest (values.store step vs)).run s₁.rest with
            | error stop => simp [later, Except.bind, Except.map] at evaluates
            | ok results' => exact ih hrest hasks' hfits' ((haveValues.grow grows).store step related) later
        | stops last run stopped stopsIn =>
            rw [stopped] at evaluates
            cases evaluates
        | rejects run stopped =>
            rw [stopped] at evaluates
            cases evaluates

end Circuit

end ArithCircuit
