import ArithCircuit.Circuit.Compile
import ArithCircuit.Proofs.Circuit.Meaning
import ArithCircuit.Proofs.Circuit.Soundness
import ArithCircuit.Proofs.Synthesis.Matching

/-!
# Triples and gates compile a circuit to the same

Compiled to triples and to gates, a closed circuit fails at the same step for the same reason or
gives systems that ask for the same of the wires that both have.
-/

namespace ArithCircuit

variable {F : PrimeField} {s s₁ : Twins F}

/-! ## Registers -/

/-- The same names, for expressions and their images. -/
abbrev Registers.Images (s : Twins F) : Registers F → Registers F → Prop :=
  RelatedEntries s.Image

namespace Registers.Images

variable {registers registers' : Registers F} {xs xs' : List (LinearCombination F)}

theorem grow (h : Registers.Images s registers registers') (grows : s.Grows s₁) :
    Registers.Images s₁ registers registers' :=
  h.imp fun _ _ ⟨name, image⟩ => ⟨name, image.grow grows⟩

theorem get (h : Registers.Images s registers registers') (name : String) :
    s.Image (registers.get name) (registers'.get name) :=
  RelatedEntries.lookup h name .zero

theorem read (h : Registers.Images s registers registers') {operand : Operand F} (closed : operand.Closed) :
    s.Image (registers.read operand) (registers'.read operand) := by
  cases operand with
  | register name => exact h.get name
  | literal x =>
      obtain ⟨terms, constant⟩ := x
      obtain rfl : terms = [] := closed
      exact .ofConstant constant

theorem readAll (h : Registers.Images s registers registers') {operands : List (Operand F)}
    (closed : ∀ x ∈ operands, x.Closed) :
    s.Images (operands.map registers.read) (operands.map registers'.read) := by
  unfold Twins.Images
  rw [List.forall₂_map_left_iff, List.forall₂_map_right_iff]
  exact List.forall₂_same.mpr fun x hx => h.read (closed x hx)

theorem storeFrom (h : Registers.Images s registers registers') (name : String) (i : Nat) (hxs : s.Images xs xs') :
    Registers.Images s (Registers.storeFrom name i xs registers) (Registers.storeFrom name i xs' registers') := by
  induction hxs generalizing i registers registers' with
  | nil => exact h
  | cons image _ ih =>
      refine ih ?_ (i + 1)
      exact .cons ⟨rfl, image⟩ h

theorem store (h : Registers.Images s registers registers') (step : Step F) (hxs : s.Images xs xs') :
    Registers.Images s (registers.store step xs) (registers'.store step xs') := by
  unfold Registers.store
  split
  · exact h
  · split
    · exact h.storeFrom _ 0 hxs
    · cases hxs with
      | nil => exact h
      | cons image rest =>
          cases rest with
          | nil => exact .cons ⟨rfl, image⟩ h
          | cons _ _ => exact h

end Registers.Images

/-! ## Operations -/

namespace Synthesis

theorem Matches.singleton {m : Synthesis F (Triple F) (LinearCombination F)}
    {m' : Synthesis F (Gate F) (LinearCombination F)} (h : Matches s m m' Twins.Image) :
    Matches s (List.singleton <$> m) (List.singleton <$> m') Twins.Images :=
  h.map fun _ _ _ image => .cons image .nil

theorem Matches.silent {m : Synthesis F (Triple F) Unit} {m' : Synthesis F (Gate F) Unit}
    (h : Matches s m m' fun _ _ _ => True) :
    Matches s (do m; return []) (do m'; return []) Twins.Images :=
  h.bind fun _ _ _ _ _ => matches_pure .nil

theorem matches_return {x x' : LinearCombination F} (hx : s.Image x x') :
    Matches s (return [x]) (return [x']) Twins.Images :=
  matches_pure (.cons hx .nil)

theorem matches_synthesize {registers registers' : Registers F} (images : Registers.Images s registers registers')
    (operation : Operation F) (closed : ∀ x ∈ operation.operands, x.Closed) :
    Matches s (operation.synthesize registers) (operation.synthesize registers') Twins.Images := by
  have read : ∀ x ∈ operation.operands, s.Image (registers.read x) (registers'.read x) := fun x hx =>
    images.read (closed x hx)
  cases operation with
  | publicInput name => exact (matches_input s .publicInput (by simp) name).singleton
  | secretInput name => exact (matches_input s .secretInput (by simp) name).singleton
  | constant k => exact matches_return (.ofConstant k)
  | add a b =>
      obtain ⟨ha, hb⟩ := forall_mem_pair.mp read
      exact matches_return (ha.add hb)
  | sub a b =>
      obtain ⟨ha, hb⟩ := forall_mem_pair.mp read
      exact matches_return (ha.sub hb)
  | neg a =>
      have ha := List.forall_mem_singleton.mp read
      exact matches_return ha.neg
  | scale a k =>
      have ha := List.forall_mem_singleton.mp read
      exact matches_return (ha.scale k)
  | ofBits bits => exact matches_return (images.readAll closed).ofBits
  | toWire a =>
      have ha := List.forall_mem_singleton.mp read
      apply (matches_toWire ha).bind
      intro s₁ wire wire' _ image
      exact matches_return image.image
  | mul a b =>
      obtain ⟨ha, hb⟩ := forall_mem_pair.mp read
      exact (matches_mul ha hb).singleton
  | div a b =>
      obtain ⟨ha, hb⟩ := forall_mem_pair.mp read
      exact (matches_div ha hb).singleton
  | inverse a =>
      have ha := List.forall_mem_singleton.mp read
      exact (matches_inverse ha).singleton
  | select c a b =>
      obtain ⟨hc, ha, hb⟩ := forall_mem_triple.mp read
      exact (matches_select hc ha hb).singleton
  | assertProduct a b c =>
      obtain ⟨ha, hb, hc⟩ := forall_mem_triple.mp read
      exact (matches_assertProduct ha hb hc).silent
  | assertEqual a b =>
      obtain ⟨ha, hb⟩ := forall_mem_pair.mp read
      exact (matches_assertEqual ha hb).silent
  | assertBoolean a =>
      have ha := List.forall_mem_singleton.mp read
      exact (matches_assertBoolean ha).silent
  | toBits a width =>
      have ha := List.forall_mem_singleton.mp read
      exact matches_toBits ha width
  | hint name inputs outputs => exact matches_hint (images.readAll closed) name outputs
  | not a =>
      have ha := List.forall_mem_singleton.mp read
      exact matches_return ((Twins.Image.ofConstant 1).sub ha)
  | and a b =>
      obtain ⟨ha, hb⟩ := forall_mem_pair.mp read
      exact (matches_mul ha hb).singleton
  | or a b =>
      obtain ⟨ha, hb⟩ := forall_mem_pair.mp read
      exact (matches_or ha hb).singleton
  | xor a b =>
      obtain ⟨ha, hb⟩ := forall_mem_pair.mp read
      exact (matches_xor ha hb).singleton
  | isZero a =>
      have ha := List.forall_mem_singleton.mp read
      exact (matches_isZero ha).singleton
  | isEqual a b =>
      obtain ⟨ha, hb⟩ := forall_mem_pair.mp read
      exact (matches_isZero (ha.sub hb)).singleton
  | assertNonZero a =>
      have ha := List.forall_mem_singleton.mp read
      exact ((matches_inverse ha).map fun _ _ _ _ => trivial).silent
  | lookup2 b0 b1 t0 t1 t2 t3 =>
      simp only [Operation.operands, List.forall_mem_cons, List.not_mem_nil, false_imp_iff, implies_true,
        and_true] at read
      obtain ⟨hb0, hb1, ht0, ht1, ht2, ht3⟩ := read
      exact (matches_lookup2 hb0 hb1 ht0 ht1 ht2 ht3).singleton
  | packIntoInputs name bits =>
      exact matches_packChunks name 0 ((images.readAll closed).chunks F.capacity)
  | packBits bits => exact (matches_packBits (images.readAll closed)).singleton

end Synthesis

/-! ## Runs -/

/-- The same results under new names, or the same error. -/
inductive StepRecord.SameOutcome (ρ : Nat → Nat) : StepRecord F → StepRecord F → Prop
  | results (n n' : Nat) (xs : List (LinearCombination F)) :
      SameOutcome ρ ⟨n, .ok xs⟩ ⟨n', .ok (xs.map (LinearCombination.rename ρ))⟩
  | errors (n n' : Nat) {e e' : SynthesisError} (same : e.SameCause e') :
      SameOutcome ρ ⟨n, .error e⟩ ⟨n', .error e'⟩

theorem StepRecord.SameOutcome.of_images {xs xs' : List (LinearCombination F)} (images : s.Images xs xs')
    (n n' : Nat) : SameOutcome s.names ⟨n, .ok xs⟩ ⟨n', .ok xs'⟩ := by
  rw [images.eq]
  exact .results n n' xs

/-- The runs end in twins, with the same outcomes. -/
structure Definition.Matches (s : Twins F) (left : Definition F (Triple F)) (right : Definition F (Gate F)) :
    Prop where
  triples : left.draft = s.triples
  gates : right.draft = s.gates
  transcript : List.Forall₂ (StepRecord.SameOutcome s.names) left.transcript right.transcript
  error : Option.Rel SynthesisError.SameCause left.error? right.error?

theorem Definition.Matches.prepend {left : Definition F (Triple F)} {right : Definition F (Gate F)}
    (h : Definition.Matches s left right) {record record' : StepRecord F}
    (same : StepRecord.SameOutcome s.names record record') :
    Definition.Matches s (left.prepend record) (right.prepend record') :=
  { h with transcript := .cons same h.transcript }

namespace Circuit

theorem runSteps_matches (keepsGoing : Bool) (number : Nat) {steps : List (Step F)}
    (closed : ∀ step ∈ steps, ∀ x ∈ step.operation.operands, x.Closed) {registers registers' : Registers F}
    (images : Registers.Images s registers registers') : ∃ s₁ : Twins F, s.Grows s₁ ∧
      Definition.Matches s₁ (runSteps keepsGoing number steps registers s.triples)
        (runSteps keepsGoing number steps registers' s.gates) := by
  induction steps generalizing registers registers' s with
  | nil => exact ⟨s, .refl s, rfl, rfl, .nil, .none⟩
  | cons step rest ih =>
      obtain ⟨hstep, hrest⟩ := List.forall_mem_cons.mp closed
      by_cases skipped : step.onlyIn.any (· ≠ number) = true
      · simp only [runSteps, skipped, ↓reduceIte]
        exact ih hrest images
      · simp only [runSteps, skipped, Bool.false_eq_true, ↓reduceIte]
        cases Synthesis.matches_synthesize images step.operation hstep with
        | results s₁ run run' grows related =>
            simp only [run, run']
            obtain ⟨s₂, grows₂, rest⟩ := ih hrest ((images.grow grows).store step related)
            exact ⟨s₂, grows.trans grows₂, rest.prepend (.of_images (related.grow grows₂) _ _)⟩
        | errors s₁ run run' grows same =>
            simp only [run, run']
            cases keepsGoing with
            | false => exact ⟨s₁, grows, rfl, rfl, .cons (.errors _ _ same) .nil, .some same⟩
            | true =>
                obtain ⟨s₂, grows₂, rest⟩ := ih hrest (images.grow grows)
                exact ⟨s₂, grows.trans grows₂, rest.prepend (.errors _ _ same)⟩

end Circuit

def Twins.empty (F : PrimeField) (sharesConstants : Bool) : Twins F where
  names := id
  triples := { sharesConstants }
  gates := { sharesConstants }
  simulates := {
    embeds := ⟨strictMono_id, fun _ => rfl⟩
    coherent := Draft.coherent_empty sharesConstants
    coherent' := Draft.coherent_empty sharesConstants
    equisatisfiable := {
      restrict := fun _ _ => by simp [Draft.Accepts]
      extend := fun value _ => ⟨value, by simp [Draft.Accepts], .refl _ _⟩
      unique := fun _ _ _ _ _ wire hwire => absurd hwire (Nat.not_lt_zero _) }
    sharesConstants := rfl
    publicInputs := rfl
    secretInputs := rfl
    hints := .nil
    booleans := by simp
    constants := rfl }

/-! ## Compiled systems -/

/-- The second system asks for the same as the first of the wires that the first has, and leaves no
choice for its other wires. -/
structure System.EquivalentUnder (ρ : Nat → Nat) (system system' : System F) : Prop where
  wire_lt : ∀ i < system.wireCount, ρ i < system'.wireCount
  publicInputs : system'.publicInputs = system.publicInputs.map (Input.rename ρ)
  secretInputs : system'.secretInputs = system.secretInputs.map (Input.rename ρ)
  hints : List.Forall₂ (HintBinding.Renamed ρ) system.hints system'.hints
  satisfied : ∀ value, system.Satisfied value ↔ ∃ value', system'.Satisfied value' ∧
    ∀ wire : Wire, wire.index < system.wireCount → value' (wire.rename ρ) = value wire
  unique : ∀ value₁ value₂, system'.Satisfied value₁ → system'.Satisfied value₂ →
    (∀ wire : Wire, wire.index < system.wireCount → value₁ (wire.rename ρ) = value₂ (wire.rename ρ)) →
    ∀ wire : Wire, wire.index < system'.wireCount → value₁ wire = value₂ wire

theorem Twins.equivalent (s : Twins F) : System.EquivalentUnder s.names
    (s.triples.toSystem ConstraintForm.collect) (s.gates.toSystem ConstraintForm.collect) where
  wire_lt i hi := s.simulates.embeds.lt hi
  publicInputs := s.simulates.publicInputs
  secretInputs := s.simulates.secretInputs
  hints := s.simulates.hints
  satisfied value := by
    rw [Draft.satisfied_toSystem]
    simp only [Draft.satisfied_toSystem]
    constructor
    · exact s.simulates.equisatisfiable.extend value
    · rintro ⟨value', accepts, agree⟩
      exact (s.simulates.coherent.accepts_of_agree agree).mp
        (s.simulates.equisatisfiable.restrict value' accepts)
  unique value₁ value₂ h₁ h₂ :=
    s.simulates.equisatisfiable.unique value₁ value₂ (Draft.satisfied_toSystem.mp h₁)
      (Draft.satisfied_toSystem.mp h₂)

/-- Equivalent systems, or the same error. -/
inductive Compilation.SameResult (ρ : Nat → Nat) :
    Except CompileError (System F) → Except CompileError (System F) → Prop
  | systems {system system' : System F} (equivalent : system.EquivalentUnder ρ system') :
      SameResult ρ (.ok system) (.ok system')
  | errors {e e' : SynthesisError} (same : e.SameCause e') :
      SameResult ρ (.error (.synthesis e)) (.error (.synthesis e'))

/-- Step by step the same outcomes, and the same result. -/
structure Compilation.EquivalentUnder (ρ : Nat → Nat) (c c' : Compilation F) : Prop where
  transcript : List.Forall₂ (StepRecord.SameOutcome ρ) c.transcript c'.transcript
  result : SameResult ρ c.result c'.result

theorem Definition.Matches.equivalent {left : Definition F (Triple F)} {right : Definition F (Gate F)}
    (h : Definition.Matches s left right) :
    Compilation.EquivalentUnder s.names left.compilation right.compilation where
  transcript := h.transcript
  result := by
    have error := h.error
    unfold Definition.compilation
    cases hleft : left.error? with
    | none =>
        rw [hleft] at error
        cases hright : right.error? with
        | some e' => rw [hright] at error; cases error
        | none =>
            rw [h.triples, h.gates]
            exact .systems s.equivalent
    | some e =>
        rw [hleft] at error
        cases hright : right.error? with
        | none => rw [hright] at error; cases error
        | some e' =>
            rw [hright] at error
            cases error with
            | some same => exact .errors same

namespace Circuit

/-- Compiled to gates, a closed circuit gives what it gives compiled to triples, under new names that keep the
order of the wires. -/
theorem compileOnce_equivalent {circuit : Circuit F} (closed : circuit.Closed) (options : CompileOptions)
    (number : Nat) : ∃ ρ : Nat → Nat, StrictMono ρ ∧ Compilation.EquivalentUnder ρ
      (circuit.compileOnce { options with backend := .rank1 } number)
      (circuit.compileOnce { options with backend := .gate } number) := by
  obtain ⟨s₁, -, same⟩ := runSteps_matches (s := Twins.empty F options.eliminateConstantWires)
    circuit.keepsGoing number closed .nil
  exact ⟨s₁.names, s₁.simulates.embeds.mono, same.equivalent⟩

theorem fiveForZero_equivalent : ∃ ρ : Nat → Nat, StrictMono ρ ∧ Compilation.EquivalentUnder ρ
    (fiveForZero.compileOnce { backend := .rank1 } 0) (fiveForZero.compileOnce { backend := .gate } 0) :=
  compileOnce_equivalent (by decide) {} 0

end Circuit

end ArithCircuit
