import ArithCircuit.Proofs.Circuit.Reached

/-!
# Materialized expressions

An expression that gets a wire of its own restricts no wire before it: every assignment of these has
one extension to the fresh wires, and the wire has the value of the expression there. An expression
that has to be zero restricts the wires before it by that and by nothing else.
-/

namespace ArithCircuit

open ConstraintForm (materialize enforceZero)

variable {F : PrimeField} {κ : Type}

namespace Draft

variable [ToConstraint F κ] {d d' d'' : Draft F κ} {added : List κ} {value value' : Wire → F.Elem}

/-! ## Extensions -/

/-- `value'` goes on from the values of the wires of `d` and satisfies what was added. -/
structure Extension (d : Draft F κ) (added : List κ) (value value' : Wire → F.Elem) : Prop where
  agree : AgreeBelow d.size value value'
  holds : AllHold added value'

/-- No other extension gives other values to the wires of `d'`. -/
structure OnlyExtension (d d' : Draft F κ) (added : List κ) (value value' : Wire → F.Elem) : Prop
    extends d.Extension added value value' where
  only : ∀ other, d.Extension added value other → AgreeBelow d'.size value' other

theorem Extension.accepts (extension : d.Extension added value value') (coherent : d.Coherent)
    (adds : d.Adds d' added) (accepts : d.Accepts value) : d'.Accepts value' :=
  adds.accepts_iff.mpr ⟨(coherent.accepts_of_agree extension.agree).mp accepts, extension.holds⟩

/-- What `d'` accepts is given by the wires of `d`. -/
def Determines (d d' : Draft F κ) : Prop :=
  ∀ value value', AgreeBelow d.size value value' → d'.Accepts value → d'.Accepts value' →
    AgreeBelow d'.size value value'

theorem Determines.refl (d : Draft F κ) : d.Determines d := fun _ _ agree _ _ => agree

theorem Elaborates.determines (h : d.Elaborates d') : d.Determines d' :=
  fun _ _ agree accepts accepts' => h.agree agree accepts accepts'

/-- New constraints take choices away, and give none. -/
theorem Determines.of_size_eq (h : d.Determines d') (size : d''.size = d'.size)
    (accepts : ∀ value, d''.Accepts value → d'.Accepts value) : d.Determines d'' := by
  intro value value' agree accepts₁ accepts₂
  rw [size]
  exact h value value' agree (accepts value accepts₁) (accepts value' accepts₂)

/-- Where the wires of `d` determine the fresh ones, an extension is the only one. -/
theorem Determines.only (h : d.Determines d') (coherent : d.Coherent) (adds : d.Adds d' added)
    (accepts : d.Accepts value) (extension : d.Extension added value value') :
    d.OnlyExtension d' added value value' := by
  refine ⟨extension, fun other extension' => ?_⟩
  exact h value' other (extension.agree.symm.trans extension'.agree le_rfl)
    (extension.accepts coherent adds accepts) (extension'.accepts coherent adds accepts)

end Draft

/-! ## Wires and zeros of lawful forms -/

namespace Synthesis

variable [ConstraintForm F κ] [LawfulForm F κ] {d d' : Draft F κ} {x : LinearCombination F} {wire : Wire}

theorem pin_determines {k : F.Elem} (hrun : (pin k : Synthesis F κ Wire).run d = .ok wire d') :
    d.Determines d' := by
  cases found : d.constantWire? k with
  | some known =>
      obtain ⟨-, rfl⟩ := EStateM.Result.ok.inj ((run_pin_of_known found).symm.trans hrun)
      exact .refl d
  | none =>
      obtain ⟨-, rfl⟩ := EStateM.Result.ok.inj ((run_pin_of_unknown found).symm.trans hrun)
      have defines := LawfulForm.defines_pinned (κ := κ) ⟨d.size⟩ k
      have determines := (Draft.Elaborates.define (.refl d) defines).determines
      exact determines.of_size_eq (Draft.size_remember _ _ _) fun value =>
        (Draft.accepts_congr (Draft.constraints_remember _ _ _)).mp

theorem toWire_determines (hx : x.Below d.size) (hrun : (toWire x : Synthesis F κ Wire).run d = .ok wire d') :
    d.Determines d' := by
  cases hwire : x.asWire? with
  | some bare =>
      rw [toWire_of_wire hwire] at hrun
      obtain ⟨-, rfl⟩ := EStateM.Result.ok.inj hrun
      exact .refl d
  | none =>
      cases hk : x.asConstant? with
      | some k =>
          rw [toWire_of_constant hwire hk] at hrun
          exact pin_determines hrun
      | none =>
          rw [toWire_of_neither hwire hk] at hrun
          obtain ⟨_, _, gave, computes⟩ := LawfulForm.run_materialize (κ := κ) hx
          obtain ⟨-, rfl⟩ := EStateM.Result.ok.inj (gave.symm.trans hrun)
          exact computes.elaborates.determines

theorem enforceZero_determines (hx : x.Below d.size)
    (hrun : (enforceZero x : Synthesis F κ Unit).run d = .ok () d') : d.Determines d' := by
  obtain ⟨d₁, c, gave, elaborates, -, -⟩ := LawfulForm.run_enforceZero (κ := κ) hx
  obtain ⟨-, rfl⟩ := EStateM.Result.ok.inj (gave.symm.trans hrun)
  exact elaborates.determines.of_size_eq rfl fun value accepts => (Draft.accepts_emit.mp accepts).1

variable [UniformForm F κ]

/-- The wire of an expression has its value in the one extension to the fresh wires. -/
theorem toWire_extends (coherent : d.Coherent) (hx : x.Below d.size) :
    ∃ wire d' added, (toWire x : Synthesis F κ Wire).run d = .ok wire d' ∧ d.Adds d' added ∧
      ∀ value, d.Accepts value → ∃ value', d.OnlyExtension d' added value value' ∧
        value' wire = x.evalWith value := by
  obtain ⟨wire, d', added, hrun, adds, free⟩ := toWire_adds (κ := κ) hx
  refine ⟨wire, d', added, hrun, adds, fun value accepts => ?_⟩
  obtain ⟨value', agree, holds⟩ := free value
  have extension : d.Extension added value value' := ⟨agree, holds⟩
  refine ⟨value', (toWire_determines hx hrun).only coherent adds accepts extension, ?_⟩
  have wireValue := ((ensures_toWire coherent hx).of_run hrun).2.forces value'
  rw [wireValue (extension.accepts coherent adds accepts), hx.evalWith_congr agree]

/-- An extension is there where the expression is zero, and it is the only one. -/
theorem enforceZero_extends (coherent : d.Coherent) (hx : x.Below d.size) :
    ∃ d' added, (enforceZero x : Synthesis F κ Unit).run d = .ok () d' ∧ d.Adds d' added ∧
      ∀ value, d.Accepts value → ((∃ value', d.Extension added value value') ↔ x.evalWith value = 0) ∧
        ∀ value', d.Extension added value value' → d.OnlyExtension d' added value value' := by
  obtain ⟨d', added, hrun, adds, forces, free⟩ := enforceZero_adds (κ := κ) hx
  refine ⟨d', added, hrun, adds, fun value accepts => ⟨⟨?_, fun zero => ?_⟩, fun value' =>
    (enforceZero_determines hx hrun).only coherent adds accepts⟩⟩
  · rintro ⟨value', extension⟩
    rw [hx.evalWith_congr extension.agree]
    exact forces value' extension.holds
  · obtain ⟨value', agree, holds⟩ := free value zero
    exact ⟨value', agree, holds⟩

end Synthesis

/-! ## The number of gates -/

namespace Gate

variable {d d' : Draft F (Gate F)} {x : LinearCombination F} {wire : Wire}

/-- A chain has a gate and a wire for every term after the first. -/
theorem size_additionChain {constant : F.Elem} {sum : Term F} {rest : List (Term F)}
    (hrun : (additionChain constant sum rest).run d = .ok wire d') :
    d'.constraints.size = d.constraints.size + rest.length ∧ d'.size = d.size + rest.length := by
  induction rest generalizing d sum with
  | nil =>
      obtain ⟨-, rfl⟩ := EStateM.Result.ok.inj hrun
      exact ⟨rfl, rfl⟩
  | cons term rest ih =>
      let gate := addition sum term (if rest.isEmpty then constant else 0) ⟨d.size⟩
      have behind : (additionChain constant ⟨⟨d.size⟩, 1⟩ rest).run (d.define gate) = .ok wire d' := hrun
      have gates : (d.define gate).constraints.size = d.constraints.size + 1 := Draft.size_constraints_emit d gate
      obtain ⟨constraints, wires⟩ := ih behind
      rw [constraints, wires, gates, Draft.size_define, List.length_cons]
      omega

theorem size_materialize (wide : 2 ≤ x.terms.length) (hrun : (materialize x).run d = .ok wire d') :
    d'.constraints.size = d.constraints.size + (x.terms.length - 1) ∧
      d'.size = d.size + (x.terms.length - 1) := by
  obtain ⟨terms, constant⟩ := x
  match terms with
  | [] => simp at wide
  | [_] => simp at wide
  | first :: second :: rest =>
      have chain : (additionChain constant first (second :: rest)).run d = .ok wire d' := hrun
      exact size_additionChain chain

theorem size_enforceZero (hrun : (enforceZero x).run d = .ok () d') :
    d'.constraints.size = d.constraints.size + max 1 (x.terms.length - 2) ∧
      d'.size = d.size + (x.terms.length - 3) := by
  by_cases many : 3 < x.terms.length
  · rw [enforceZero_of_wide many] at hrun
    obtain ⟨wire, d₁, hwire, last⟩ := Synthesis.run_of_bind hrun
    obtain ⟨-, rfl⟩ := EStateM.Result.ok.inj ((Synthesis.run_emit _).symm.trans last)
    have terms : (initialSum x).terms.length = x.terms.length - 2 := by
      rw [initialSum, List.length_take]
      omega
    obtain ⟨constraints, wires⟩ := size_materialize (by omega) hwire
    rw [Draft.size_constraints_emit, Draft.size_emit, constraints, wires, terms]
    omega
  · rw [enforceZero_of_narrow many] at hrun
    obtain ⟨-, rfl⟩ := EStateM.Result.ok.inj ((Synthesis.run_emit _).symm.trans hrun)
    rw [Draft.size_constraints_emit, Draft.size_emit]
    omega

theorem toWire_of_wide (wide : 2 ≤ x.terms.length) :
    (Synthesis.toWire x : Synthesis F (Gate F) Wire) = materialize x := by
  obtain ⟨terms, constant⟩ := x
  match terms with
  | [] => simp at wide
  | [_] => simp at wide
  | _ :: _ :: _ => exact Synthesis.toWire_of_neither rfl rfl

end Gate

/-- In a draft that operations lead to, a wire for an expression adds nothing but a computation of its value, and
a zero nothing but the condition that the value is zero. -/
theorem Gate.materialization_exact (prime : F.modulus.Prime) {d : Draft F (Gate F)} (reached : d.Reached)
    {x : LinearCombination F} (hx : x.Below d.size) :
    (∃ wire d' gates, (Synthesis.toWire x).run d = .ok wire d' ∧ d.Adds d' gates ∧
      (∀ value, d.Accepts value → ∃ value', d.OnlyExtension d' gates value value' ∧
        value' wire = x.evalWith value) ∧
      (2 ≤ x.terms.length → gates.length = x.terms.length - 1 ∧ d'.size = d.size + (x.terms.length - 1))) ∧
    (x.asConstant? = none → ∃ d' gates, (Gate.enforceZero x).run d = .ok () d' ∧ d.Adds d' gates ∧
      (∀ value, d.Accepts value → ((∃ value', d.Extension gates value value') ↔ x.evalWith value = 0) ∧
        ∀ value', d.Extension gates value value' → d.OnlyExtension d' gates value value') ∧
      gates.length = max 1 (x.terms.length - 2) ∧ d'.size = d.size + (x.terms.length - 3)) := by
  have coherent := reached.coherent prime
  constructor
  · obtain ⟨wire, d', gates, hrun, adds, extends'⟩ := Synthesis.toWire_extends (κ := Gate F) coherent hx
    refine ⟨wire, d', gates, hrun, adds, extends', fun wide => ?_⟩
    rw [toWire_of_wide wide] at hrun
    obtain ⟨constraints, wires⟩ := size_materialize wide hrun
    exact ⟨Nat.add_left_cancel (adds.length.symm.trans constraints), wires⟩
  · intro _
    obtain ⟨d', gates, hrun, adds, extends'⟩ := Synthesis.enforceZero_extends (κ := Gate F) coherent hx
    obtain ⟨constraints, wires⟩ := size_enforceZero hrun
    exact ⟨d', gates, hrun, adds, extends', Nat.add_left_cancel (adds.length.symm.trans constraints), wires⟩

/-- A circuit of five inputs and nothing else. -/
def Circuit.fiveInputs : Circuit .seven where
  steps := ["a", "b", "c", "d", "e"].map fun name => { operation := .secretInput name }

def Draft.fiveInputs : Draft .seven (Gate .seven) := (Circuit.fiveInputs.define (Gate .seven) true 0).draft

/-- `a + 2·b + 3·c + 4·d + 5·e + 6`. -/
def LinearCombination.fiveTerms : LinearCombination .seven where
  terms := [⟨⟨0⟩, 1⟩, ⟨⟨1⟩, 2⟩, ⟨⟨2⟩, 3⟩, ⟨⟨3⟩, 4⟩, ⟨⟨4⟩, 5⟩]
  constant := 6

/-- After the inputs its wire takes four gates, and to be zero it takes three. -/
theorem Gate.materialization_exact_fiveTerms :
    (∃ wire d' gates, (Synthesis.toWire .fiveTerms).run .fiveInputs = .ok wire d' ∧
      (∀ value, ∃ value', Draft.fiveInputs.OnlyExtension d' gates value value' ∧
        value' wire = LinearCombination.fiveTerms.evalWith value) ∧
      gates.length = 4 ∧ d'.size = 9) ∧
    ∃ d' gates, (Gate.enforceZero .fiveTerms).run .fiveInputs = .ok () d' ∧
      (∀ value, (∃ value', Draft.fiveInputs.Extension gates value value') ↔
        LinearCombination.fiveTerms.evalWith value = 0) ∧
      gates.length = 3 ∧ d'.size = 7 := by
  have reached : Draft.fiveInputs.Reached := ⟨Circuit.fiveInputs, true, 0, by decide, rfl⟩
  have below : LinearCombination.fiveTerms.Below Draft.fiveInputs.size := by
    unfold LinearCombination.Below
    decide
  have accepts (value : Wire → PrimeField.seven.Elem) : Draft.fiveInputs.Accepts value := fun c hc => by cases hc
  obtain ⟨⟨wire, d₁, gates₁, run₁, -, extends₁, counts₁⟩, zero⟩ :=
    materialization_exact PrimeField.prime_seven reached below
  obtain ⟨d₂, gates₂, run₂, -, extends₂, counts₂⟩ := zero rfl
  exact ⟨⟨wire, d₁, gates₁, run₁, fun value => extends₁ value (accepts value), counts₁ (by decide)⟩,
    d₂, gates₂, run₂, fun value => (extends₂ value (accepts value)).1, counts₂⟩

end ArithCircuit
