import ArithCircuit.Proofs.Circuit.Reached
import ArithCircuit.Proofs.Field.Bytes
import ArithCircuit.Proofs.Synthesis.Provenance

/-!
# The caches of a draft

A draft remembers wires that are constrained to be zero or one, and wires that are pinned to constants. What it
remembers is true, so nothing is lost where a constraint is left out for it. And it is complete: no wire is
checked again, and no constant is pinned again where constants are shared.
-/

namespace ArithCircuit

open ConstraintForm (boolean pinned asWire? wireFactor)
open LinearCombination (ofConstant ofWire)
open PrimeField (IsDigit toBytes)

variable {F : PrimeField} {κ : Type}

theorem PrimeField.toBytes_injective : Function.Injective (toBytes : F.Elem → List UInt8) := by
  intro x y same
  have read := ofBytes?_toBytes x
  rw [same, ofBytes?_toBytes] at read
  exact (Option.some.inj read).symm

/-! ## Labels of a draft -/

namespace Draft

section Labels

variable [ConstraintForm F κ] {d : Draft F (Labelled κ)} {k : F.Elem} {wire : Wire}

theorem mem_plain {c : Labelled κ} (h : c ∈ d.constraints.toList) : c.plain ∈ d.plain.constraints.toList := by
  rw [plain, Array.toList_map]
  exact List.mem_map_of_mem h

theorem mem_pins : (k, wire) ∈ d.pins ↔ .pin wire k ∈ d.constraints.toList := by
  simp only [pins, List.mem_filterMap]
  constructor
  · rintro ⟨c, hc, label⟩
    cases c with
    | pin wire' k' =>
        cases label
        exact hc
    | check | other => cases label
  · exact fun h => ⟨_, h, rfl⟩

theorem exists_check_of_pos (h : 0 < d.timesChecked wire) :
    ∃ y, .check y ∈ d.constraints.toList ∧ asWire? y = some wire := by
  obtain ⟨c, hc, label⟩ := List.countP_pos_iff.mp h
  cases c with
  | check y => exact ⟨y, hc, of_decide_eq_true label⟩
  | pin | other => cases label

theorem Booked.mem_constants (h : d.Booked) (shares : d.sharesConstants = true) :
    (k, wire) ∈ d.constants ↔ (k, wire) ∈ d.pins := by
  rw [h.pins shares, List.mem_reverse]

/-- Where constants are shared there is one pin to a constant. -/
theorem Booked.pin_unique (h : d.Booked) (shares : d.sharesConstants = true) {wire' : Wire} (hwire : (k, wire) ∈ d.pins)
    (hwire' : (k, wire') ∈ d.pins) : wire = wire' := by
  have entry := (h.mem_constants shares).mpr hwire
  have entry' := (h.mem_constants shares).mpr hwire'
  exact congrArg Prod.snd (List.inj_on_of_nodup_map h.distinct entry entry' rfl)

theorem Booked.mem_pins_of_constants (h : d.Booked) (entry : (k, wire) ∈ d.constants) : (k, wire) ∈ d.pins := by
  cases shares : d.sharesConstants with
  | true => exact (h.mem_constants shares).mp entry
  | false =>
      rw [h.separate shares] at entry
      cases entry

theorem Booked.timesChecked_le (h : d.Booked) (wire : Wire) : d.timesChecked wire ≤ 1 := by
  rw [h.checks]
  split <;> omega

end Labels

/-- What a draft remembers is true, and nothing that it remembers was constrained twice. -/
structure CachesSound [ConstraintForm F κ] [LawfulForm F κ] (d : Draft F (Labelled κ)) : Prop where
  /-- One constraint is enough to know that a marked wire is zero or one. -/
  booleans : ∀ wire ∈ d.plain.booleans, ∃ c ∈ d.plain.constraints.toList, ∀ value,
    (toConstraint c).Holds value → IsDigit (value wire)
  /-- One constraint is enough to know the value that is spelled by the key of a remembered constant. -/
  constants : ∀ entry ∈ d.plain.constants, ∀ k, toBytes k = toBytes entry.1 →
    ∃ c ∈ d.plain.constraints.toList, ∀ value, (toConstraint c).Holds value → value entry.2 = k
  pinnedOnce : d.plain.sharesConstants = true → ∀ k wire wire', (k, wire) ∈ d.pins → (k, wire') ∈ d.pins → wire = wire'
  separate : d.plain.sharesConstants = false → d.plain.constants = []
  checkedOnce : ∀ wire, d.timesChecked wire ≤ 1

end Draft

namespace Synthesis

variable [ConstraintForm F κ]

/-- A constant comes on a wire that is remembered for it, or else a pin of the wire is all that is emitted. -/
theorem run_toWire_constant (d : Draft F (Labelled κ)) (k : F.Elem) :
    ∃ wire d' cs, (toWire (ofConstant k)).run d = .ok wire d' ∧
      d'.constraints.toList = d.constraints.toList ++ cs ∧
      (cs = [.pin wire k] ∨ cs = [] ∧ (k, wire) ∈ d.constants) := by
  rw [toWire_of_constant (k := k) rfl rfl]
  cases known : d.constantWire? k with
  | some wire => exact ⟨wire, d, [], run_pin_of_known known, by simp, .inr ⟨rfl, mem_constants known⟩⟩
  | none =>
      refine ⟨_, _, [.pin ⟨d.size⟩ k], run_pin_of_unknown known, ?_, .inl rfl⟩
      rw [Draft.constraints_remember]
      exact Array.toList_push

/-- All that is emitted when a wire is asserted to be zero or one is a check of the wire. -/
theorem run_assertBoolean_wire [UniformForm F κ] (d : Draft F (Labelled κ)) (wire : Wire) :
    ∃ d' cs, (assertBoolean (ofWire wire)).run d = .ok () d' ∧
      d'.constraints.toList = d.constraints.toList ++ cs ∧ ∀ c ∈ cs, c.checks wire := by
  have alone : asWire? (wireFactor (κ := κ) wire) = some wire := UniformForm.asWire?_wireFactor wire
  -- a wire is no constant
  rw [assertBoolean_of_not_constant (by rfl)]
  by_cases marked : wire ∈ d.booleans
  · exact ⟨d, [], run_constrainBoolean_of_marked (run_factor_ofWire wire d) alone marked, by simp, by simp⟩
  · refine ⟨_, [.check (wireFactor (κ := κ) wire)],
      run_constrainBoolean_of_new (run_factor_ofWire wire d) alone marked, Array.toList_push, ?_⟩
    simpa using alone

end Synthesis

/-! ## Runs -/

section Runs

variable [ConstraintForm F κ] [UniformForm F κ]

def Definition.plain (definition : Definition F (Labelled κ)) : Definition F κ :=
  ⟨definition.draft.plain, definition.transcript, definition.error?⟩

namespace Circuit

theorem runSteps_plain (keepsGoing : Bool) (number : Nat) (steps : List (Step F)) (registers : Registers F)
    (d : Draft F (Labelled κ)) : (runSteps keepsGoing number steps registers d).plain
      = runSteps keepsGoing number steps registers d.plain := by
  induction steps generalizing registers d with
  | nil => rfl
  | cons step rest ih =>
      by_cases skipped : step.onlyIn.any (· ≠ number) = true
      · simp only [runSteps, skipped, ↓reduceIte]
        exact ih registers d
      · have plain := (Synthesis.tracks_synthesize (κ := κ) registers step.operation).run d
        simp only [runSteps, skipped, Bool.false_eq_true, ↓reduceIte]
        cases hrun : (step.operation.synthesize registers : Synthesis F (Labelled κ) _).run d with
        | ok results d' =>
            rw [hrun] at plain
            simp only [plain, Synthesis.plainResult, ← ih, d'.size_plain]
            rfl
        | error e d' =>
            rw [hrun] at plain
            simp only [plain, Synthesis.plainResult, ← ih, d'.size_plain]
            cases keepsGoing <;> rfl

/-- Without labels the definition in labelled constraints is the one in the constraints themselves. -/
theorem define_plain (circuit : Circuit F) (sharesConstants : Bool) (number : Nat) :
    (circuit.define (Labelled κ) sharesConstants number).plain = circuit.define κ sharesConstants number := by
  rw [define, runSteps_plain, Draft.plain_empty, define]

theorem booked_define (circuit : Circuit F) (sharesConstants : Bool) (number : Nat) :
    (circuit.define (Labelled κ) sharesConstants number).draft.Booked :=
  runSteps_keeps (fun registers operation => (Synthesis.tracks_synthesize (κ := κ) registers operation).booked)
    circuit.keepsGoing number circuit.steps [] (Draft.booked_empty sharesConstants)

end Circuit

end Runs

/-! ## Sound caches -/

theorem Draft.Booked.cachesSound [ConstraintForm F κ] [UniformForm F κ] [LawfulForm F κ] (prime : F.modulus.Prime)
    {d : Draft F (Labelled κ)} (booked : d.Booked) : d.CachesSound where
  booleans wire hwire := by
    have counted : d.timesChecked wire = 1 := (booked.checks wire).trans (if_pos hwire)
    obtain ⟨y, hy, alone⟩ := exists_check_of_pos (counted ▸ Nat.one_pos)
    refine ⟨_, mem_plain hy, fun value holds => ?_⟩
    have digit := LawfulForm.holds_boolean.mp holds
    rw [(LawfulForm.asWire?_spec alone).2 value] at digit
    exact (PrimeField.mul_sub_one_eq_zero prime).mp digit
  constants := by
    rintro ⟨k, wire⟩ entry k' same
    obtain rfl := PrimeField.toBytes_injective same
    refine ⟨_, mem_plain (mem_pins.mp (booked.mem_pins_of_constants entry)), fun value holds => ?_⟩
    exact ((LawfulForm.defines_pinned wire k').holds_iff value).mp holds
  pinnedOnce shares _ _ _ := booked.pin_unique shares
  separate := booked.separate
  checkedOnce := booked.timesChecked_le

namespace Circuit

/-- What a draft remembers is sound whenever a circuit has come to an end, so it is after each step: the steps up
to there are a circuit. The labels tell which constraints were emitted to pin a constant or to check a wire. -/
theorem caches_sound (prime : F.modulus.Prime) (backend : Backend) :
    (∀ (circuit : Circuit F) (sharesConstants : Bool) (number : Nat),
      (circuit.define (Labelled (backend.Form F)) sharesConstants number).plain
        = circuit.define (backend.Form F) sharesConstants number ∧
      (circuit.define (Labelled (backend.Form F)) sharesConstants number).draft.CachesSound) ∧
    (∀ (d : Draft F (Labelled (backend.Form F))) (k : F.Elem),
      ∃ wire d' cs, (Synthesis.toWire (ofConstant k)).run d = .ok wire d' ∧
        d'.constraints.toList = d.constraints.toList ++ cs ∧
        (cs = [.pin wire k] ∨ cs = [] ∧ (k, wire) ∈ d.constants)) ∧
    ∀ (d : Draft F (Labelled (backend.Form F))) (wire : Wire),
      ∃ d' cs, (Synthesis.assertBoolean (ofWire wire)).run d = .ok () d' ∧
        d'.constraints.toList = d.constraints.toList ++ cs ∧ ∀ c ∈ cs, c.checks wire := by
  refine ⟨fun circuit sharesConstants number => ⟨define_plain circuit sharesConstants number, ?_⟩,
    Synthesis.run_toWire_constant, Synthesis.run_assertBoolean_wire⟩
  exact (booked_define circuit sharesConstants number).cachesSound prime

/-- A circuit that asserts twice that a wire is zero or one, and chooses by it in between. Then it calls a hint
with a constant given twice. -/
def repetitive : Circuit .seven where
  steps := [
    { operation := .secretInput "b", out := some "b" },
    { operation := .assertBoolean (.register "b") },
    { operation := .select (.register "b") (.literal (.ofConstant 2)) (.literal .zero) },
    { operation := .assertBoolean (.register "b") },
    { operation := .hint "dbg" [.literal (.ofConstant 3), .literal (.ofConstant 3)] 1 }]

/-- One check and one pin are all that is needed. -/
theorem repetitive_caches :
    (∃ c ∈ (repetitive.define (Backend.gate.Form .seven) true 0).draft.constraints.toList,
      ∀ value, (toConstraint c).Holds value → IsDigit (value ⟨0⟩)) ∧
    (∃ c ∈ (repetitive.define (Backend.gate.Form .seven) true 0).draft.constraints.toList,
      ∀ value, (toConstraint c).Holds value → value ⟨1⟩ = 3) ∧
    (repetitive.define (Labelled (Backend.gate.Form .seven)) true 0).draft.timesChecked ⟨0⟩ ≤ 1 := by
  obtain ⟨plain, sound⟩ := (caches_sound PrimeField.prime_seven .gate).1 repetitive true 0
  rw [← plain]
  exact ⟨sound.booleans ⟨0⟩ (by decide +kernel), sound.constants (3, ⟨1⟩) (by decide +kernel) 3 rfl,
    sound.checkedOnce ⟨0⟩⟩

end Circuit

end ArithCircuit
