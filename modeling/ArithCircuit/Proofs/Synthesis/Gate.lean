import ArithCircuit.Proofs.Synthesis.Lawful
import ArithCircuit.Synthesis.Gate

/-!
# Gate synthesis is lawful

The gates that sum up an expression each define a wire with a partial sum.
-/

namespace ArithCircuit

open scoped Fin.CommRing

variable {F : PrimeField} {value : Wire → F.Elem} {n m : Nat}

open LinearCombination (evalTerms)

namespace SlotFactor

def evalWith (x : SlotFactor F) (value : Wire → F.Elem) : F.Elem :=
  x.coefficient * Gate.read value x.wire + x.constant

def Below (n : Nat) (x : SlotFactor F) : Prop := ∀ wire ∈ x.wire, wire.index < n

@[simp]
theorem evalWith_ofWire (wire : Wire) : (ofWire wire : SlotFactor F).evalWith value = value wire := by
  simp [SlotFactor.evalWith, ofWire, Gate.read]

theorem below_ofWire {wire : Wire} : (ofWire wire : SlotFactor F).Below n ↔ wire.index < n := by
  simp [SlotFactor.Below, ofWire]

@[simp]
theorem asWire?_ofWire (wire : Wire) : (ofWire wire : SlotFactor F).asWire? = some wire := by
  simp [asWire?, ofWire]

theorem eq_of_asWire? {x : SlotFactor F} {wire : Wire} (h : x.asWire? = some wire) : x = ofWire wire := by
  unfold asWire? at h
  split at h
  · rename_i plain
    obtain ⟨coefficient, slot, constant⟩ := x
    simp_all [ofWire]
  · cases h

end SlotFactor

namespace Gate

instance : ToConstraint F (Gate F) := ⟨.gate⟩

/-! ## Products -/

theorem holds_product {x y z : SlotFactor F} :
    (toConstraint (product x y z)).Holds value ↔ x.evalWith value * y.evalWith value = z.evalWith value := by
  simp only [toConstraint, Constraint.Holds, residual, product, SlotFactor.evalWith]
  constructor <;> intro h <;> linear_combination h

theorem product_lt {x y z : SlotFactor F} (hx : x.Below n) (hy : y.Below n) (hz : z.Below n) :
    ∀ wire ∈ (toConstraint (product x y z)).wires, wire.index < n := by
  intro wire hwire
  rcases mem_wires.mp hwire with h | h | h
  · exact hx wire h
  · exact hy wire h
  · exact hz wire h

theorem defines_product {x y : SlotFactor F} (wire : Wire) (hx : x.Below wire.index)
    (hy : y.Below wire.index) : (toConstraint (product x y (.ofWire wire))).Defines wire
      fun value => x.evalWith value * y.evalWith value := by
  have defines := Constraint.defines_gate (g := product x y (.ofWire wire)) hx hy rfl rfl
  apply defines.of_eq
  intro value
  simp only [product, SlotFactor.evalWith, SlotFactor.ofWire]
  ring

theorem holds_boolean {x : SlotFactor F} :
    (toConstraint (boolean x)).Holds value ↔ x.evalWith value * (x.evalWith value - 1) = 0 := by
  simp only [toConstraint, Constraint.Holds, residual, boolean, SlotFactor.evalWith, read]
  constructor <;> intro h <;> linear_combination h

theorem boolean_lt {x : SlotFactor F} (hx : x.Below n) :
    ∀ wire ∈ (toConstraint (boolean x)).wires, wire.index < n := by
  intro wire hwire
  rcases mem_wires.mp hwire with h | h | h
  · exact hx wire h
  · exact hx wire h
  · cases h

/-! ## Evolution -/

instance evolving_additionChain (constant : F.Elem) (sum : Term F) (rest : List (Term F)) :
    (additionChain constant sum rest).Evolving := by
  induction rest generalizing sum with
  | nil => exact Synthesis.evolving_pure _
  | cons term rest ih =>
      unfold additionChain
      infer_instance

instance evolving_materialize (x : LinearCombination F) : (materialize x).Evolving := by
  unfold materialize
  split <;> infer_instance

instance evolving_factor (x : LinearCombination F) : (factor x).Evolving := by
  unfold factor
  split <;> infer_instance

instance evolving_enforceZero (x : LinearCombination F) : (enforceZero x).Evolving := by
  unfold enforceZero
  infer_instance

/-! ## Sums -/

theorem defines_affine {term : Term F} (constant : F.Elem) {wire : Wire} (hlt : term.wire.index < wire.index) :
    (toConstraint (affine term constant wire)).Defines wire
      fun value => value term.wire * term.coefficient + constant := by
  apply (Constraint.defines_gate (by simpa [affine] using hlt) (by simp [affine]) rfl rfl).of_eq
  intro value
  simp only [affine, read]
  ring

theorem holds_affine {term : Term F} {constant : F.Elem} {wire : Wire} :
    (toConstraint (affine term constant wire)).Holds value ↔ value wire
      = value term.wire * term.coefficient + constant := by
  simp only [toConstraint, Constraint.Holds, residual, affine, read]
  constructor <;> intro h <;> linear_combination -h

theorem defines_addition {first second : Term F} (constant : F.Elem) {wire : Wire}
    (hfirst : first.wire.index < wire.index) (hsecond : second.wire.index < wire.index) :
    (toConstraint (addition first second constant wire)).Defines wire fun value =>
      value first.wire * first.coefficient + value second.wire * second.coefficient + constant := by
  refine (Constraint.defines_gate (by simpa [addition] using hfirst) (by simpa [addition] using hsecond)
    rfl rfl).of_eq fun value => ?_
  simp only [addition, read]
  ring

theorem holds_addition {first second : Term F} {constant : F.Elem} {wire : Wire} :
    (toConstraint (addition first second constant wire)).Holds value ↔ value wire
      = value first.wire * first.coefficient + value second.wire * second.coefficient + constant := by
  simp only [toConstraint, Constraint.Holds, residual, addition, read]
  constructor <;> intro h <;> linear_combination -h

/-- The wire at the end of a chain of additions has the sum of all terms and the constant. -/
theorem additionChain_forces {d d' : Draft F (Gate F)} {constant : F.Elem} {sum term : Term F}
    {rest : List (Term F)} {wire : Wire} (hrun : (additionChain constant sum (term :: rest)).run d = .ok wire d')
    (accepts : d'.Accepts value) :
    value wire = value sum.wire * sum.coefficient + evalTerms value (term :: rest) + constant := by
  induction rest generalizing d sum term with
  | nil =>
      have gave : (additionChain constant sum [term]).run d
        = .ok ⟨d.size⟩ (d.define (addition sum term constant ⟨d.size⟩)) := rfl
      obtain ⟨rfl, rfl⟩ := EStateM.Result.ok.inj (gave.symm.trans hrun)
      have last := holds_addition.mp (Draft.accepts_define.mp accepts).2
      simp only [evalTerms]
      linear_combination last
  | cons next rest ih =>
      have behind : (additionChain constant ⟨⟨d.size⟩, 1⟩ (next :: rest)).run
          (d.define (addition sum term 0 ⟨d.size⟩)) = .ok wire d' := hrun
      have first := (Synthesis.grows_of_ok behind).accepts accepts
      have partialSum := holds_addition.mp (Draft.accepts_define.mp first).2
      have whole := ih behind
      simp only [evalTerms] at whole ⊢
      linear_combination whole + partialSum

/-- The last gate of the chain defines the sum, if the terms are over wires before it. -/
theorem run_additionChain {d : Draft F (Gate F)} (constant : F.Elem) {sum term : Term F} {rest : List (Term F)}
    (hsum : sum.wire.index < d.size) (hrest : ∀ t ∈ term :: rest, t.wire.index < d.size) :
    ∃ wire d', (additionChain constant sum (term :: rest)).run d = .ok wire d' ∧
      d.Computes d' wire fun value =>
        value sum.wire * sum.coefficient + evalTerms value (term :: rest) + constant := by
  induction rest generalizing d sum term with
  | nil =>
      have defines : (toConstraint (addition sum term constant ⟨d.size⟩)).Defines ⟨d.size⟩ _ :=
        defines_addition constant hsum (hrest term (by simp))
      exact ⟨⟨d.size⟩, _, rfl, (Draft.Computes.single defines).last, fun _ => additionChain_forces rfl⟩
  | cons next rest ih =>
      have defines : (toConstraint (addition sum term 0 ⟨d.size⟩)).Defines ⟨d.size⟩ _ :=
        defines_addition 0 hsum (hrest term (by simp))
      have hnext : ∀ t ∈ next :: rest, t.wire.index < (d.define (addition sum term 0 ⟨d.size⟩)).size :=
        fun t ht => Nat.lt_of_lt_of_le (hrest t (List.mem_cons_of_mem _ ht)) (Draft.Grows.define _).size_le
      have hwire : (⟨⟨d.size⟩, 1⟩ : Term F).wire.index < (d.define (addition sum term 0 ⟨d.size⟩)).size := by
        simp
      obtain ⟨wire, d', behind, computes⟩ := ih hwire hnext
      have hrun : (additionChain constant sum (term :: next :: rest)).run d = .ok wire d' := behind
      exact ⟨wire, d', hrun, (computes.after (.define (.refl d) defines) fun _ _ => rfl).last,
        fun _ => additionChain_forces hrun⟩

/-- The wire has the value of the expression, whatever wires the expression is over. -/
theorem materialize_forces {d d' : Draft F (Gate F)} {x : LinearCombination F} {wire : Wire}
    (hrun : (materialize x).run d = .ok wire d') (accepts : d'.Accepts value) : value wire = x.evalWith value := by
  obtain ⟨terms, constant⟩ := x
  match terms with
  | [] =>
      have gave : (materialize ⟨[], constant⟩).run d = .ok ⟨d.size⟩ (d.define (pinned ⟨d.size⟩ constant)) := rfl
      obtain ⟨rfl, rfl⟩ := EStateM.Result.ok.inj (gave.symm.trans hrun)
      have defines := Constraint.defines_pinned_gate (F := F) ⟨d.size⟩ constant
      have pinned := (defines.holds_iff value).mp (Draft.accepts_define.mp accepts).2
      simpa [LinearCombination.evalWith_mk, evalTerms] using pinned
  | [term] =>
      obtain ⟨rfl, rfl⟩ := EStateM.Result.ok.inj hrun
      have affine := holds_affine.mp (Draft.accepts_define.mp accepts).2
      simp only [LinearCombination.evalWith_mk, evalTerms]
      linear_combination affine
  | first :: second :: rest =>
      have chain : (additionChain constant first (second :: rest)).run d = .ok wire d' := hrun
      have sum := additionChain_forces chain accepts
      simp only [LinearCombination.evalWith_mk, evalTerms] at sum ⊢
      linear_combination sum

theorem run_materialize {d : Draft F (Gate F)} {x : LinearCombination F} (hx : x.Below d.size) :
    ∃ wire d', (materialize x).run d = .ok wire d' ∧ d.Computes d' wire x.evalWith := by
  have below : ∀ term ∈ x.terms, term.wire.index < d.size := fun term ht =>
    hx term.wire (List.mem_map_of_mem ht)
  obtain ⟨terms, constant⟩ := x
  match terms with
  | [] =>
      have defines := Constraint.defines_pinned_gate (F := F) ⟨d.size⟩ constant
      exact ⟨⟨d.size⟩, d.define (pinned ⟨d.size⟩ constant), rfl, (Draft.Computes.single defines).last,
        fun _ => materialize_forces rfl⟩
  | [term] =>
      have defines : (toConstraint (affine term constant ⟨d.size⟩)).Defines ⟨d.size⟩ _ :=
        defines_affine constant (below term (by simp))
      exact ⟨⟨d.size⟩, _, rfl, (Draft.Computes.single defines).last, fun _ => materialize_forces rfl⟩
  | first :: second :: rest =>
      obtain ⟨wire, d', chain, computes⟩ := run_additionChain constant (below first (by simp))
        fun t ht => below t (List.mem_cons_of_mem _ ht)
      have hrun : (materialize ⟨first :: second :: rest, constant⟩).run d = .ok wire d' := chain
      exact ⟨wire, d', hrun, computes.last, fun _ => materialize_forces hrun⟩

/-- An expression of at most one term is a factor as it is. -/
theorem run_factor_of_narrow (d : Draft F (Gate F)) {x : LinearCombination F} (few : x.terms.length ≤ 1) :
    ∃ y, (factor x).run d = .ok y d ∧ (∀ n, x.Below n → y.Below n) ∧ y.asWire? = x.asWire? ∧
      ∀ value, y.evalWith value = x.evalWith value := by
  obtain ⟨terms, constant⟩ := x
  match terms with
  | [] =>
      refine ⟨.ofConstant constant, rfl, fun n _ => ?_, ?_, fun value => ?_⟩
      · simp [SlotFactor.Below, SlotFactor.ofConstant]
      · simp [SlotFactor.asWire?, SlotFactor.ofConstant, LinearCombination.asWire?]
      · simp [SlotFactor.evalWith, SlotFactor.ofConstant, LinearCombination.evalWith_mk, evalTerms]
  | [term] =>
      refine ⟨⟨term.coefficient, some term.wire, constant⟩, rfl, fun n hx => ?_, rfl, fun value => ?_⟩
      · simpa [SlotFactor.Below] using hx term.wire (by simp [LinearCombination.wires])
      · simp only [SlotFactor.evalWith, read, LinearCombination.evalWith_mk, evalTerms]
        ring
  | _ :: _ :: _ => simp at few

/-- A wider expression becomes a wire. -/
theorem run_factor_of_wide {d : Draft F (Gate F)} {x : LinearCombination F} (many : 1 < x.terms.length)
    (hx : x.Below d.size) : ∃ wire d',
      (factor x).run d = .ok (.ofWire wire) d' ∧ d.Computes d' wire x.evalWith := by
  obtain ⟨terms, constant⟩ := x
  match terms with
  | [] => simp at many
  | [_] => simp at many
  | first :: second :: rest =>
      obtain ⟨wire, d', hrun, computes⟩ := run_materialize hx
      refine ⟨wire, d', ?_, computes⟩
      show (SlotFactor.ofWire <$> materialize _).run d = _
      rw [map_eq_pure_bind, Synthesis.run_bind_ok hrun]
      rfl

theorem run_factor {d : Draft F (Gate F)} {x : LinearCombination F} (hx : x.Below d.size) :
    ∃ y d', (factor x).run d = .ok y d' ∧ d.Elaborates d' ∧ y.Below d'.size ∧
      ∀ value, d'.Accepts value → y.evalWith value = x.evalWith value := by
  rcases Nat.lt_or_ge 1 x.terms.length with many | few
  · obtain ⟨wire, d', hrun, computes⟩ := run_factor_of_wide many hx
    refine ⟨.ofWire wire, d', hrun, computes.elaborates, SlotFactor.below_ofWire.mpr computes.wire_lt,
      fun value accepts => ?_⟩
    rw [SlotFactor.evalWith_ofWire, computes.value value accepts]
  · obtain ⟨y, hrun, below, -, hvalue⟩ := run_factor_of_narrow d few
    exact ⟨y, d, hrun, .refl d, below _ hx, fun value _ => hvalue value⟩

/-! ## Zeros -/

theorem holds_zeroSum {terms : List (Term F)} (few : terms.length ≤ 3) (constant : F.Elem) :
    (toConstraint (zeroSum terms constant)).Holds value ↔ constant + evalTerms value terms = 0 := by
  match terms with
  | [] => simp [toConstraint, Constraint.Holds, residual, zeroSum, evalTerms]
  | [a] =>
      simp only [toConstraint, Constraint.Holds, residual, zeroSum, evalTerms]
      simp only [List.getElem?_cons_zero, List.getElem?_cons_succ, List.getElem?_nil, Option.map_some,
        Option.map_none, Option.getD_some, Option.getD_none, read]
      constructor <;> intro h <;> linear_combination h
  | [a, b] =>
      simp only [toConstraint, Constraint.Holds, residual, zeroSum, evalTerms]
      simp only [List.getElem?_cons_zero, List.getElem?_cons_succ, List.getElem?_nil, Option.map_some,
        Option.map_none, Option.getD_some, Option.getD_none, read]
      constructor <;> intro h <;> linear_combination h
  | [a, b, c] =>
      simp only [toConstraint, Constraint.Holds, residual, zeroSum, evalTerms]
      simp only [List.getElem?_cons_zero, List.getElem?_cons_succ, Option.map_some,
        Option.getD_some, read]
      constructor <;> intro h <;> linear_combination h
  | _ :: _ :: _ :: _ :: _ =>
      simp only [List.length_cons] at few
      omega

theorem zeroSum_lt {terms : List (Term F)} (below : ∀ t ∈ terms, t.wire.index < n) (constant : F.Elem) :
    ∀ wire ∈ (toConstraint (zeroSum terms constant)).wires, wire.index < n := by
  have slot : ∀ (i : Nat) (wire : Wire), terms[i]?.map Term.wire = some wire → wire.index < n := by
    intro i wire h
    obtain ⟨t, ht, rfl⟩ := Option.map_eq_some_iff.mp h
    exact below t (List.mem_of_getElem? ht)
  intro wire hwire
  rcases mem_wires.mp hwire with h | h | h
  · exact slot 0 wire h
  · exact slot 1 wire h
  · exact slot 2 wire h

theorem evalTerms_append (value : Wire → F.Elem) (terms terms' : List (Term F)) :
    evalTerms value (terms ++ terms') = evalTerms value terms + evalTerms value terms' := by
  induction terms with
  | nil => simp [evalTerms]
  | cons term rest ih =>
      simp only [List.cons_append, evalTerms, ih]
      ring

/-- All but the last two terms. -/
def initialSum (x : LinearCombination F) : LinearCombination F := ⟨x.terms.take (x.terms.length - 2), x.constant⟩

/-- The last two terms behind a wire for the others. -/
def closing (x : LinearCombination F) (wire : Wire) : Gate F :=
  zeroSum (⟨wire, 1⟩ :: x.terms.drop (x.terms.length - 2)) 0

theorem holds_closing {x : LinearCombination F} {wire : Wire} (hwire : value wire = (initialSum x).evalWith value) :
    (toConstraint (closing x wire)).Holds value ↔ x.evalWith value = 0 := by
  have split : x.evalWith value = (initialSum x).evalWith value
      + evalTerms value (x.terms.drop (x.terms.length - 2)) := by
    have whole := evalTerms_append value (x.terms.take (x.terms.length - 2))
      (x.terms.drop (x.terms.length - 2))
    rw [List.take_append_drop] at whole
    simp only [LinearCombination.evalWith, whole, initialSum]
    ring
  rw [closing, holds_zeroSum (by simp only [List.length_cons, List.length_drop]; omega), split, ← hwire]
  simp only [evalTerms]
  constructor <;> intro h <;> linear_combination h

theorem enforceZero_of_wide {x : LinearCombination F} (many : 3 < x.terms.length) :
    enforceZero x = (do
      let wire ← materialize (initialSum x)
      Synthesis.emit (closing x wire)) := by
  simp only [enforceZero, many, ↓reduceIte]
  rfl

theorem enforceZero_of_narrow {x : LinearCombination F} (few : ¬ 3 < x.terms.length) :
    enforceZero x = Synthesis.emit (zeroSum x.terms x.constant) := by
  simp only [enforceZero, few, ↓reduceIte]

theorem run_enforceZero {d : Draft F (Gate F)} {x : LinearCombination F} (hx : x.Below d.size) :
    ∃ d₁ c, (enforceZero x).run d = .ok () (d₁.emit c) ∧ d.Elaborates d₁ ∧
      (∀ wire ∈ (toConstraint c).wires, wire.index < d₁.size) ∧
      ∀ value, d₁.Accepts value → ((toConstraint c).Holds value ↔ x.evalWith value = 0) := by
  have below : ∀ term ∈ x.terms, term.wire.index < d.size := fun term ht =>
    hx term.wire (List.mem_map_of_mem ht)
  by_cases many : 3 < x.terms.length
  · have hsum : (initialSum x).Below d.size := fun wire hwire => by
      obtain ⟨term, ht, rfl⟩ := List.mem_map.mp hwire
      exact below term (List.mem_of_mem_take ht)
    obtain ⟨wire, d', hrun, computes⟩ := run_materialize hsum
    rw [enforceZero_of_wide many, Synthesis.run_bind_ok hrun]
    refine ⟨d', closing x wire, rfl, computes.elaborates, zeroSum_lt (fun t ht => ?_) 0,
      fun value accepts => holds_closing (computes.value value accepts)⟩
    rcases List.mem_cons.mp ht with rfl | ht
    · exact computes.wire_lt
    · exact Nat.lt_of_lt_of_le (below t (List.mem_of_mem_drop ht)) computes.elaborates.grows.size_le
  · rw [enforceZero_of_narrow many]
    exact ⟨d, zeroSum x.terms x.constant, rfl, .refl d, zeroSum_lt below x.constant,
      fun value _ => holds_zeroSum (Nat.le_of_not_lt many) x.constant⟩

theorem enforceZero_forces {d d' : Draft F (Gate F)} {x : LinearCombination F}
    (hrun : (enforceZero x).run d = .ok () d') (accepts : d'.Accepts value) : x.evalWith value = 0 := by
  by_cases many : 3 < x.terms.length
  · rw [enforceZero_of_wide many] at hrun
    obtain ⟨wire, d₁, hwire, last⟩ := Synthesis.run_of_bind hrun
    obtain ⟨-, rfl⟩ := EStateM.Result.ok.inj last
    obtain ⟨accepts₁, holds⟩ := Draft.accepts_emit.mp accepts
    exact (holds_closing (materialize_forces hwire accepts₁)).mp holds
  · rw [enforceZero_of_narrow many] at hrun
    obtain ⟨-, rfl⟩ := EStateM.Result.ok.inj hrun
    exact (holds_zeroSum (Nat.le_of_not_lt many) x.constant).mp (Draft.accepts_emit.mp accepts).2

end Gate

instance : LawfulForm F (Gate F) where
  toList_collect _ := rfl
  factorValue value x := x.evalWith value
  FactorBelow n x := x.Below n
  factorBelow_mono h hle wire hwire := Nat.lt_of_lt_of_le (h wire hwire) hle
  defines_pinned := Constraint.defines_pinned_gate
  defines_product := Gate.defines_product
  holds_product := Gate.holds_product
  product_lt := Gate.product_lt
  holds_boolean := Gate.holds_boolean
  boolean_lt := Gate.boolean_lt
  asWire?_spec h := by
    rw [SlotFactor.eq_of_asWire? h]
    exact ⟨fun n hbelow => hbelow _ rfl, fun value => SlotFactor.evalWith_ofWire _⟩
  run_factor := Gate.run_factor
  run_materialize := Gate.run_materialize
  run_enforceZero := Gate.run_enforceZero
  enforceZero_forces hrun _ := Gate.enforceZero_forces hrun
  evolving_factor := Gate.evolving_factor
  evolving_materialize := Gate.evolving_materialize
  evolving_enforceZero := Gate.evolving_enforceZero

end ArithCircuit
