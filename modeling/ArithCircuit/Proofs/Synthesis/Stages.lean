import ArithCircuit.Proofs.Circuit.Evaluation
import ArithCircuit.Proofs.Hint.Registry
import ArithCircuit.Proofs.Synthesis.Elaboration
import ArithCircuit.Proofs.Witness.Agreement

/-!
# Stages of a run

A stage is a draft with an honest assignment: it satisfies the constraints so far, the inputs have
the given values and the outputs of hints are what the hints give.
-/

namespace ArithCircuit

variable {F : PrimeField} {κ : Type} [ToConstraint F κ] {registry : HintRegistry} {given : Supply F}

/-! ## Honest assignments -/

/-- The inputs have the first of the given values, and zero when there are no more. -/
def TakesFrom (values : List F.Elem) (inputs : List Input) (value : Wire → F.Elem) : Prop :=
  inputs.map (fun input => value input.wire) = (List.range inputs.length).map (values.getD · 0)

theorem TakesFrom.congr {values : List F.Elem} {inputs : List Input} {value value' : Wire → F.Elem}
    (takes : TakesFrom values inputs value) (agree : ∀ input ∈ inputs, value input.wire = value' input.wire) :
    TakesFrom values inputs value' := by
  rw [TakesFrom, ← takes]
  exact List.map_congr_left fun input hinput => (agree input hinput).symm

theorem TakesFrom.snoc {values : List F.Elem} {inputs : List Input} {value : Wire → F.Elem}
    (takes : TakesFrom values inputs value) {input : Input} (next : value input.wire = values.getD inputs.length 0) :
    TakesFrom values (inputs ++ [input]) value := by
  rw [TakesFrom, List.map_append, takes, List.length_append, List.length_singleton, List.range_succ, List.map_append,
    List.map_singleton, List.map_singleton, next]

/-- The assignment is honest; the rest of the given inputs are those not declared yet. -/
structure Draft.Honest (registry : HintRegistry) (given : Supply F) (d : Draft F κ) (value : Wire → F.Elem)
    (rest : Supply F) : Prop where
  accepts : d.Accepts value
  hints : ∀ b ∈ d.hints.toList, (Task.hint b).RespectedBy registry value
  publicInputs : TakesFrom given.publicValues d.wires.publicInputs.toList value
  secretInputs : TakesFrom given.secretValues d.wires.secretInputs.toList value
  publicRest : rest.publicValues = given.publicValues.drop d.wires.publicInputs.size
  secretRest : rest.secretValues = given.secretValues.drop d.wires.secretInputs.size

namespace Draft

variable {d d' : Draft F κ} {value value' : Wire → F.Elem} {rest : Supply F}

theorem Honest.respected (honest : d.Honest registry given value rest) (coherent : d.Coherent)
    (agree : AgreeBelow d.size value value') :
    ∀ b ∈ d.hints.toList, (Task.hint b).RespectedBy registry value' := fun b hb =>
  (honest.hints b hb).congr fun wire hwire => agree wire (coherent.hint_lt hb wire hwire)

theorem Honest.publicInputs_of_agree (honest : d.Honest registry given value rest) (coherent : d.Coherent)
    (agree : AgreeBelow d.size value value') : TakesFrom given.publicValues d.wires.publicInputs.toList value' :=
  honest.publicInputs.congr fun input hinput =>
    agree _ (coherent.inputs _ ⟨input, List.mem_append_left _ hinput, rfl⟩)

theorem Honest.secretInputs_of_agree (honest : d.Honest registry given value rest) (coherent : d.Coherent)
    (agree : AgreeBelow d.size value value') : TakesFrom given.secretValues d.wires.secretInputs.toList value' :=
  honest.secretInputs.congr fun input hinput =>
    agree _ (coherent.inputs _ ⟨input, List.mem_append_right _ hinput, rfl⟩)

/-- Constraints and hints may be added, as long as the assignment passes them. -/
theorem Honest.extend (honest : d.Honest registry given value rest) (coherent : d.Coherent)
    (agree : AgreeBelow d.size value value') (publicInputs : d'.wires.publicInputs = d.wires.publicInputs)
    (secretInputs : d'.wires.secretInputs = d.wires.secretInputs) (accepts : d'.Accepts value')
    (hints : ∀ b ∈ d'.hints.toList, (Task.hint b).RespectedBy registry value') :
    d'.Honest registry given value' rest where
  accepts := accepts
  hints := hints
  publicInputs := publicInputs ▸ honest.publicInputs_of_agree coherent agree
  secretInputs := secretInputs ▸ honest.secretInputs_of_agree coherent agree
  publicRest := by rw [publicInputs, honest.publicRest]
  secretRest := by rw [secretInputs, honest.secretRest]

end Draft

/-! ## Stages -/

structure Stage (registry : HintRegistry) (given : Supply F) (κ : Type) [ToConstraint F κ] where
  draft : Draft F κ
  value : Wire → F.Elem
  rest : Supply F
  coherent : draft.Coherent
  honest : draft.Honest registry given value rest

namespace Stage

variable {s s₁ s₂ : Stage registry given κ}

def start (sharesConstants : Bool) : Stage registry given κ where
  draft := { sharesConstants }
  value _ := 0
  rest := given
  coherent := Draft.coherent_empty sharesConstants
  honest := {
    accepts := by simp [Draft.Accepts]
    hints := by simp
    publicInputs := rfl
    secretInputs := rfl
    publicRest := rfl
    secretRest := rfl }

/-- The draft has grown, and the old wires have kept their values. -/
structure Grows (s s₁ : Stage registry given κ) : Prop where
  draft : s.draft.Grows s₁.draft
  agree : AgreeBelow s.draft.size s.value s₁.value

theorem Grows.refl (s : Stage registry given κ) : s.Grows s := ⟨.refl _, .refl _ _⟩

theorem Grows.trans (h : s.Grows s₁) (h' : s₁.Grows s₂) : s.Grows s₂ :=
  ⟨h.draft.trans h'.draft, h.agree.trans h'.agree h.draft.size_le⟩

/-! ### Values -/

structure WireValue (s : Stage registry given κ) (wire : Wire) (v : F.Elem) : Prop where
  lt : wire.index < s.draft.size
  eq : s.value wire = v

structure HasValue (s : Stage registry given κ) (x : LinearCombination F) (v : F.Elem) : Prop where
  below : x.Below s.draft.size
  eq : x.evalWith s.value = v

/-- Expressions and their values, in the same order. -/
abbrev HasValues (s : Stage registry given κ) : List (LinearCombination F) → List F.Elem → Prop :=
  List.Forall₂ s.HasValue

theorem WireValue.grow {wire : Wire} {v : F.Elem} (h : s.WireValue wire v) (grows : s.Grows s₁) :
    s₁.WireValue wire v where
  lt := Nat.lt_of_lt_of_le h.lt grows.draft.size_le
  eq := (grows.agree wire h.lt).symm.trans h.eq

abbrev WireValues (s : Stage registry given κ) : List Wire → List F.Elem → Prop := List.Forall₂ s.WireValue

theorem WireValue.hasValue {wire : Wire} {v : F.Elem} (h : s.WireValue wire v) : s.HasValue (.ofWire wire) v where
  below := LinearCombination.below_ofWire.mpr h.lt
  eq := by rw [LinearCombination.evalWith_ofWire, h.eq]

namespace HasValue

variable {x y : LinearCombination F} {v w : F.Elem}

open scoped Fin.CommRing

theorem grow (h : s.HasValue x v) (grows : s.Grows s₁) : s₁.HasValue x v where
  below := h.below.mono grows.draft.size_le
  eq := (h.below.evalWith_congr grows.agree).symm.trans h.eq

/-- A constant has no other value. -/
theorem eq_of_asConstant? (h : s.HasValue x v) {k : F.Elem} (hk : x.asConstant? = some k) : v = k := by
  rw [← h.eq, LinearCombination.eq_ofConstant hk, LinearCombination.evalWith_ofConstant]

theorem ofConstant (k : F.Elem) : s.HasValue (.ofConstant k) k :=
  ⟨LinearCombination.below_ofConstant k, LinearCombination.evalWith_ofConstant k⟩

theorem zero : s.HasValue .zero 0 := ⟨LinearCombination.below_zero, LinearCombination.evalWith_zero⟩

theorem add (hx : s.HasValue x v) (hy : s.HasValue y w) : s.HasValue (x + y) (v + w) where
  below := hx.below.add hy.below
  eq := by rw [LinearCombination.evalWith_add, hx.eq, hy.eq]

theorem sub (hx : s.HasValue x v) (hy : s.HasValue y w) : s.HasValue (x - y) (v - w) where
  below := hx.below.sub hy.below
  eq := by rw [LinearCombination.evalWith_sub, hx.eq, hy.eq]

theorem subScaled (hx : s.HasValue x v) (hy : s.HasValue y w) (k : F.Elem) :
    s.HasValue (x.subScaled k y) (v - k * w) where
  below := hx.below.subScaled hy.below k
  eq := by rw [LinearCombination.evalWith_subScaled, hx.eq, hy.eq]

theorem scale (hx : s.HasValue x v) (k : F.Elem) : s.HasValue (x.scale k) (k * v) where
  below := hx.below.scale k
  eq := by rw [LinearCombination.evalWith_scale, hx.eq]

theorem neg (hx : s.HasValue x v) : s.HasValue (-x) (-v) where
  below := hx.below.neg
  eq := by rw [LinearCombination.evalWith_neg, hx.eq]

end HasValue

variable {xs : List (LinearCombination F)} {vs : List F.Elem}

theorem WireValues.lt {wires : List Wire} (h : s.WireValues wires vs) : ∀ wire ∈ wires, wire.index < s.draft.size := by
  induction h with
  | nil => simp
  | cons hwire _ ih => exact List.forall_mem_cons.mpr ⟨hwire.lt, ih⟩

theorem WireValues.eq {wires : List Wire} (h : s.WireValues wires vs) : wires.map s.value = vs := by
  induction h with
  | nil => rfl
  | cons hwire _ ih => rw [List.map_cons, hwire.eq, ih]

theorem WireValues.of_map {wires : List Wire} (h : ∀ wire ∈ wires, wire.index < s.draft.size) :
    s.WireValues wires (wires.map s.value) :=
  List.forall₂_map_right_iff.mpr (List.forall₂_same.mpr fun wire hwire => ⟨h wire hwire, rfl⟩)

theorem WireValues.hasValues {wires : List Wire} (h : s.WireValues wires vs) :
    s.HasValues (wires.map .ofWire) vs :=
  List.forall₂_map_left_iff.mpr (h.imp fun _ _ hwire => hwire.hasValue)

theorem HasValues.grow (h : s.HasValues xs vs) (grows : s.Grows s₁) : s₁.HasValues xs vs :=
  h.imp fun _ _ hx => hx.grow grows

theorem HasValues.below (h : s.HasValues xs vs) : ∀ x ∈ xs, x.Below s.draft.size := by
  induction h with
  | nil => simp
  | cons hx _ ih => exact List.forall_mem_cons.mpr ⟨hx.below, ih⟩

theorem HasValues.eq (h : s.HasValues xs vs) : xs.map (·.evalWith s.value) = vs := by
  induction h with
  | nil => rfl
  | cons hx _ ih => rw [List.map_cons, hx.eq, ih]

theorem HasValues.of_map (h : ∀ x ∈ xs, x.Below s.draft.size) : s.HasValues xs (xs.map (·.evalWith s.value)) :=
  List.forall₂_map_right_iff.mpr (List.forall₂_same.mpr fun x hx => ⟨h x hx, rfl⟩)

theorem HasValues.ofBits (h : s.HasValues xs vs) : s.HasValue (.ofBits xs) (PrimeField.ofDigits vs) where
  below := LinearCombination.below_ofBits h.below
  eq := by rw [LinearCombination.evalWith_ofBits, h.eq]

theorem HasValues.take (h : s.HasValues xs vs) (n : Nat) : s.HasValues (xs.take n) (vs.take n) := by
  rw [← h.eq, ← List.map_take]
  exact .of_map fun x hx => h.below x (List.mem_of_mem_take hx)

theorem HasValues.chunks (h : s.HasValues xs vs) (size : Nat) :
    List.Forall₂ s.HasValues (ArithCircuit.chunks size xs) (ArithCircuit.chunks size vs) := by
  rw [← h.eq, ← map_chunks]
  exact List.forall₂_map_right_iff.mpr (List.forall₂_same.mpr fun chunk hchunk =>
    .of_map fun x hx => h.below x (mem_of_mem_chunks hchunk hx))

/-! ### Changes -/

/-- A change of the draft that leaves its wires alone. -/
def adjust (s : Stage registry given κ) {d' : Draft F κ} (coherent : d'.Coherent) (wires : d'.wires = s.draft.wires)
    (hints : d'.hints = s.draft.hints) (accepts : d'.Accepts s.value) : Stage registry given κ where
  draft := d'
  value := s.value
  rest := s.rest
  coherent := coherent
  honest := s.honest.extend s.coherent (.refl _ _) (by rw [wires]) (by rw [wires]) accepts
    (hints ▸ s.honest.respected s.coherent (.refl _ _))

def emit (s : Stage registry given κ) {c : κ} (wires : ∀ wire ∈ (toConstraint c).wires, wire.index < s.draft.size)
    (holds : (toConstraint c).Holds s.value) : Stage registry given κ :=
  s.adjust (s.coherent.emit wires) rfl rfl (Draft.accepts_emit.mpr ⟨s.honest.accepts, holds⟩)

theorem grows_emit {c : κ} {wires : ∀ wire ∈ (toConstraint c).wires, wire.index < s.draft.size}
    {holds : (toConstraint c).Holds s.value} : s.Grows (s.emit wires holds) :=
  ⟨.emit c, .refl _ _⟩

def mark (s : Stage registry given κ) {wire : Wire} (hlt : wire.index < s.draft.size)
    (boolean : ∀ value, s.draft.Accepts value → value wire * (value wire - 1) = 0) : Stage registry given κ :=
  s.adjust (s.coherent.mark hlt boolean) rfl rfl s.honest.accepts

theorem grows_mark {wire : Wire} {hlt : wire.index < s.draft.size}
    {boolean : ∀ value, s.draft.Accepts value → value wire * (value wire - 1) = 0} :
    s.Grows (s.mark hlt boolean) :=
  ⟨.mark wire, .refl _ _⟩

theorem exists_remember (s : Stage registry given κ) {k : F.Elem} {wire : Wire} (hlt : wire.index < s.draft.size)
    (constant : ∀ value, s.draft.Accepts value → value wire = k) : ∃ s₁ : Stage registry given κ,
      s₁.draft = s.draft.remember k wire ∧ s₁.rest = s.rest ∧ s.Grows s₁ := by
  have wires : (s.draft.remember k wire).wires = s.draft.wires := by
    unfold Draft.remember
    split <;> rfl
  have hints : (s.draft.remember k wire).hints = s.draft.hints := by
    unfold Draft.remember
    split <;> rfl
  have accepts : (s.draft.remember k wire).Accepts s.value := by
    unfold Draft.remember
    split <;> exact s.honest.accepts
  exact ⟨s.adjust (s.coherent.remember hlt constant) wires hints accepts, rfl, rfl, .remember k wire, .refl _ _⟩

theorem exists_elaborate (s : Stage registry given κ) {d' : Draft F κ} (elaborates : s.draft.Elaborates d') :
    ∃ s₁ : Stage registry given κ, s₁.draft = d' ∧ s₁.rest = s.rest ∧ s.Grows s₁ := by
  obtain ⟨value, agree, accepts⟩ := elaborates.extend s.coherent s.value
  have frame := elaborates.sameFrame
  have honest := s.honest.extend s.coherent agree frame.publicInputs frame.secretInputs
    (accepts s.honest.accepts) (frame.hints ▸ s.honest.respected s.coherent agree)
  exact ⟨⟨d', value, s.rest, elaborates.coherent s.coherent, honest⟩, rfl, rfl, elaborates.grows, agree⟩

theorem exists_computes (s : Stage registry given κ) {d' : Draft F κ} {wire : Wire}
    {result : (Wire → F.Elem) → F.Elem} (computes : s.draft.Computes d' wire result) {v : F.Elem}
    (hv : ∀ value, AgreeBelow s.draft.size s.value value → d'.Accepts value → result value = v) :
    ∃ s₁ : Stage registry given κ, s₁.draft = d' ∧ s₁.rest = s.rest ∧ s.Grows s₁ ∧ s₁.WireValue wire v := by
  obtain ⟨s₁, rfl, rest, grows⟩ := s.exists_elaborate computes.elaborates
  have accepts := s₁.honest.accepts
  exact ⟨s₁, rfl, rest, grows, computes.wire_lt, (computes.value _ accepts).trans (hv _ grows.agree accepts)⟩

/-- The values that a hint gives are those of the wires it is bound to. -/
theorem exists_bind (s : Stage registry given κ) {name : String} {inputs : List Wire} {n : Nat} {outputs : List Nat}
    (hlt : ∀ wire ∈ inputs, wire.index < s.draft.size)
    (invoked : registry.invoke name F.modulus (inputs.map fun wire => (s.value wire).val) n = .ok outputs) :
    ∃ s₁ : Stage registry given κ,
      s₁.draft = (s.draft.freshMany n).bind {
        name := canonicalName name, inputs, outputs := Wire.span s.draft.size n
        position := s.draft.constraints.size } ∧
      s₁.rest = s.rest ∧ s.Grows s₁ ∧ (Wire.span s.draft.size n).map s₁.value = outputs.map F.ofNat := by
  obtain ⟨handled, rfl⟩ := HintRegistry.exists_of_invoke invoked
  let b : HintBinding := {
    name := canonicalName name, inputs, outputs := Wire.span s.draft.size n, position := s.draft.constraints.size }
  let value : Wire → F.Elem := fun wire =>
    if wire.index < s.draft.size then s.value wire else F.ofNat (handled.getD (wire.index - s.draft.size) 0)
  have agree : AgreeBelow s.draft.size s.value value := fun wire hwire => (if_pos hwire).symm
  have new : (Wire.span s.draft.size n).map value
      = (HintRegistry.reduceOutputs F.modulus n handled).map F.ofNat := by
    simp only [Wire.span, HintRegistry.reduceOutputs, List.range'_eq_map_range, List.map_map]
    apply List.map_congr_left
    intro i _
    apply Fin.ext
    simp [value]
  have respected : (Task.hint b).RespectedBy registry value := by
    have given : b.inputs.map (fun wire => (value wire).val) = inputs.map fun wire => (s.value wire).val :=
      List.map_congr_left fun wire hwire => by rw [agree wire (hlt wire hwire)]
    have gives : b.outputs.map (fun wire => (value wire).val) = HintRegistry.reduceOutputs F.modulus n handled := by
      have vals := congrArg (List.map Fin.val) new
      simpa [HintRegistry.reduceOutputs, Function.comp_def] using vals
    rw [Task.RespectedBy, given, gives, HintRegistry.invoke_canonicalName, Wire.length_span]
    exact invoked
  have honest : ((s.draft.freshMany n).bind b).Honest registry given value s.rest := by
    refine s.honest.extend s.coherent agree (WireTable.publicInputs_allocateMany n)
      (WireTable.secretInputs_allocateMany n) ((s.coherent.accepts_of_agree agree).mp s.honest.accepts) ?_
    intro b' hb'
    rw [Draft.bind, Array.toList_push] at hb'
    rcases List.mem_append.mp hb' with old | last
    · exact s.honest.respected s.coherent agree b' old
    · rwa [List.mem_singleton.mp last]
  exact ⟨⟨_, value, s.rest, s.coherent.bind hlt rfl rfl, honest⟩, rfl, rfl, ⟨.bind (Nat.le_refl _) rfl, agree⟩, new⟩

theorem honest_declare (s : Stage registry given κ) {role : Role} (external : role ≠ .internal) (name : String)
    {value : Wire → F.Elem} (agree : AgreeBelow s.draft.size s.value value) {rest : Supply F}
    (next : (Evaluation.input role).run s.rest = .ok (value ⟨s.draft.size⟩, rest)) :
    (s.draft.declare role name).Honest registry given value rest := by
  have accepts := (s.coherent.accepts_of_agree agree).mp s.honest.accepts
  have hints := s.honest.respected s.coherent agree
  have publicInputs := s.honest.publicInputs_of_agree s.coherent agree
  have secretInputs := s.honest.secretInputs_of_agree s.coherent agree
  have publicRest := s.honest.publicRest
  have secretRest := s.honest.secretRest
  cases role with
  | internal => exact absurd rfl external
  | publicInput =>
      obtain ⟨hvalue, hrest⟩ := Prod.mk.inj (Except.ok.inj next)
      refine ⟨accepts, hints, ?_, secretInputs, ?_, ?_⟩
      · show TakesFrom _ (s.draft.wires.publicInputs.push ⟨⟨s.draft.size⟩, name⟩).toList value
        rw [Array.toList_push]
        apply publicInputs.snoc
        simp [← hvalue, publicRest]
      · show rest.publicValues = given.publicValues.drop (s.draft.wires.publicInputs.push ⟨⟨s.draft.size⟩, name⟩).size
        simp [← hrest, publicRest]
      · show rest.secretValues = _
        rw [← hrest]
        exact secretRest
  | secretInput =>
      obtain ⟨hvalue, hrest⟩ := Prod.mk.inj (Except.ok.inj next)
      refine ⟨accepts, hints, publicInputs, ?_, ?_, ?_⟩
      · show TakesFrom _ (s.draft.wires.secretInputs.push ⟨⟨s.draft.size⟩, name⟩).toList value
        rw [Array.toList_push]
        apply secretInputs.snoc
        simp [← hvalue, secretRest]
      · show rest.publicValues = _
        rw [← hrest]
        exact publicRest
      · show rest.secretValues = given.secretValues.drop (s.draft.wires.secretInputs.push ⟨⟨s.draft.size⟩, name⟩).size
        simp [← hrest, secretRest]

theorem exists_declare (s : Stage registry given κ) {role : Role} (external : role ≠ .internal) (name : String) :
    ∃ (s₁ : Stage registry given κ) (v : F.Elem), (Evaluation.input role).run s.rest = .ok (v, s₁.rest) ∧
      s₁.draft = s.draft.declare role name ∧ s.Grows s₁ ∧ s₁.WireValue ⟨s.draft.size⟩ v := by
  obtain ⟨v, rest, next⟩ : ∃ v rest, (Evaluation.input role).run s.rest = .ok (v, rest) := by
    cases role <;> exact ⟨_, _, rfl⟩
  let value := Function.update s.value ⟨s.draft.size⟩ v
  have agree : AgreeBelow s.draft.size s.value value := .update _ _ _
  have hv : value ⟨s.draft.size⟩ = v := Function.update_self _ _ _
  have honest := s.honest_declare external name agree (hv ▸ next)
  refine ⟨⟨_, value, rest, s.coherent.declare external name, honest⟩, v, next, rfl, ⟨.declare role name, agree⟩, ?_, hv⟩
  show s.draft.size < (s.draft.declare role name).size
  simp

end Stage

end ArithCircuit
