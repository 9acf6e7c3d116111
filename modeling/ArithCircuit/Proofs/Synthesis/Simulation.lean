import ArithCircuit.Proofs.Linear.Renaming
import ArithCircuit.Proofs.Synthesis.Gate
import ArithCircuit.Proofs.Synthesis.Rank1

/-!
# Drafts of triples and drafts of gates

A draft of triples and a draft of gates say the same if the wires of the first are among those of
the second, under new names, and every assignment of the first has one extension to the second. The
two synthesize in step: what one of them does alone is an elaboration.
-/

namespace ArithCircuit

variable {F : PrimeField} {ρ ρ' : Nat → Nat}

def Input.rename (ρ : Nat → Nat) (input : Input) : Input := { input with wire := input.wire.rename ρ }

/-- The same hint on renamed wires, bound at any position. -/
structure HintBinding.Renamed (ρ : Nat → Nat) (b b' : HintBinding) : Prop where
  name : b'.name = b.name
  inputs : b'.inputs = b.inputs.map (Wire.rename ρ)
  outputs : b'.outputs = b.outputs.map (Wire.rename ρ)

/-- The assignment, read under new names. -/
def renamed (ρ : Nat → Nat) (value : Wire → F.Elem) (wire : Wire) : F.Elem := value (wire.rename ρ)

namespace Draft

variable {d : Draft F (Triple F)} {d' d'' : Draft F (Gate F)} {value : Wire → F.Elem}

/-! ## The same assignments -/

/-- The wires of the first draft keep their order in the second, where fresh wires get in step. -/
structure Embeds (ρ : Nat → Nat) (d : Draft F (Triple F)) (d' : Draft F (Gate F)) : Prop where
  mono : StrictMono ρ
  shift : ∀ i, ρ (d.size + i) = d'.size + i

namespace Embeds

theorem next (embeds : Embeds ρ d d') : ρ d.size = d'.size := embeds.shift 0

theorem lt (embeds : Embeds ρ d d') {i : Nat} (hi : i < d.size) : ρ i < d'.size :=
  embeds.next ▸ embeds.mono hi

theorem lt_iff (embeds : Embeds ρ d d') {i : Nat} : ρ i < d'.size ↔ i < d.size := by
  rw [← embeds.next]
  exact embeds.mono.lt_iff_lt

theorem rename_next (embeds : Embeds ρ d d') : Wire.rename ρ ⟨d.size⟩ = ⟨d'.size⟩ :=
  congrArg Wire.mk embeds.next

theorem agree (embeds : Embeds ρ d d') {value value' : Wire → F.Elem}
    (agree : AgreeBelow d'.size value value') : AgreeBelow d.size (renamed ρ value) (renamed ρ value') :=
  fun _ hwire => agree _ (embeds.lt hwire)

end Embeds

/-- The names of the wires when the second draft gets longer on its own. -/
def lengthen (ρ : Nat → Nat) (size size' : Nat) (i : Nat) : Nat :=
  if i < size then ρ i else size' + (i - size)

theorem lengthen_of_lt {size size' i : Nat} (h : i < size) : lengthen ρ size size' i = ρ i := if_pos h

theorem Embeds.lengthen (embeds : Embeds ρ d d') (hle : d'.size ≤ d''.size) :
    Embeds (lengthen ρ d.size d''.size) d d'' where
  mono i j hij := by
    unfold Draft.lengthen
    split
    · rename_i hi
      have := embeds.lt hi
      split
      · exact embeds.mono hij
      · omega
    · split <;> omega
  shift i := by
    simp [Draft.lengthen]

/-- The wires that the second draft adds on its own have no name in the first. -/
theorem Embeds.lengthen_ne (embeds : Embeds ρ d d') {i j : Nat} (hge : d'.size ≤ j) (hlt : j < d''.size) :
    Draft.lengthen ρ d.size d''.size i ≠ j := by
  unfold Draft.lengthen
  split
  · rename_i hi
    have := embeds.lt hi
    omega
  · omega

/-- Every assignment that the second draft accepts gives one that the first accepts, and every one
that the first accepts comes from one of the second alone. -/
structure Equisatisfiable (ρ : Nat → Nat) (d : Draft F (Triple F)) (d' : Draft F (Gate F)) : Prop where
  restrict : ∀ value', d'.Accepts value' → d.Accepts (renamed ρ value')
  extend : ∀ value, d.Accepts value → ∃ value', d'.Accepts value' ∧
    AgreeBelow d.size (renamed ρ value') value
  unique : ∀ value' value'', d'.Accepts value' → d'.Accepts value'' →
    AgreeBelow d.size (renamed ρ value') (renamed ρ value'') → AgreeBelow d'.size value' value''

namespace Equisatisfiable

theorem elaborate (equi : Equisatisfiable ρ d d') (embeds : Embeds ρ d d') (coherent : d.Coherent)
    (coherent' : d'.Coherent) (elaborates : d'.Elaborates d'') (same : ∀ i < d.size, ρ' i = ρ i) :
    Equisatisfiable ρ' d d'' := by
  have renamed_eq : ∀ value : Wire → F.Elem, AgreeBelow d.size (renamed ρ' value) (renamed ρ value) :=
    fun value wire hwire => by simp [renamed, Wire.rename, same _ hwire]
  refine ⟨fun value' accepts => ?_, fun value accepts => ?_, fun v w hv hw agree => ?_⟩
  · rw [coherent.accepts_of_agree (renamed_eq value')]
    exact equi.restrict value' (elaborates.grows.accepts accepts)
  · obtain ⟨value₁, accepts₁, agree₁⟩ := equi.extend value accepts
    obtain ⟨value₂, agree₂, accepts₂⟩ := elaborates.extend coherent' value₁
    refine ⟨value₂, accepts₂ accepts₁, ?_⟩
    exact (renamed_eq value₂).trans ((embeds.agree agree₂).symm.trans agree₁ (Nat.le_refl _)) (Nat.le_refl _)
  · have agree' : AgreeBelow d.size (renamed ρ v) (renamed ρ w) :=
      (renamed_eq v).symm.trans (agree.trans (renamed_eq w) (Nat.le_refl _)) (Nat.le_refl _)
    exact elaborates.agree (equi.unique v w (elaborates.grows.accepts hv) (elaborates.grows.accepts hw) agree')
      hv hw

theorem define (equi : Equisatisfiable ρ d d') (embeds : Embeds ρ d d') (coherent' : d'.Coherent)
    {c : Triple F} {c' : Gate F} {e e' : (Wire → F.Elem) → F.Elem}
    (defines : (toConstraint c).Defines ⟨d.size⟩ e) (defines' : (toConstraint c').Defines ⟨d'.size⟩ e')
    (same : ∀ value', d'.Accepts value' → e' value' = e (renamed ρ value')) :
    Equisatisfiable ρ (d.define c) (d'.define c') := by
  refine ⟨fun value' accepts => ?_, fun value accepts => ?_, fun v w hv hw agree => ?_⟩
  · obtain ⟨accepts', holds'⟩ := accepts_define.mp accepts
    refine accepts_define.mpr ⟨equi.restrict value' accepts', ?_⟩
    rw [defines.holds_iff, ← same value' accepts', ← (defines'.holds_iff value').mp holds', renamed,
      embeds.rename_next]
  · obtain ⟨accepts₀, holds⟩ := accepts_define.mp accepts
    obtain ⟨value₁, accepts₁, agree₁⟩ := equi.extend value accepts₀
    obtain ⟨value₂, agree₂, hvalue₂, accepts₂⟩ := coherent'.extend_define defines' value₁
    refine ⟨value₂, accepts₂ accepts₁, fun wire hwire => ?_⟩
    by_cases new : wire = ⟨d.size⟩
    · rw [new, (defines.holds_iff value).mp holds, renamed, embeds.rename_next, hvalue₂,
        same value₁ accepts₁, defines.reads_below _ _ agree₁]
    · have old : wire.index < d.size := by
        obtain ⟨i⟩ := wire
        rw [size_define] at hwire
        exact Nat.lt_of_le_of_ne (Nat.le_of_lt_succ hwire) fun same => new (by simp_all)
      rw [← agree₁ wire old]
      exact (embeds.agree agree₂ wire old).symm
  · refine agree_define defines' (equi.unique v w (accepts_define.mp hv).1 (accepts_define.mp hw).1 ?_) hv hw
    exact agree.mono (by simp)

theorem emit (equi : Equisatisfiable ρ d d') {c : Triple F} {c' : Gate F}
    (wires : ∀ wire ∈ (toConstraint c).wires, wire.index < d.size)
    (same : ∀ value', d'.Accepts value' →
      ((toConstraint c').Holds value' ↔ (toConstraint c).Holds (renamed ρ value'))) :
    Equisatisfiable ρ (d.emit c) (d'.emit c') := by
  refine ⟨fun value' accepts => ?_, fun value accepts => ?_, fun v w hv hw agree => ?_⟩
  · obtain ⟨accepts', holds'⟩ := accepts_emit.mp accepts
    exact accepts_emit.mpr ⟨equi.restrict value' accepts', (same value' accepts').mp holds'⟩
  · obtain ⟨accepts₀, holds⟩ := accepts_emit.mp accepts
    obtain ⟨value₁, accepts₁, agree₁⟩ := equi.extend value accepts₀
    refine ⟨value₁, accepts_emit.mpr ⟨accepts₁, (same value₁ accepts₁).mpr ?_⟩, agree₁⟩
    exact (Constraint.holds_congr fun wire hwire => agree₁ wire (wires wire hwire)).mpr holds
  · exact equi.unique v w (accepts_emit.mp hv).1 (accepts_emit.mp hw).1 agree

theorem allocate (equi : Equisatisfiable ρ d d') (embeds : Embeds ρ d d') (coherent' : d'.Coherent) {n : Nat}
    {d₁ : Draft F (Triple F)} {d₁' : Draft F (Gate F)} (constraints : d₁.constraints = d.constraints)
    (constraints' : d₁'.constraints = d'.constraints) (size : d₁.size = d.size + n)
    (size' : d₁'.size = d'.size + n) : Equisatisfiable ρ d₁ d₁' := by
  refine ⟨fun value' accepts => ?_, fun value accepts => ?_, fun v w hv hw agree => ?_⟩
  · rw [accepts_congr constraints'] at accepts
    rw [accepts_congr constraints]
    exact equi.restrict value' accepts
  · rw [accepts_congr constraints] at accepts
    obtain ⟨value₁, accepts₁, agree₁⟩ := equi.extend value accepts
    -- the new wires take over their values
    let value₂ : Wire → F.Elem := fun wire =>
      if wire.index < d'.size then value₁ wire else value ⟨d.size + (wire.index - d'.size)⟩
    have agree₂ : AgreeBelow d'.size value₁ value₂ := fun wire hwire => by simp [value₂, hwire]
    refine ⟨value₂, (accepts_congr constraints').mpr ((coherent'.accepts_of_agree agree₂).mp accepts₁),
      fun wire hwire => ?_⟩
    obtain ⟨i⟩ := wire
    by_cases old : i < d.size
    · rw [← agree₁ _ old]
      exact (embeds.agree agree₂ _ old).symm
    · have shift : ρ i = d'.size + (i - d.size) := by
        rw [← embeds.shift]
        congr 1
        omega
      have back : d.size + (i - d.size) = i := by omega
      simp [renamed, value₂, Wire.rename, shift, back]
  · rw [accepts_congr constraints'] at hv hw
    have agree' := equi.unique v w hv hw (agree.mono (by omega))
    intro wire hwire
    obtain ⟨j⟩ := wire
    by_cases old : j < d'.size
    · exact agree' _ old
    · have shift : ρ (d.size + (j - d'.size)) = j := by
        rw [embeds.shift]
        omega
      have same := agree ⟨d.size + (j - d'.size)⟩ (by simp only at hwire ⊢; omega)
      simpa [renamed, Wire.rename, shift] using same

end Equisatisfiable

/-! ## Simulation -/

/-- The drafts say the same: besides the assignments, their inputs, hints and what they remember
agree up to the names of the wires. -/
structure Simulates (ρ : Nat → Nat) (d : Draft F (Triple F)) (d' : Draft F (Gate F)) : Prop where
  embeds : Embeds ρ d d'
  coherent : d.Coherent
  coherent' : d'.Coherent
  equisatisfiable : Equisatisfiable ρ d d'
  sharesConstants : d'.sharesConstants = d.sharesConstants
  publicInputs : d'.wires.publicInputs.toList = d.wires.publicInputs.toList.map (Input.rename ρ)
  secretInputs : d'.wires.secretInputs.toList = d.wires.secretInputs.toList.map (Input.rename ρ)
  hints : List.Forall₂ (HintBinding.Renamed ρ) d.hints.toList d'.hints.toList
  booleans : ∀ wire, wire ∈ d.booleans ↔ wire.rename ρ ∈ d'.booleans
  constants : d'.constants = d.constants.map fun entry => (entry.1, entry.2.rename ρ)

namespace Simulates

theorem rename_congr {wire : Wire} {n : Nat} (hlt : wire.index < n) (same : ∀ i < n, ρ' i = ρ i) :
    wire.rename ρ' = wire.rename ρ :=
  congrArg Wire.mk (same _ hlt)

theorem map_rename_congr {wires : List Wire} {n : Nat} (hlt : ∀ wire ∈ wires, wire.index < n)
    (same : ∀ i < n, ρ' i = ρ i) : wires.map (Wire.rename ρ') = wires.map (Wire.rename ρ) :=
  List.map_congr_left fun wire hwire => rename_congr (hlt wire hwire) same

theorem elaborate (sim : Simulates ρ d d') (elaborates : d'.Elaborates d'') :
    Simulates (lengthen ρ d.size d''.size) d d'' := by
  have same : ∀ i < d.size, lengthen ρ d.size d''.size i = ρ i := fun i hi => lengthen_of_lt hi
  have frame := elaborates.sameFrame
  have embeds := sim.embeds.lengthen elaborates.grows.size_le
  refine { embeds
           coherent := sim.coherent
           coherent' := elaborates.coherent sim.coherent'
           equisatisfiable :=
             sim.equisatisfiable.elaborate sim.embeds sim.coherent sim.coherent' elaborates same
           sharesConstants := elaborates.grows.sharesConstants.trans sim.sharesConstants
           publicInputs := ?_
           secretInputs := ?_
           hints := ?_
           booleans := fun wire => ?_
           constants := ?_ }
  · rw [frame.publicInputs, sim.publicInputs]
    apply List.map_congr_left
    intro input hinput
    have hlt := sim.coherent.inputs input.wire ⟨input, List.mem_append_left _ hinput, rfl⟩
    rw [Input.rename, Input.rename, rename_congr hlt same]
  · rw [frame.secretInputs, sim.secretInputs]
    apply List.map_congr_left
    intro input hinput
    have hlt := sim.coherent.inputs input.wire ⟨input, List.mem_append_right _ hinput, rfl⟩
    rw [Input.rename, Input.rename, rename_congr hlt same]
  · rw [frame.hints]
    refine (List.forall₂_iff_get.mpr ?_)
    obtain ⟨length, each⟩ := List.forall₂_iff_get.mp sim.hints
    refine ⟨length, fun i hi hi' => ?_⟩
    have renamed := each i hi hi'
    have hlt := sim.coherent.hint_lt (List.get_mem d.hints.toList ⟨i, hi⟩)
    refine ⟨renamed.name, renamed.inputs.trans ?_, renamed.outputs.trans ?_⟩
    · exact (map_rename_congr (fun wire hwire => hlt wire (List.mem_append_left _ hwire)) same).symm
    · exact (map_rename_congr (fun wire hwire => hlt wire (List.mem_append_right _ hwire)) same).symm
  · rw [frame.booleans]
    by_cases old : wire.index < d.size
    · rw [rename_congr old same]
      exact sim.booleans wire
    · constructor
      · exact fun h => absurd (sim.coherent.booleans wire h).1 old
      · intro h
        have hlt := (sim.coherent'.booleans _ h).1
        exact absurd (embeds.lt_iff.mp (Nat.lt_of_lt_of_le hlt elaborates.grows.size_le)) old
  · rw [frame.constants, sim.constants]
    apply List.map_congr_left
    intro entry hentry
    rw [rename_congr (sim.coherent.constants entry hentry).1 same]

theorem define (sim : Simulates ρ d d') {c : Triple F} {c' : Gate F} {e e' : (Wire → F.Elem) → F.Elem}
    (defines : (toConstraint c).Defines ⟨d.size⟩ e) (defines' : (toConstraint c').Defines ⟨d'.size⟩ e')
    (same : ∀ value', d'.Accepts value' → e' value' = e (renamed ρ value')) :
    Simulates ρ (d.define c) (d'.define c') :=
  { sim with
    embeds := ⟨sim.embeds.mono, fun i => by
      simpa [Nat.add_assoc] using sim.embeds.shift (1 + i)⟩
    coherent := sim.coherent.define defines
    coherent' := sim.coherent'.define defines'
    equisatisfiable := sim.equisatisfiable.define sim.embeds sim.coherent' defines defines' same }

theorem emit (sim : Simulates ρ d d') {c : Triple F} {c' : Gate F}
    (wires : ∀ wire ∈ (toConstraint c).wires, wire.index < d.size)
    (wires' : ∀ wire ∈ (toConstraint c').wires, wire.index < d'.size)
    (same : ∀ value', d'.Accepts value' →
      ((toConstraint c').Holds value' ↔ (toConstraint c).Holds (renamed ρ value'))) :
    Simulates ρ (d.emit c) (d'.emit c') :=
  { sim with
    embeds := ⟨sim.embeds.mono, sim.embeds.shift⟩
    coherent := sim.coherent.emit wires
    coherent' := sim.coherent'.emit wires'
    equisatisfiable := sim.equisatisfiable.emit wires same }

theorem map_rename_span (sim : Simulates ρ d d') (n : Nat) :
    (Wire.span d.size n).map (Wire.rename ρ) = Wire.span d'.size n := by
  simp only [Wire.span, List.range'_eq_map_range, List.map_map]
  apply List.map_congr_left
  intro i _
  exact congrArg Wire.mk (sim.embeds.shift i)

theorem embeds_add (sim : Simulates ρ d d') {n : Nat} {d₁ : Draft F (Triple F)} {d₁' : Draft F (Gate F)}
    (size : d₁.size = d.size + n) (size' : d₁'.size = d'.size + n) : Embeds ρ d₁ d₁' := by
  refine ⟨sim.embeds.mono, fun i => ?_⟩
  rw [size, size', Nat.add_assoc, sim.embeds.shift, Nat.add_assoc]

theorem declare (sim : Simulates ρ d d') {role : Role} (external : role ≠ .internal) (name : String) :
    Simulates ρ (d.declare role name) (d'.declare role name) := by
  have size : (d.declare role name).size = d.size + 1 := size_declare role name
  have size' : (d'.declare role name).size = d'.size + 1 := size_declare role name
  have wire : Wire.rename ρ ⟨d.wires.size⟩ = ⟨d'.wires.size⟩ := sim.embeds.rename_next
  refine { sim with
           embeds := sim.embeds_add size size'
           coherent := sim.coherent.declare external name
           coherent' := sim.coherent'.declare external name
           equisatisfiable := sim.equisatisfiable.allocate sim.embeds sim.coherent' rfl rfl size size'
           publicInputs := ?_
           secretInputs := ?_ }
  · cases role with
    | internal => exact absurd rfl external
    | publicInput =>
        simp [Draft.declare, WireTable.allocateInput, WireTable.allocate, sim.publicInputs, Input.rename, wire]
    | secretInput => exact sim.publicInputs
  · cases role with
    | internal => exact absurd rfl external
    | publicInput => exact sim.secretInputs
    | secretInput =>
        simp [Draft.declare, WireTable.allocateInput, WireTable.allocate, sim.secretInputs, Input.rename, wire]

theorem bind (sim : Simulates ρ d d') {b b' : HintBinding} {n : Nat}
    (hinputs : ∀ wire ∈ b.inputs, wire.index < d.size) (houtputs : b.outputs = Wire.span d.size n)
    (position : b.position = d.constraints.size) (position' : b'.position = d'.constraints.size)
    (renamed : HintBinding.Renamed ρ b b') :
    Simulates ρ ((d.freshMany n).bind b) ((d'.freshMany n).bind b') := by
  have size : ((d.freshMany n).bind b).size = d.size + n := size_freshMany n
  have size' : ((d'.freshMany n).bind b').size = d'.size + n := size_freshMany n
  have hinputs' : ∀ wire ∈ b'.inputs, wire.index < d'.size := by
    intro wire hwire
    rw [renamed.inputs] at hwire
    obtain ⟨w, hw, rfl⟩ := List.mem_map.mp hwire
    exact sim.embeds.lt (hinputs w hw)
  have houtputs' : b'.outputs = Wire.span d'.size n := by
    rw [renamed.outputs, houtputs, sim.map_rename_span]
  refine { sim with
           embeds := sim.embeds_add size size'
           coherent := sim.coherent.bind hinputs houtputs position
           coherent' := sim.coherent'.bind hinputs' houtputs' position'
           equisatisfiable := sim.equisatisfiable.allocate sim.embeds sim.coherent' rfl rfl size size'
           publicInputs := ?_
           secretInputs := ?_
           hints := ?_ }
  · simpa [Draft.bind, Draft.freshMany] using sim.publicInputs
  · simpa [Draft.bind, Draft.freshMany] using sim.secretInputs
  · simpa [Draft.bind, Draft.freshMany] using List.rel_append sim.hints (.cons renamed .nil)

theorem remember (sim : Simulates ρ d d') {k : F.Elem} {wire : Wire} (hlt : wire.index < d.size)
    (constant : ∀ value, d.Accepts value → value wire = k) :
    Simulates ρ (d.remember k wire) (d'.remember k (wire.rename ρ)) := by
  have constant' : ∀ value, d'.Accepts value → value (wire.rename ρ) = k := fun value accepts =>
    constant _ (sim.equisatisfiable.restrict value accepts)
  have coherent := sim.coherent.remember hlt constant
  have coherent' := sim.coherent'.remember (sim.embeds.lt hlt) constant'
  by_cases shares : d.sharesConstants = true
  · have shares' : d'.sharesConstants = true := sim.sharesConstants.trans shares
    simp only [Draft.remember, shares, shares', ↓reduceIte] at coherent coherent' ⊢
    exact { sim with
      embeds := ⟨sim.embeds.mono, sim.embeds.shift⟩
      coherent
      coherent'
      equisatisfiable := ⟨sim.equisatisfiable.restrict, sim.equisatisfiable.extend, sim.equisatisfiable.unique⟩
      sharesConstants := rfl
      constants := by simp [sim.constants] }
  · have shares' : d'.sharesConstants ≠ true := fun h => shares (sim.sharesConstants.symm.trans h)
    rwa [Draft.remember, if_neg shares, Draft.remember, if_neg shares']

theorem mark (sim : Simulates ρ d d') {wire : Wire} (hlt : wire.index < d.size)
    (boolean : ∀ value, d.Accepts value → value wire * (value wire - 1) = 0) :
    Simulates ρ (d.mark wire) (d'.mark (wire.rename ρ)) :=
  { sim with
    embeds := ⟨sim.embeds.mono, sim.embeds.shift⟩
    coherent := sim.coherent.mark hlt boolean
    coherent' := sim.coherent'.mark (sim.embeds.lt hlt) fun value accepts =>
      boolean _ (sim.equisatisfiable.restrict value accepts)
    equisatisfiable := ⟨sim.equisatisfiable.restrict, sim.equisatisfiable.extend, sim.equisatisfiable.unique⟩
    booleans := fun other => by
      simp [Draft.mark, sim.booleans, rename_inj sim.embeds.mono] }

theorem markAlone (sim : Simulates ρ d d') {wire' : Wire} (hlt : wire'.index < d'.size)
    (own : ∀ wire : Wire, wire.rename ρ ≠ wire')
    (boolean : ∀ value, d'.Accepts value → value wire' * (value wire' - 1) = 0) :
    Simulates ρ d (d'.mark wire') :=
  { sim with
    embeds := ⟨sim.embeds.mono, sim.embeds.shift⟩
    coherent' := sim.coherent'.mark hlt boolean
    equisatisfiable := ⟨sim.equisatisfiable.restrict, sim.equisatisfiable.extend, sim.equisatisfiable.unique⟩
    booleans := fun wire => by
      simp [Draft.mark, sim.booleans, own wire] }

end Simulates

end Draft

end ArithCircuit
