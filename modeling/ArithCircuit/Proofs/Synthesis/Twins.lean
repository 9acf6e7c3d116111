import ArithCircuit.Proofs.Field.Digits
import ArithCircuit.Proofs.Synthesis.Operations
import ArithCircuit.Proofs.Synthesis.Simulation

/-!
# Twin drafts

Twins are a draft of triples and a draft of gates that say the same. A synthesis of triples matches
one of gates if, begun in twins, both leave twins: with the same results under the new names of the
wires, or with the same error.
-/

namespace ArithCircuit

variable {F : PrimeField} {α α' β β' : Type}

structure Twins (F : PrimeField) where
  names : Nat → Nat
  triples : Draft F (Triple F)
  gates : Draft F (Gate F)
  simulates : Draft.Simulates names triples gates

namespace Twins

variable {s s₁ s₂ : Twins F}

/-- Both drafts have grown, and the wires have kept their names. -/
structure Grows (s s₁ : Twins F) : Prop where
  triples : s.triples.Grows s₁.triples
  gates : s.gates.Grows s₁.gates
  names : ∀ i < s.triples.size, s₁.names i = s.names i

theorem Grows.refl (s : Twins F) : s.Grows s := ⟨.refl _, .refl _, fun _ _ => rfl⟩

theorem Grows.trans (h : s.Grows s₁) (h' : s₁.Grows s₂) : s.Grows s₂ where
  triples := h.triples.trans h'.triples
  gates := h.gates.trans h'.gates
  names i hi := (h'.names i (Nat.lt_of_lt_of_le hi h.triples.size_le)).trans (h.names i hi)

/-! ## Images -/

/-- A wire of the first draft and its name in the second. -/
structure WireImage (s : Twins F) (wire wire' : Wire) : Prop where
  lt : wire.index < s.triples.size
  eq : wire' = wire.rename s.names

/-- An expression over wires of the first draft and the same one in the second. -/
structure Image (s : Twins F) (x x' : LinearCombination F) : Prop where
  below : x.Below s.triples.size
  eq : x' = x.rename s.names

theorem WireImage.grow {wire wire' : Wire} (h : s.WireImage wire wire') (grows : s.Grows s₁) :
    s₁.WireImage wire wire' where
  lt := Nat.lt_of_lt_of_le h.lt grows.triples.size_le
  eq := h.eq.trans (congrArg Wire.mk (grows.names _ h.lt).symm)

theorem WireImage.image {wire wire' : Wire} (h : s.WireImage wire wire') :
    s.Image (.ofWire wire) (.ofWire wire') where
  below := LinearCombination.below_ofWire.mpr h.lt
  eq := by rw [h.eq, LinearCombination.rename_ofWire]

namespace Image

variable {x x' y y' : LinearCombination F} {xs xs' : List (LinearCombination F)}

theorem grow (h : s.Image x x') (grows : s.Grows s₁) : s₁.Image x x' where
  below := h.below.mono grows.triples.size_le
  eq := h.eq.trans (h.below.rename_congr fun i hi => (grows.names i hi).symm)

theorem asConstant? (h : s.Image x x') : x'.asConstant? = x.asConstant? := by
  rw [h.eq, LinearCombination.asConstant?_rename]

theorem asWire? (h : s.Image x x') : x'.asWire? = x.asWire?.map (Wire.rename s.names) := by
  rw [h.eq, LinearCombination.asWire?_rename]

theorem wire (h : s.Image x x') {wire : Wire} (hwire : x.asWire? = some wire) :
    s.WireImage wire (wire.rename s.names) := by
  have below := h.below
  rw [LinearCombination.eq_ofWire hwire] at below
  exact ⟨LinearCombination.below_ofWire.mp below, rfl⟩

theorem below_gates (h : s.Image x x') : x'.Below s.gates.size := by
  rw [h.eq]
  exact h.below.rename fun i hi => s.simulates.embeds.lt hi

theorem evalWith (h : s.Image x x') (value' : Wire → F.Elem) :
    x'.evalWith value' = x.evalWith (renamed s.names value') := by
  rw [h.eq, LinearCombination.evalWith_rename]
  rfl

theorem ofConstant (k : F.Elem) : s.Image (.ofConstant k) (.ofConstant k) :=
  ⟨LinearCombination.below_ofConstant k, rfl⟩

theorem zero : s.Image .zero .zero := ⟨LinearCombination.below_zero, rfl⟩

theorem add (hx : s.Image x x') (hy : s.Image y y') : s.Image (x + y) (x' + y') where
  below := hx.below.add hy.below
  eq := by rw [hx.eq, hy.eq, LinearCombination.rename_add s.simulates.embeds.mono]

theorem sub (hx : s.Image x x') (hy : s.Image y y') : s.Image (x - y) (x' - y') where
  below := hx.below.sub hy.below
  eq := by rw [hx.eq, hy.eq, LinearCombination.rename_sub s.simulates.embeds.mono]

theorem subScaled (hx : s.Image x x') (hy : s.Image y y') (k : F.Elem) :
    s.Image (x.subScaled k y) (x'.subScaled k y') where
  below := hx.below.subScaled hy.below k
  eq := by rw [hx.eq, hy.eq, LinearCombination.rename_subScaled s.simulates.embeds.mono]

theorem scale (hx : s.Image x x') (k : F.Elem) : s.Image (x.scale k) (x'.scale k) where
  below := hx.below.scale k
  eq := by rw [hx.eq, LinearCombination.rename_scale]

theorem neg (hx : s.Image x x') : s.Image (-x) (-x') := hx.scale (-1)

end Image

variable {xs xs' : List (LinearCombination F)}

abbrev Images (s : Twins F) : List (LinearCombination F) → List (LinearCombination F) → Prop :=
  List.Forall₂ s.Image

theorem Images.grow (h : s.Images xs xs') (grows : s.Grows s₁) : s₁.Images xs xs' :=
  h.imp fun _ _ image => image.grow grows

theorem Images.below (h : s.Images xs xs') : ∀ x ∈ xs, x.Below s.triples.size := by
  induction h with
  | nil => simp
  | cons image _ ih => exact List.forall_mem_cons.mpr ⟨image.below, ih⟩

theorem Images.eq (h : s.Images xs xs') : xs' = xs.map (LinearCombination.rename s.names) := by
  induction h with
  | nil => rfl
  | cons image _ ih => rw [List.map_cons, image.eq, ih]

theorem Images.of_map (h : ∀ x ∈ xs, x.Below s.triples.size) :
    s.Images xs (xs.map (LinearCombination.rename s.names)) :=
  List.forall₂_map_right_iff.mpr (List.forall₂_same.mpr fun x hx => ⟨h x hx, rfl⟩)

theorem Images.ofBits (h : s.Images xs xs') : s.Image (.ofBits xs) (.ofBits xs') where
  below := LinearCombination.below_ofBits h.below
  eq := by rw [h.eq, LinearCombination.rename_ofBits s.simulates.embeds.mono]

theorem Images.take (h : s.Images xs xs') (n : Nat) : s.Images (xs.take n) (xs'.take n) := by
  rw [h.eq, ← List.map_take]
  exact .of_map fun x hx => h.below x (List.mem_of_mem_take hx)

theorem Images.chunks (h : s.Images xs xs') (size : Nat) :
    List.Forall₂ s.Images (ArithCircuit.chunks size xs) (ArithCircuit.chunks size xs') := by
  rw [h.eq, ← map_chunks]
  exact List.forall₂_map_right_iff.mpr (List.forall₂_same.mpr fun chunk hchunk =>
    .of_map fun x hx => h.below x (mem_of_mem_chunks hchunk hx))

abbrev WireImages (s : Twins F) : List Wire → List Wire → Prop := List.Forall₂ s.WireImage

variable {wires wires' : List Wire}

theorem WireImages.lt (h : s.WireImages wires wires') : ∀ wire ∈ wires, wire.index < s.triples.size := by
  induction h with
  | nil => simp
  | cons image _ ih => exact List.forall_mem_cons.mpr ⟨image.lt, ih⟩

theorem WireImages.eq (h : s.WireImages wires wires') : wires' = wires.map (Wire.rename s.names) := by
  induction h with
  | nil => rfl
  | cons image _ ih => rw [List.map_cons, image.eq, ih]

theorem WireImages.of_map (h : ∀ wire ∈ wires, wire.index < s.triples.size) :
    s.WireImages wires (wires.map (Wire.rename s.names)) :=
  List.forall₂_map_right_iff.mpr (List.forall₂_same.mpr fun wire hwire => ⟨h wire hwire, rfl⟩)

theorem WireImages.images (h : s.WireImages wires wires') :
    s.Images (wires.map .ofWire) (wires'.map .ofWire) := by
  induction h with
  | nil => exact .nil
  | cons image _ ih => exact .cons image.image ih

/-- A factor of a triple and one of a gate, with the same value. -/
structure FactorImage (s : Twins F) (x : LinearCombination F) (y : SlotFactor F) : Prop where
  below : x.Below s.triples.size
  below_gates : y.Below s.gates.size
  evalWith : ∀ value', s.gates.Accepts value' → y.evalWith value' = x.evalWith (renamed s.names value')

theorem FactorImage.grow {x : LinearCombination F} {y : SlotFactor F} (h : s.FactorImage x y)
    (grows : s.Grows s₁) : s₁.FactorImage x y where
  below := h.below.mono grows.triples.size_le
  below_gates wire hwire := Nat.lt_of_lt_of_le (h.below_gates wire hwire) grows.gates.size_le
  evalWith value' accepts := by
    rw [h.evalWith value' (grows.gates.accepts accepts)]
    apply h.below.evalWith_congr
    intro wire hwire
    rw [renamed, renamed, Wire.rename, Wire.rename, grows.names _ hwire]

/-! ## Changes of both drafts -/

def elaborate (s : Twins F) {d' : Draft F (Gate F)} (elaborates : s.gates.Elaborates d') : Twins F where
  names := Draft.lengthen s.names s.triples.size d'.size
  triples := s.triples
  gates := d'
  simulates := s.simulates.elaborate elaborates

theorem grows_elaborate {d' : Draft F (Gate F)} (elaborates : s.gates.Elaborates d') :
    s.Grows (s.elaborate elaborates) :=
  ⟨.refl _, elaborates.grows, fun _ hi => Draft.lengthen_of_lt hi⟩

section Constraints

variable {c : Triple F} {c' : Gate F} {e e' : (Wire → F.Elem) → F.Elem}

def define (s : Twins F) (defines : (toConstraint c).Defines ⟨s.triples.size⟩ e)
    (defines' : (toConstraint c').Defines ⟨s.gates.size⟩ e')
    (same : ∀ value', s.gates.Accepts value' → e' value' = e (renamed s.names value')) : Twins F where
  names := s.names
  triples := s.triples.define c
  gates := s.gates.define c'
  simulates := s.simulates.define defines defines' same

variable {defines : (toConstraint c).Defines ⟨s.triples.size⟩ e}
  {defines' : (toConstraint c').Defines ⟨s.gates.size⟩ e'}
  {same : ∀ value', s.gates.Accepts value' → e' value' = e (renamed s.names value')}

theorem grows_define : s.Grows (s.define defines defines' same) :=
  ⟨.define c, .define c', fun _ _ => rfl⟩

theorem wireImage_define :
    (s.define defines defines' same).WireImage ⟨s.triples.size⟩ ⟨s.gates.size⟩ where
  lt := by
    show s.triples.size < (s.triples.define c).size
    simp
  eq := s.simulates.embeds.rename_next.symm

def emit (s : Twins F) (wires : ∀ wire ∈ (toConstraint c).wires, wire.index < s.triples.size)
    (wires' : ∀ wire ∈ (toConstraint c').wires, wire.index < s.gates.size)
    (same : ∀ value', s.gates.Accepts value' →
      ((toConstraint c').Holds value' ↔ (toConstraint c).Holds (renamed s.names value'))) : Twins F where
  names := s.names
  triples := s.triples.emit c
  gates := s.gates.emit c'
  simulates := s.simulates.emit wires wires' same

theorem grows_emit {wires : ∀ wire ∈ (toConstraint c).wires, wire.index < s.triples.size}
    {wires' : ∀ wire ∈ (toConstraint c').wires, wire.index < s.gates.size}
    {same : ∀ value', s.gates.Accepts value' →
      ((toConstraint c').Holds value' ↔ (toConstraint c).Holds (renamed s.names value'))} :
    s.Grows (s.emit wires wires' same) :=
  ⟨.emit c, .emit c', fun _ _ => rfl⟩

end Constraints

def boolean (s : Twins F) {y : LinearCombination F} {y' : SlotFactor F} (hy : s.FactorImage y y') : Twins F :=
  s.emit (LawfulForm.boolean_lt (κ := Triple F) hy.below) (Gate.boolean_lt hy.below_gates)
    fun value' accepts => by
      rw [Gate.holds_boolean, hy.evalWith value' accepts]
      exact (LawfulForm.holds_boolean (κ := Triple F)).symm

theorem grows_boolean {y : LinearCombination F} {y' : SlotFactor F} (hy : s.FactorImage y y') :
    s.Grows (s.boolean hy) :=
  grows_emit

def declare (s : Twins F) {role : Role} (external : role ≠ .internal) (name : String) : Twins F where
  names := s.names
  triples := s.triples.declare role name
  gates := s.gates.declare role name
  simulates := s.simulates.declare external name

theorem grows_declare {role : Role} (external : role ≠ .internal) (name : String) :
    s.Grows (s.declare external name) :=
  ⟨.declare role name, .declare role name, fun _ _ => rfl⟩

section Marks

variable {wire wire' : Wire} {k : F.Elem}

def remember (s : Twins F) (image : s.WireImage wire wire')
    (constant : ∀ value, s.triples.Accepts value → value wire = k) : Twins F where
  names := s.names
  triples := s.triples.remember k wire
  gates := s.gates.remember k wire'
  simulates := image.eq ▸ s.simulates.remember image.lt constant

theorem grows_remember {image : s.WireImage wire wire'}
    {constant : ∀ value, s.triples.Accepts value → value wire = k} :
    s.Grows (s.remember image constant) :=
  ⟨.remember k wire, .remember k wire', fun _ _ => rfl⟩

def mark (s : Twins F) (image : s.WireImage wire wire')
    (boolean : ∀ value, s.triples.Accepts value → value wire * (value wire - 1) = 0) : Twins F where
  names := s.names
  triples := s.triples.mark wire
  gates := s.gates.mark wire'
  simulates := image.eq ▸ s.simulates.mark image.lt boolean

theorem grows_mark {image : s.WireImage wire wire'}
    {boolean : ∀ value, s.triples.Accepts value → value wire * (value wire - 1) = 0} :
    s.Grows (s.mark image boolean) :=
  ⟨.mark wire, .mark wire', fun _ _ => rfl⟩

/-- The gates mark a wire of their own. -/
def markGates (s : Twins F) (hlt : wire'.index < s.gates.size) (own : ∀ wire : Wire, wire.rename s.names ≠ wire')
    (boolean : ∀ value, s.gates.Accepts value → value wire' * (value wire' - 1) = 0) : Twins F where
  names := s.names
  triples := s.triples
  gates := s.gates.mark wire'
  simulates := s.simulates.markAlone hlt own boolean

theorem grows_markGates {hlt : wire'.index < s.gates.size} {own : ∀ wire : Wire, wire.rename s.names ≠ wire'}
    {boolean : ∀ value, s.gates.Accepts value → value wire' * (value wire' - 1) = 0} :
    s.Grows (s.markGates hlt own boolean) :=
  ⟨.refl _, .mark wire', fun _ _ => rfl⟩

end Marks

def bind (s : Twins F) (h : s.WireImages wires wires') (name : String) (n : Nat) : Twins F where
  names := s.names
  triples := (s.triples.freshMany n).bind {
    name, inputs := wires, outputs := Wire.span s.triples.size n, position := s.triples.constraints.size }
  gates := (s.gates.freshMany n).bind {
    name, inputs := wires', outputs := Wire.span s.gates.size n, position := s.gates.constraints.size }
  simulates := s.simulates.bind h.lt rfl rfl rfl ⟨rfl, h.eq, (s.simulates.map_rename_span n).symm⟩

theorem grows_bind (h : s.WireImages wires wires') (name : String) (n : Nat) : s.Grows (s.bind h name n) :=
  ⟨.bind (Nat.le_refl _) rfl, .bind (Nat.le_refl _) rfl, fun _ _ => rfl⟩

theorem wireImages_bind (h : s.WireImages wires wires') (name : String) (n : Nat) :
    (s.bind h name n).WireImages (Wire.span s.triples.size n) (Wire.span s.gates.size n) := by
  have images : (s.bind h name n).WireImages (Wire.span s.triples.size n)
      ((Wire.span s.triples.size n).map (Wire.rename s.names)) := .of_map fun wire hwire => by
    show wire.index < (s.triples.freshMany n).size
    rw [Draft.size_freshMany]
    exact (Wire.mem_span.mp hwire).2
  rwa [s.simulates.map_rename_span] at images

end Twins

/-! ## Matching -/

/-- The same error, at whatever constraint. -/
inductive SynthesisError.SameCause : SynthesisError → SynthesisError → Prop
  | divisionByZero (n n' : Nat) : SameCause (.divisionByZero n) (.divisionByZero n')
  | malformed (n n' : Nat) (reason : Malformation) : SameCause (.malformed n reason) (.malformed n' reason)

namespace Synthesis

variable {s : Twins F} {m : Synthesis F (Triple F) α} {m' : Synthesis F (Gate F) α'}
  {R R' : Twins F → α → α' → Prop}

inductive Matches (s : Twins F) (m : Synthesis F (Triple F) α) (m' : Synthesis F (Gate F) α')
    (R : Twins F → α → α' → Prop) : Prop
  | results {a : α} {a' : α'} (after : Twins F) (run : m.run s.triples = .ok a after.triples)
      (run' : m'.run s.gates = .ok a' after.gates) (grows : s.Grows after) (related : R after a a') :
      Matches s m m' R
  | errors {e e' : SynthesisError} (after : Twins F) (run : m.run s.triples = .error e after.triples)
      (run' : m'.run s.gates = .error e' after.gates) (grows : s.Grows after) (same : e.SameCause e') :
      Matches s m m' R

theorem matches_pure {a : α} {a' : α'} (related : R s a a') : Matches s (pure a) (pure a') R :=
  .results s rfl rfl (.refl s) related

theorem matches_fail {error : Nat → SynthesisError} (same : ∀ n n', (error n).SameCause (error n')) :
    Matches s (fail error) (fail error) R :=
  .errors s rfl rfl (.refl s) (same _ _)

theorem Matches.bind {f : α → Synthesis F (Triple F) β} {f' : α' → Synthesis F (Gate F) β'}
    {Q : Twins F → β → β' → Prop} (first : Matches s m m' R)
    (second : ∀ s₁ a a', s.Grows s₁ → R s₁ a a' → Matches s₁ (f a) (f' a') Q) :
    Matches s (m >>= f) (m' >>= f') Q := by
  cases first with
  | errors s₁ run run' grows same => exact .errors s₁ (run_bind_error run) (run_bind_error run') grows same
  | results s₁ run run' grows related =>
      cases second s₁ _ _ grows related with
      | errors s₂ run₁ run₁' grows₁ same =>
          exact .errors s₂ ((run_bind_ok run).trans run₁) ((run_bind_ok run').trans run₁') (grows.trans grows₁) same
      | results s₂ run₁ run₁' grows₁ related₁ =>
          exact .results s₂ ((run_bind_ok run).trans run₁) ((run_bind_ok run').trans run₁') (grows.trans grows₁)
            related₁

theorem Matches.map {f : α → β} {f' : α' → β'} {Q : Twins F → β → β' → Prop} (first : Matches s m m' R)
    (hQ : ∀ s₁ a a', R s₁ a a' → Q s₁ (f a) (f' a')) : Matches s (f <$> m) (f' <$> m') Q := by
  rw [map_eq_pure_bind, map_eq_pure_bind]
  exact first.bind fun s₁ a a' _ related => matches_pure (hQ s₁ a a' related)

theorem matches_get_bind {f : Draft F (Triple F) → Synthesis F (Triple F) α}
    {f' : Draft F (Gate F) → Synthesis F (Gate F) α'} (h : Matches s (f s.triples) (f' s.gates) R) :
    Matches s (get >>= f) (get >>= f') R := by
  cases h with
  | results s₁ run run' grows related => exact .results s₁ run run' grows related
  | errors s₁ run run' grows same => exact .errors s₁ run run' grows same

/-- Both drafts share constants, or none does. -/
theorem matches_shares {m₁ m₂ : Synthesis F (Triple F) α} {m₁' m₂' : Synthesis F (Gate F) α'}
    (folded : Matches s m₁ m₁' R) (plain : Matches s m₂ m₂' R) :
    Matches s (do if (← get).sharesConstants then m₁ else m₂)
      (do if (← get).sharesConstants then m₁' else m₂') R := by
  apply matches_get_bind
  rw [s.simulates.sharesConstants]
  split
  · exact folded
  · exact plain

end Synthesis

end ArithCircuit
