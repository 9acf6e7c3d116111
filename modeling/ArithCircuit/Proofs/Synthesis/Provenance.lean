import ArithCircuit.Proofs.Synthesis.Additions

/-!
# Where constraints come from

A constraint does not tell what it was emitted for: a pin and a check look like the products that a circuit may
assert itself. So a circuit is also defined in labelled constraints, which tell. Without the labels that is the
definition in the constraints themselves, and the labels account for all that the draft remembers.
-/

namespace ArithCircuit

open ConstraintForm (Factor collect pinned product boolean wireFactor asWire? factor materialize enforceZero)
open LinearCombination (ofConstant ofWire)

variable {F : PrimeField} {κ α β : Type}

/-! ## Labels -/

/-- A constraint with what it was emitted for: to pin a wire to a constant, to check that a factor is zero or
one, or anything else. -/
inductive Labelled (κ : Type) [ConstraintForm F κ] where
  | pin (wire : Wire) (value : F.Elem)
  | check (x : Factor κ)
  | other (constraint : κ)

namespace Labelled

variable [ConstraintForm F κ]

def plain : Labelled κ → κ
  | pin wire value => pinned wire value
  | check x => boolean x
  | other constraint => constraint

def pin? : Labelled κ → Option (F.Elem × Wire)
  | pin wire value => some (value, wire)
  | _ => none

/-- It is a check of the wire alone. -/
def checks (wire : Wire) : Labelled κ → Bool
  | check x => asWire? x = some wire
  | _ => false

@[simp]
theorem pin?_pin (wire : Wire) (k : F.Elem) : (pin wire k : Labelled κ).pin? = some (k, wire) := rfl

@[simp]
theorem pin?_check (x : Factor κ) : (check x : Labelled κ).pin? = none := rfl

@[simp]
theorem pin?_other (c : κ) : (other c).pin? = none := rfl

@[simp]
theorem checks_pin (wire wire' : Wire) (k : F.Elem) : (pin wire' k : Labelled κ).checks wire = false := rfl

@[simp]
theorem checks_check (wire : Wire) (x : Factor κ) :
    (check x : Labelled κ).checks wire = decide (asWire? x = some wire) := rfl

@[simp]
theorem checks_other (wire : Wire) (c : κ) : (other c).checks wire = false := rfl

end Labelled

namespace Draft

variable [ConstraintForm F κ] {d d' : Draft F (Labelled κ)}

/-- The draft without labels. -/
def plain (d : Draft F (Labelled κ)) : Draft F κ := { d with constraints := d.constraints.map Labelled.plain }

/-- What was added to the plain draft, without a purpose of its own. -/
def follow (d : Draft F (Labelled κ)) (after : Draft F κ) : Draft F (Labelled κ) :=
  { after with
    constraints := d.constraints ++ ((after.constraints.toList.drop d.constraints.size).map .other).toArray }

end Draft

/-- Does what the plain synthesis does. -/
def Synthesis.labelled [ConstraintForm F κ] (m : Synthesis F κ α) : Synthesis F (Labelled κ) α := fun d =>
  match m.run d.plain with
  | .ok a after => .ok a (d.follow after)
  | .error e after => .error e (d.follow after)

instance [ConstraintForm F κ] : ConstraintForm F (Labelled κ) where
  Factor := Factor κ
  collect constraints := collect (constraints.map Labelled.plain)
  pinned := .pin
  product x y z := .other (product x y z)
  boolean := .check
  wireFactor := wireFactor (κ := κ)
  asWire? := asWire? (κ := κ)
  factor x := (factor (κ := κ) x).labelled
  materialize x := (materialize (κ := κ) x).labelled
  enforceZero x := (enforceZero (κ := κ) x).labelled

/-! ## What is remembered -/

namespace Draft

variable [ConstraintForm F κ] {d d' : Draft F (Labelled κ)}

theorem size_plain (d : Draft F (Labelled κ)) : d.plain.constraints.size = d.constraints.size := Array.size_map

theorem plain_empty (sharesConstants : Bool) :
    ({ sharesConstants } : Draft F (Labelled κ)).plain = { sharesConstants } := by
  simp [plain]

theorem plain_emit (c : Labelled κ) : (d.emit c).plain = d.plain.emit c.plain := by
  simp [plain, emit]

/-- The pins of the draft with their constants, in order. -/
def pins (d : Draft F (Labelled κ)) : List (F.Elem × Wire) := d.constraints.toList.filterMap Labelled.pin?

/-- How many constraints check the wire alone. -/
def timesChecked (d : Draft F (Labelled κ)) (wire : Wire) : Nat := d.constraints.toList.countP (Labelled.checks wire)

@[simp]
theorem pins_emit (c : Labelled κ) : (d.emit c).pins = d.pins ++ c.pin?.toList := by
  cases h : c.pin? <;> simp [pins, Draft.emit, h]

@[simp]
theorem timesChecked_emit (c : Labelled κ) (wire : Wire) :
    (d.emit c).timesChecked wire = d.timesChecked wire + if c.checks wire then 1 else 0 := by
  simp [timesChecked, Draft.emit, List.countP_cons]

/-- The labels account for what the draft remembers. -/
structure Booked (d : Draft F (Labelled κ)) : Prop where
  /-- A wire was checked once if it is marked, and not at all otherwise. -/
  checks : ∀ wire, d.timesChecked wire = if wire ∈ d.booleans then 1 else 0
  /-- The latest pin comes first. -/
  pins : d.sharesConstants = true → d.constants = d.pins.reverse
  separate : d.sharesConstants = false → d.constants = []
  distinct : (d.constants.map Prod.fst).Nodup

theorem booked_empty (sharesConstants : Bool) : ({ sharesConstants } : Draft F (Labelled κ)).Booked :=
  ⟨by simp [timesChecked], by simp [Draft.pins], by simp, by simp⟩

/-- A wire that is not marked yet is checked and marked. -/
theorem Booked.mark (h : d.Booked) {x : Factor κ} {wire : Wire} (hwire : asWire? x = some wire)
    (new : wire ∉ d.booleans) : ((d.emit (.check x)).mark wire).Booked where
  checks other := by
    show (d.emit (.check x)).timesChecked other = if other ∈ wire :: d.booleans then 1 else 0
    rw [timesChecked_emit, h.checks]
    by_cases same : wire = other
    · subst same
      simp [hwire, new]
    · simp [hwire, same, Ne.symm same]
  pins := by
    show d.sharesConstants = true → d.constants = (d.emit (.check x)).pins.reverse
    simpa using h.pins
  separate := h.separate
  distinct := h.distinct

omit [ConstraintForm F κ] in
theorem not_mem_keys {d : Draft F κ} {k : F.Elem} (unknown : d.constantWire? k = none) :
    k ∉ d.constants.map Prod.fst := by
  intro old
  obtain ⟨entry, hentry, rfl⟩ := List.mem_map.mp old
  have different := List.lookup_eq_none_iff.mp unknown entry hentry
  simp at different

/-- A constant that is not pinned yet is pinned and remembered. -/
theorem Booked.remember (h : d.Booked) {k : F.Elem} (wire : Wire) (unknown : d.constantWire? k = none) :
    ((d.define (.pin wire k)).remember k wire).Booked := by
  have checks (other : Wire) : (d.define (.pin wire k)).timesChecked other = if other ∈ d.booleans then 1 else 0 := by
    show (d.fresh.emit (.pin wire k)).timesChecked other = _
    rw [timesChecked_emit, ← h.checks]
    rfl
  have pins : (d.define (.pin wire k)).pins = d.pins ++ [(k, wire)] := pins_emit (d := d.fresh) _
  cases shares : d.sharesConstants with
  | false =>
      have same : (d.define (.pin wire k)).remember k wire = d.define (.pin wire k) :=
        if_neg (Bool.eq_false_iff.mp shares)
      rw [same]
      refine ⟨checks, fun kept => ?_, h.separate, h.distinct⟩
      rw [show (d.define (.pin wire k)).sharesConstants = false from shares] at kept
      cases kept
  | true =>
      have more : (d.define (.pin wire k)).remember k wire
          = { d.define (.pin wire k) with constants := (k, wire) :: d.constants } := if_pos shares
      rw [more]
      refine ⟨checks, fun _ => ?_, fun separate => ?_, ?_⟩
      · show (k, wire) :: d.constants = (d.define (.pin wire k)).pins.reverse
        rw [pins, List.reverse_append, h.pins shares]
        rfl
      · rw [show d.sharesConstants = false from separate] at shares
        cases shares
      · exact List.nodup_cons.mpr ⟨not_mem_keys unknown, h.distinct⟩

/-- Without labels a pin is a constraint that gives the wire its constant. -/
theorem plain_remember (k : F.Elem) (wire : Wire) : ((d.define (.pin wire k)).remember k wire).plain
    = (d.plain.define (pinned wire k)).remember k wire := by
  have emitted : (d.define (.pin wire k)).plain = d.plain.define (pinned wire k) := plain_emit (d := d.fresh) _
  rw [← emitted, Draft.remember, apply_ite plain]
  rfl

/-- The constraints that were added pin nothing and check no wire alone, and nothing was remembered. -/
structure Silent (d d' : Draft F (Labelled κ)) : Prop where
  pins : d'.pins = d.pins
  timesChecked : ∀ wire, d'.timesChecked wire = d.timesChecked wire
  booleans : d'.booleans = d.booleans
  constants : d'.constants = d.constants
  sharesConstants : d'.sharesConstants = d.sharesConstants

theorem Silent.refl (d : Draft F (Labelled κ)) : d.Silent d := ⟨rfl, fun _ => rfl, rfl, rfl, rfl⟩

theorem Silent.emit {c : Labelled κ} (unpinned : c.pin? = none) (unchecked : ∀ wire, c.checks wire = false) :
    d.Silent (d.emit c) :=
  ⟨by simp [unpinned], by simp [unchecked], rfl, rfl, rfl⟩

theorem Booked.silent (h : d.Booked) (silent : d.Silent d') : d'.Booked := by
  obtain ⟨pins, timesChecked, booleans, constants, sharesConstants⟩ := silent
  refine ⟨fun wire => ?_, ?_, ?_, ?_⟩
  · rw [timesChecked, booleans, h.checks]
  · rw [pins, constants, sharesConstants]
    exact h.pins
  · rw [constants, sharesConstants]
    exact h.separate
  · rw [constants]
    exact h.distinct

/-! ## What a form adds on its own -/

theorem follow_addAll (k : Nat) (cs : List κ) :
    d.follow (d.plain.addAll k cs) = d.addAll k (cs.map .other) := by
  simp [follow, Draft.addAll, plain, freshMany, List.drop_left']

theorem follow_plain : d.follow d.plain = d := by
  have nothing : d.plain.constraints.toList.drop d.constraints.size = [] :=
    List.drop_eq_nil_of_le (by rw [Array.length_toList, size_plain])
  rw [follow, nothing]
  simp [plain]

theorem plain_addAll (k : Nat) (cs : List (Labelled κ)) :
    (d.addAll k cs).plain = d.plain.addAll k (cs.map Labelled.plain) := by
  simp [plain, Draft.addAll, freshMany]

theorem silent_addAll (k : Nat) (cs : List κ) : d.Silent (d.addAll k (cs.map .other)) where
  pins := by simp [pins, Draft.addAll, Function.comp_def]
  timesChecked wire := by simp [timesChecked, Draft.addAll, Function.comp_def]
  booleans := rfl
  constants := rfl
  sharesConstants := rfl

end Draft

/-! ## Synthesis in labelled constraints -/

namespace Synthesis

variable [ConstraintForm F κ] {d d' : Draft F (Labelled κ)}

/-- The same result on the draft without labels. -/
def plainResult : EStateM.Result SynthesisError (Draft F (Labelled κ)) α → EStateM.Result SynthesisError (Draft F κ) α
  | .ok a d => .ok a d.plain
  | .error e d => .error e d.plain

/-- The first synthesis does what the second one does without labels, and its labels account for what is
remembered. -/
class Tracks (m : Synthesis F (Labelled κ) α) (m' : Synthesis F κ α) : Prop where
  run : ∀ d : Draft F (Labelled κ), m'.run d.plain = plainResult (m.run d)
  booked : ∀ d : Draft F (Labelled κ), d.Booked → (left m d).Booked

section Rules

variable {m : Synthesis F (Labelled κ) α} {m' : Synthesis F κ α}

theorem tracks_of_silent (hrun : ∀ d, m'.run d.plain = plainResult (m.run d))
    (silent : ∀ d : Draft F (Labelled κ), d.Silent (left m d)) : Tracks m m' :=
  ⟨hrun, fun d booked => booked.silent (silent d)⟩

instance tracks_pure (a : α) : Tracks (pure a : Synthesis F (Labelled κ) α) (pure a) :=
  tracks_of_silent (fun _ => rfl) .refl

theorem Tracks.bind {f : α → Synthesis F (Labelled κ) β} {f' : α → Synthesis F κ β} (first : Tracks m m')
    (second : ∀ a, Tracks (f a) (f' a)) : Tracks (m >>= f) (m' >>= f') where
  run d := by
    have plain := first.run d
    cases hrun : m.run d with
    | ok a d₁ =>
        rw [hrun] at plain
        rw [run_bind_ok plain, run_bind_ok hrun]
        exact (second a).run d₁
    | error e d₁ =>
        rw [hrun] at plain
        rw [run_bind_error plain, run_bind_error hrun]
        rfl
  booked d booked := by
    have between := first.booked d booked
    unfold left at between ⊢
    cases hrun : m.run d with
    | ok a d₁ =>
        rw [hrun] at between
        rw [run_bind_ok hrun]
        exact (second a).booked d₁ between
    | error e d₁ =>
        rw [hrun] at between
        rw [run_bind_error hrun]
        exact between

instance tracks_bind (f : α → Synthesis F (Labelled κ) β) (f' : α → Synthesis F κ β) [Tracks m m']
    [∀ a, Tracks (f a) (f' a)] : Tracks (m >>= f) (m' >>= f') :=
  Tracks.bind inferInstance inferInstance

instance tracks_map (f : α → β) [Tracks m m'] : Tracks (f <$> m) (f <$> m') := by
  rw [map_eq_pure_bind, map_eq_pure_bind]
  infer_instance

instance tracks_ite (p : Prop) [Decidable p] (n : Synthesis F (Labelled κ) α) (n' : Synthesis F κ α) [Tracks m m']
    [Tracks n n'] : Tracks (if p then m else n) (if p then m' else n') := by
  split <;> infer_instance

/-- A step that looks at the draft first. -/
theorem tracks_get_bind {f : Draft F (Labelled κ) → Synthesis F (Labelled κ) α} {f' : Draft F κ → Synthesis F κ α}
    (h : ∀ d, Tracks (f d) (f' d.plain)) : Tracks (get >>= f) (get >>= f') where
  run d := (h d).run d
  booked d := (h d).booked d

instance tracks_fail (error : Nat → SynthesisError) :
    Tracks (fail error : Synthesis F (Labelled κ) α) (fail error) where
  run d := by
    show EStateM.Result.error (error d.plain.constraints.size) d.plain = .error (error d.constraints.size) d.plain
    rw [d.size_plain]
  booked d booked := booked

instance tracks_freshWire : Tracks (freshWire : Synthesis F (Labelled κ) Wire) freshWire :=
  tracks_of_silent (fun _ => rfl) fun _ => ⟨rfl, fun _ => rfl, rfl, rfl, rfl⟩

instance tracks_input (role : Role) (name : String) :
    Tracks (input role name : Synthesis F (Labelled κ) (LinearCombination F)) (input role name) :=
  tracks_of_silent (fun _ => by rw [run_input, run_input]; rfl) fun d => by
    rw [left_of_ok (run_input role name)]
    exact ⟨rfl, fun _ => rfl, rfl, rfl, rfl⟩

instance tracks_publicInput (name : String) :
    Tracks (publicInput name : Synthesis F (Labelled κ) (LinearCombination F)) (publicInput name) :=
  tracks_input .publicInput name

instance tracks_secretInput (name : String) :
    Tracks (secretInput name : Synthesis F (Labelled κ) (LinearCombination F)) (secretInput name) :=
  tracks_input .secretInput name

instance tracks_bindHint (name : String) (inputs : List Wire) (outputs : Nat) :
    Tracks (bindHint name inputs outputs : Synthesis F (Labelled κ) (List Wire)) (bindHint name inputs outputs) :=
  tracks_of_silent (fun d => by
    rw [run_bindHint, run_bindHint]
    simp [plainResult, Draft.plain, Draft.bind, Draft.freshMany, Draft.size]) fun d => by
    rw [left_of_ok (run_bindHint name inputs outputs)]
    exact ⟨rfl, fun _ => rfl, rfl, rfl, rfl⟩

instance tracks_emit (c : κ) : Tracks (emit (.other c) : Synthesis F (Labelled κ) Unit) (emit c) :=
  tracks_of_silent (fun _ => congrArg (EStateM.Result.ok ()) (Draft.plain_emit (.other c)).symm) fun _ =>
    .emit rfl fun _ => rfl

instance tracks_mapM (f : α → Synthesis F (Labelled κ) β) (f' : α → Synthesis F κ β) [∀ a, Tracks (f a) (f' a)]
    (xs : List α) : Tracks (xs.mapM f) (xs.mapM f') := by
  induction xs with
  | nil =>
      rw [List.mapM_nil, List.mapM_nil]
      infer_instance
  | cons x xs ih =>
      rw [List.mapM_cons, List.mapM_cons]
      infer_instance

instance tracks_forM (f : α → Synthesis F (Labelled κ) PUnit) (f' : α → Synthesis F κ PUnit)
    [∀ a, Tracks (f a) (f' a)] (xs : List α) : Tracks (xs.forM f) (xs.forM f') := by
  induction xs with
  | nil => exact tracks_pure _
  | cons x xs ih => exact tracks_bind (fun _ => xs.forM f) (fun _ => xs.forM f')

theorem run_labelled {a : α} {after : Draft F κ} (h : m'.run d.plain = .ok a after) :
    m'.labelled.run d = .ok a (d.follow after) := by
  unfold EStateM.run at h ⊢
  simp only [labelled, EStateM.run, h]

/-- What a form adds on its own is neither a pin nor a check. -/
instance tracks_labelled (m' : Synthesis F κ α) [Uniform m'] : Tracks m'.labelled m' := by
  have runs (d : Draft F (Labelled κ)) : ∃ a k cs, m'.run d.plain = .ok a (d.plain.addAll k cs) ∧
      m'.labelled.run d = .ok a (d.addAll k (cs.map .other)) := by
    obtain ⟨a, k, cs, adds⟩ := Uniform.adds (m := m') d.plain.size
    have plain := adds d.plain rfl
    exact ⟨a, k, cs, plain, Draft.follow_addAll k cs ▸ run_labelled plain⟩
  refine tracks_of_silent (fun d => ?_) fun d => ?_
  · obtain ⟨a, k, cs, plain, labelled⟩ := runs d
    rw [plain, labelled, plainResult, Draft.plain_addAll, List.map_map]
    simp [Function.comp_def, Labelled.plain]
  · obtain ⟨a, k, cs, -, labelled⟩ := runs d
    rw [left_of_ok labelled]
    exact Draft.silent_addAll k cs

end Rules

/-! ## Operations -/

instance tracks_pin (k : F.Elem) : Tracks (pin k : Synthesis F (Labelled κ) Wire) (pin k) where
  run d := by
    cases known : d.constantWire? k with
    | some wire =>
        rw [run_pin_of_known known, run_pin_of_known (d := d.plain) known]
        rfl
    | none =>
        rw [run_pin_of_unknown known, run_pin_of_unknown (d := d.plain) known]
        exact congrArg (EStateM.Result.ok _) (Draft.plain_remember k ⟨d.size⟩).symm
  booked d booked := by
    cases known : d.constantWire? k with
    | some wire =>
        rw [left_of_ok (run_pin_of_known known)]
        exact booked
    | none =>
        rw [left_of_ok (run_pin_of_unknown known)]
        exact booked.remember _ known

instance tracks_product (x y z : Factor κ) :
    Tracks (emit (product (κ := Labelled κ) x y z)) (emit (product x y z : κ)) :=
  tracks_emit _

variable [UniformForm F κ]

instance tracks_factor (x : LinearCombination F) :
    Tracks (factor x : Synthesis F (Labelled κ) (Factor κ)) (factor x : Synthesis F κ (Factor κ)) :=
  tracks_labelled _

instance tracks_materialize (x : LinearCombination F) :
    Tracks (materialize x : Synthesis F (Labelled κ) Wire) (materialize x) :=
  tracks_labelled _

instance tracks_enforceZero (x : LinearCombination F) :
    Tracks (enforceZero x : Synthesis F (Labelled κ) Unit) (enforceZero x) :=
  tracks_labelled _

instance tracks_toWire (x : LinearCombination F) : Tracks (toWire x : Synthesis F (Labelled κ) Wire) (toWire x) := by
  unfold toWire
  split <;> infer_instance

instance tracks_mul (a b : LinearCombination F) :
    Tracks (mul a b : Synthesis F (Labelled κ) (LinearCombination F)) (mul a b) := by
  unfold mul
  split
  · infer_instance
  · infer_instance
  · exact (tracks_factor a).bind fun x => (tracks_factor b).bind fun y => tracks_freshWire.bind fun wire =>
      (tracks_product (κ := κ) x y (wireFactor (κ := κ) wire)).bind fun _ => tracks_pure (ofWire wire)

instance tracks_assertEqual (a b : LinearCombination F) :
    Tracks (assertEqual a b : Synthesis F (Labelled κ) Unit) (assertEqual a b) := by
  unfold assertEqual
  dsimp only
  split <;> infer_instance

instance tracks_assertProduct (a b c : LinearCombination F) :
    Tracks (assertProduct a b c : Synthesis F (Labelled κ) Unit) (assertProduct a b c) := by
  unfold assertProduct
  split
  · infer_instance
  · infer_instance
  · exact (tracks_factor a).bind fun x => (tracks_factor b).bind fun y => (tracks_factor c).bind fun z =>
      tracks_product (κ := κ) x y z

theorem run_factor_labelled (x : LinearCombination F) (d : Draft F (Labelled κ)) :
    ∃ (y : Factor κ) (d₁ : Draft F (Labelled κ)), (factor (κ := Labelled κ) x).run d = .ok y d₁ ∧
      (factor (κ := κ) x).run d.plain = .ok y d₁.plain ∧ (d.Booked → d₁.Booked) := by
  obtain ⟨y, k, cs, adds⟩ := Uniform.adds (m := factor (κ := κ) x) d.plain.size
  have hrun : (factor (κ := Labelled κ) x).run d = .ok y _ := run_labelled (adds d.plain rfl)
  refine ⟨y, _, hrun, ?_, ?_⟩
  · have plain := (tracks_factor x).run d
    rw [hrun] at plain
    exact plain
  · have booked := (tracks_factor x).booked d
    rwa [left_of_ok hrun] at booked

theorem run_factor_ofWire (wire : Wire) (d : Draft F (Labelled κ)) :
    (factor (κ := Labelled κ) (ofWire wire)).run d = .ok (wireFactor (κ := κ) wire) d := by
  have hrun : (factor (κ := κ) (ofWire wire)).run d.plain = .ok (wireFactor (κ := κ) wire) d.plain := by
    rw [UniformForm.factor_ofWire]
    exact run_pure _
  have labelled := run_labelled hrun
  rw [Draft.follow_plain] at labelled
  exact labelled

instance tracks_constrainBoolean (x : LinearCombination F) :
    Tracks (constrainBoolean x : Synthesis F (Labelled κ) Unit) (constrainBoolean x) where
  run d := by
    obtain ⟨y, d₁, hrun, plain, -⟩ := run_factor_labelled x d
    cases hwire : asWire? y with
    | none =>
        rw [run_constrainBoolean_of_no_wire hrun hwire, run_constrainBoolean_of_no_wire plain hwire]
        exact congrArg (EStateM.Result.ok ()) (Draft.plain_emit (.check y)).symm
    | some wire =>
        by_cases marked : wire ∈ d₁.booleans
        · rw [run_constrainBoolean_of_marked hrun hwire marked, run_constrainBoolean_of_marked plain hwire marked]
          rfl
        · rw [run_constrainBoolean_of_new hrun hwire marked, run_constrainBoolean_of_new plain hwire marked]
          exact congrArg (fun d => EStateM.Result.ok () (d.mark wire)) (Draft.plain_emit (.check y)).symm
  booked d booked := by
    obtain ⟨y, d₁, hrun, -, between⟩ := run_factor_labelled x d
    have before := between booked
    cases hwire : asWire? y with
    | none =>
        rw [left_of_ok (run_constrainBoolean_of_no_wire hrun hwire)]
        exact before.silent (.emit rfl fun wire => by simp [ConstraintForm.boolean, hwire])
    | some wire =>
        by_cases marked : wire ∈ d₁.booleans
        · rw [left_of_ok (run_constrainBoolean_of_marked hrun hwire marked)]
          exact before
        · rw [left_of_ok (run_constrainBoolean_of_new hrun hwire marked)]
          exact before.mark hwire marked

instance tracks_assertBoolean (x : LinearCombination F) :
    Tracks (assertBoolean x : Synthesis F (Labelled κ) Unit) (assertBoolean x) := by
  unfold assertBoolean
  split
  · infer_instance
  · exact tracks_get_bind fun d => tracks_ite _ _ _

instance tracks_hint (name : String) (inputs : List (LinearCombination F)) (outputs : Nat) :
    Tracks (hint name inputs outputs : Synthesis F (Labelled κ) (List (LinearCombination F)))
      (hint name inputs outputs) := by
  unfold hint
  infer_instance

instance tracks_hintValue (name : String) (inputs : List (LinearCombination F)) :
    Tracks (hintValue name inputs : Synthesis F (Labelled κ) (LinearCombination F)) (hintValue name inputs) := by
  refine (tracks_hint name inputs 1).bind fun outputs => ?_
  split <;> infer_instance

omit [UniformForm F κ] in
instance tracks_constantInverse (k : F.Elem) :
    Tracks (constantInverse k : Synthesis F (Labelled κ) F.Elem) (constantInverse k) := by
  unfold constantInverse
  split <;> infer_instance

instance tracks_div (a b : LinearCombination F) :
    Tracks (div a b : Synthesis F (Labelled κ) (LinearCombination F)) (div a b) := by
  unfold div
  split <;> infer_instance

instance tracks_inverse (a : LinearCombination F) :
    Tracks (inverse a : Synthesis F (Labelled κ) (LinearCombination F)) (inverse a) := by
  unfold inverse
  split <;> infer_instance

instance tracks_selectOn (c a b : LinearCombination F) :
    Tracks (selectOn c a b : Synthesis F (Labelled κ) (LinearCombination F)) (selectOn c a b) := by
  unfold selectOn
  infer_instance

instance tracks_select (c a b : LinearCombination F) :
    Tracks (select c a b : Synthesis F (Labelled κ) (LinearCombination F)) (select c a b) := by
  unfold select
  split
  · infer_instance
  · exact tracks_get_bind fun d => tracks_ite _ _ _

instance tracks_digitWires (x : LinearCombination F) (width : Nat) :
    Tracks (digitWires x width : Synthesis F (Labelled κ) (List (LinearCombination F))) (digitWires x width) := by
  unfold digitWires
  infer_instance

instance tracks_toBits (x : LinearCombination F) (width : Nat) :
    Tracks (toBits x width : Synthesis F (Labelled κ) (List (LinearCombination F))) (toBits x width) := by
  unfold toBits
  split
  · infer_instance
  · split
    · infer_instance
    · refine tracks_get_bind fun d => @tracks_ite _ _ _ _ _ _ _ _ _ _ ?_ (tracks_digitWires x width)
      split <;> infer_instance

instance tracks_and (a b : LinearCombination F) :
    Tracks (and a b : Synthesis F (Labelled κ) (LinearCombination F)) (and a b) :=
  tracks_mul a b

instance tracks_or (a b : LinearCombination F) :
    Tracks (or a b : Synthesis F (Labelled κ) (LinearCombination F)) (or a b) := by
  unfold or
  infer_instance

instance tracks_xor (a b : LinearCombination F) :
    Tracks (xor a b : Synthesis F (Labelled κ) (LinearCombination F)) (xor a b) := by
  unfold xor
  infer_instance

instance tracks_isZero (x : LinearCombination F) :
    Tracks (isZero x : Synthesis F (Labelled κ) (LinearCombination F)) (isZero x) := by
  unfold isZero
  split <;> infer_instance

instance tracks_isEqual (a b : LinearCombination F) :
    Tracks (isEqual a b : Synthesis F (Labelled κ) (LinearCombination F)) (isEqual a b) :=
  tracks_isZero (a - b)

instance tracks_assertNonZero (x : LinearCombination F) :
    Tracks (assertNonZero x : Synthesis F (Labelled κ) Unit) (assertNonZero x) :=
  tracks_map _

instance tracks_lookup2 (b0 b1 t0 t1 t2 t3 : LinearCombination F) :
    Tracks (lookup2 b0 b1 t0 t1 t2 t3 : Synthesis F (Labelled κ) (LinearCombination F))
      (lookup2 b0 b1 t0 t1 t2 t3) := by
  unfold lookup2
  infer_instance

instance tracks_packChunks (name : String) (i : Nat) (pieces : List (List (LinearCombination F))) :
    Tracks (packChunks name i pieces : Synthesis F (Labelled κ) (List (LinearCombination F)))
      (packChunks name i pieces) := by
  induction pieces generalizing i with
  | nil => exact tracks_pure _
  | cons piece rest ih =>
      unfold packChunks
      infer_instance

instance tracks_packIntoInputs (name : String) (bits : List (LinearCombination F)) :
    Tracks (packIntoInputs name bits : Synthesis F (Labelled κ) (List (LinearCombination F)))
      (packIntoInputs name bits) :=
  tracks_packChunks name 0 _

instance tracks_packBits (bits : List (LinearCombination F)) :
    Tracks (packBits bits : Synthesis F (Labelled κ) (LinearCombination F)) (packBits bits) :=
  tracks_map _

theorem tracks_synthesize (registers : Registers F) (operation : Operation F) :
    Tracks (operation.synthesize registers : Synthesis F (Labelled κ) (List (LinearCombination F)))
      (operation.synthesize registers) := by
  cases operation <;> unfold Operation.synthesize <;> infer_instance

end Synthesis

end ArithCircuit
