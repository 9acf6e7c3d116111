import ArithCircuit.Proofs.Linear.Scope
import ArithCircuit.Synthesis.Gadgets

/-!
# Drafts only grow

All that a synthesis does to a draft is a sequence of a few changes. None of them takes anything back:
wires, inputs, constraints and hints are added behind those that are there, and an error leaves what
was added before it.
-/

namespace ArithCircuit

variable {F : PrimeField} {κ : Type} {α β : Type}

/-! ## Growing lists -/

/-- The second list is the first one with elements of a kind added at its end. -/
def ExtendedBy (kind : α → Prop) (xs ys : List α) : Prop := ∃ new, ys = xs ++ new ∧ ∀ x ∈ new, kind x

namespace ExtendedBy

variable {kind kind' : α → Prop} {xs ys zs : List α}

theorem refl (kind : α → Prop) (xs : List α) : ExtendedBy kind xs xs := ⟨[], by simp⟩

theorem snoc {x : α} (h : kind x) : ExtendedBy kind xs (xs ++ [x]) := ⟨[x], by simp [h]⟩

theorem trans (h : ExtendedBy kind xs ys) (h' : ExtendedBy kind' ys zs) (weaker : ∀ x, kind' x → kind x) :
    ExtendedBy kind xs zs := by
  obtain ⟨new, rfl, hnew⟩ := h
  obtain ⟨new', rfl, hnew'⟩ := h'
  refine ⟨new ++ new', by simp, fun x hx => ?_⟩
  rcases List.mem_append.mp hx with hx | hx
  · exact hnew x hx
  · exact weaker x (hnew' x hx)

theorem length_le (h : ExtendedBy kind xs ys) : xs.length ≤ ys.length := by
  obtain ⟨new, rfl, -⟩ := h
  simp

theorem mem (h : ExtendedBy kind xs ys) {x : α} (hx : x ∈ xs) : x ∈ ys := by
  obtain ⟨new, rfl, -⟩ := h
  simp [hx]

end ExtendedBy

/-! ## Changes of a draft -/

/-- Allocates internal wires, one after the other. -/
def WireTable.allocateMany (table : WireTable) : Nat → WireTable
  | 0 => table
  | n + 1 => (table.allocate .internal).2.allocateMany n

namespace WireTable

variable {table : WireTable}

@[simp]
theorem publicInputs_allocateMany (n : Nat) : (table.allocateMany n).publicInputs = table.publicInputs := by
  induction n generalizing table with
  | zero => rfl
  | succ n ih => exact ih

@[simp]
theorem secretInputs_allocateMany (n : Nat) : (table.allocateMany n).secretInputs = table.secretInputs := by
  induction n generalizing table with
  | zero => rfl
  | succ n ih => exact ih

@[simp]
theorem size_allocate (role : Role) : (table.allocate role).2.size = table.size + 1 := Array.size_push _

@[simp]
theorem size_allocateMany (n : Nat) : (table.allocateMany n).size = table.size + n := by
  induction n generalizing table with
  | zero => rfl
  | succ n ih =>
      rw [allocateMany, ih, size_allocate]
      omega

end WireTable

namespace Draft

variable {draft : Draft F κ}

def size (draft : Draft F κ) : Nat := draft.wires.size

def emit (draft : Draft F κ) (c : κ) : Draft F κ :=
  { draft with constraints := draft.constraints.push c }

def fresh (draft : Draft F κ) : Draft F κ :=
  { draft with wires := (draft.wires.allocate .internal).2 }

def define (draft : Draft F κ) (c : κ) : Draft F κ := draft.fresh.emit c

def freshMany (draft : Draft F κ) (n : Nat) : Draft F κ :=
  { draft with wires := draft.wires.allocateMany n }

def bind (draft : Draft F κ) (b : HintBinding) : Draft F κ :=
  { draft with hints := draft.hints.push b }

def declare (draft : Draft F κ) (role : Role) (name : String) : Draft F κ :=
  { draft with wires := (draft.wires.allocateInput role name).2 }

def remember (draft : Draft F κ) (value : F.Elem) (wire : Wire) : Draft F κ :=
  if draft.sharesConstants then { draft with constants := (value, wire) :: draft.constants } else draft

def mark (draft : Draft F κ) (wire : Wire) : Draft F κ :=
  { draft with booleans := wire :: draft.booleans }

theorem constraints_remember (draft : Draft F κ) (value : F.Elem) (wire : Wire) :
    (draft.remember value wire).constraints = draft.constraints := by
  unfold remember
  split <;> rfl

theorem booleans_remember (draft : Draft F κ) (value : F.Elem) (wire : Wire) :
    (draft.remember value wire).booleans = draft.booleans := by
  unfold remember
  split <;> rfl

theorem size_remember (draft : Draft F κ) (value : F.Elem) (wire : Wire) :
    (draft.remember value wire).size = draft.size := by
  unfold remember
  split <;> rfl

theorem size_emit (draft : Draft F κ) (c : κ) : (draft.emit c).size = draft.size := rfl

theorem size_constraints_emit (draft : Draft F κ) (c : κ) :
    (draft.emit c).constraints.size = draft.constraints.size + 1 := Array.size_push c

@[simp]
theorem size_bind (b : HintBinding) : (draft.bind b).size = draft.size := rfl

@[simp]
theorem size_fresh : draft.fresh.size = draft.size + 1 := WireTable.size_allocate _

@[simp]
theorem size_define (c : κ) : (draft.define c).size = draft.size + 1 := size_fresh

@[simp]
theorem size_freshMany (n : Nat) : (draft.freshMany n).size = draft.size + n :=
  WireTable.size_allocateMany n

@[simp]
theorem size_declare (role : Role) (name : String) : (draft.declare role name).size = draft.size + 1 := by
  cases role <;> exact Array.size_push _

/-! ## Growing drafts -/

/-- New inputs and the outputs of new hints are new wires, and new hints stand behind the
constraints that are there. -/
structure Grows (before after : Draft F κ) : Prop where
  size_le : before.size ≤ after.size
  publicInputs : ExtendedBy (fun input => before.size ≤ input.wire.index)
    before.wires.publicInputs.toList after.wires.publicInputs.toList
  secretInputs : ExtendedBy (fun input => before.size ≤ input.wire.index)
    before.wires.secretInputs.toList after.wires.secretInputs.toList
  constraints : ExtendedBy (fun _ => True) before.constraints.toList after.constraints.toList
  hints : ExtendedBy
    (fun b => before.constraints.size ≤ b.position ∧ ∀ wire ∈ b.outputs, before.size ≤ wire.index)
    before.hints.toList after.hints.toList
  sharesConstants : after.sharesConstants = before.sharesConstants

namespace Grows

theorem refl (draft : Draft F κ) : draft.Grows draft :=
  ⟨Nat.le_refl _, .refl _ _, .refl _ _, .refl _ _, .refl _ _, rfl⟩

theorem constraints_le {before after : Draft F κ} (h : before.Grows after) :
    before.constraints.size ≤ after.constraints.size := by
  simpa using h.constraints.length_le

theorem trans {d d' d'' : Draft F κ} (h : d.Grows d') (h' : d'.Grows d'') : d.Grows d'' where
  size_le := Nat.le_trans h.size_le h'.size_le
  publicInputs := h.publicInputs.trans h'.publicInputs fun _ => Nat.le_trans h.size_le
  secretInputs := h.secretInputs.trans h'.secretInputs fun _ => Nat.le_trans h.size_le
  constraints := h.constraints.trans h'.constraints fun _ _ => trivial
  hints := h.hints.trans h'.hints fun _ hb =>
    ⟨Nat.le_trans h.constraints_le hb.1, fun wire hwire => Nat.le_trans h.size_le (hb.2 wire hwire)⟩
  sharesConstants := h'.sharesConstants.trans h.sharesConstants

theorem emit (c : κ) : draft.Grows (draft.emit c) :=
  { refl draft with
    constraints := by
      rw [Draft.emit, Array.toList_push]
      exact .snoc trivial }

theorem fresh : draft.Grows draft.fresh := { refl draft with size_le := by simp }

theorem define (c : κ) : draft.Grows (draft.define c) := fresh.trans (.emit c)

theorem freshMany (n : Nat) : draft.Grows (draft.freshMany n) :=
  { refl draft with
    size_le := by simp
    publicInputs := by
      rw [Draft.freshMany, WireTable.publicInputs_allocateMany]
      exact .refl _ _
    secretInputs := by
      rw [Draft.freshMany, WireTable.secretInputs_allocateMany]
      exact .refl _ _ }

theorem bind {n : Nat} {b : HintBinding} (hposition : draft.constraints.size ≤ b.position)
    (houtputs : b.outputs = Wire.span draft.size n) : draft.Grows ((draft.freshMany n).bind b) :=
  { freshMany n with
    hints := by
      rw [Draft.bind, Array.toList_push]
      exact .snoc ⟨hposition, fun wire hwire => (Wire.mem_span.mp (houtputs ▸ hwire)).1⟩ }

theorem declare (role : Role) (name : String) : draft.Grows (draft.declare role name) := by
  have size_le : draft.size ≤ (draft.declare role name).size := by simp
  cases role with
  | publicInput =>
      exact { refl draft with
        size_le
        publicInputs := by
          rw [show (draft.declare .publicInput name).wires.publicInputs
            = draft.wires.publicInputs.push ⟨⟨draft.size⟩, name⟩ from rfl, Array.toList_push]
          exact .snoc (Nat.le_refl _) }
  | secretInput =>
      exact { refl draft with
        size_le
        secretInputs := by
          rw [show (draft.declare .secretInput name).wires.secretInputs
            = draft.wires.secretInputs.push ⟨⟨draft.size⟩, name⟩ from rfl, Array.toList_push]
          exact .snoc (Nat.le_refl _) }
  | internal => exact { refl draft with size_le }

theorem remember (value : F.Elem) (wire : Wire) : draft.Grows (draft.remember value wire) := by
  unfold Draft.remember
  split
  · exact { refl draft with }
  · exact refl draft

theorem mark (wire : Wire) : draft.Grows (draft.mark wire) := { refl draft with }

end Grows

/-! ## Evolving drafts -/

variable [ConstraintForm F κ]

/-- The second draft comes from the first by the changes that syntheses make. A wire is marked only
together with the constraint that it is zero or one. -/
inductive Evolves : Draft F κ → Draft F κ → Prop
  | refl (d : Draft F κ) : Evolves d d
  | emit {d d' : Draft F κ} (c : κ) : Evolves d d' → Evolves d (d'.emit c)
  | fresh {d d' : Draft F κ} : Evolves d d' → Evolves d d'.fresh
  | declare {d d' : Draft F κ} (role : Role) (name : String) : Evolves d d' → Evolves d (d'.declare role name)
  | remember {d d' : Draft F κ} (value : F.Elem) (wire : Wire) : Evolves d d' → Evolves d (d'.remember value wire)
  | bind {d d' : Draft F κ} {n : Nat} {b : HintBinding} : b.position = d'.constraints.size →
      b.outputs = Wire.span d'.size n → Evolves d d' → Evolves d ((d'.freshMany n).bind b)
  | mark {d d' : Draft F κ} {y : ConstraintForm.Factor κ} {wire : Wire} : ConstraintForm.asWire? y = some wire →
      Evolves d d' → Evolves d ((d'.emit (ConstraintForm.boolean y)).mark wire)

namespace Evolves

variable {d d' d'' : Draft F κ}

theorem trans (h : d.Evolves d') (h' : d'.Evolves d'') : d.Evolves d'' := by
  induction h' with
  | refl => exact h
  | emit c _ ih => exact ih.emit c
  | fresh _ ih => exact ih.fresh
  | declare role name _ ih => exact ih.declare role name
  | remember value wire _ ih => exact ih.remember value wire
  | bind position outputs _ ih => exact ih.bind position outputs
  | mark hwire _ ih => exact ih.mark hwire

theorem grows (h : d.Evolves d') : d.Grows d' := by
  induction h with
  | refl => exact .refl d
  | emit c _ ih => exact ih.trans (.emit c)
  | fresh _ ih => exact ih.trans .fresh
  | declare role name _ ih => exact ih.trans (.declare role name)
  | remember value wire _ ih => exact ih.trans (.remember value wire)
  | bind position outputs _ ih => exact ih.trans (.bind (Nat.le_of_eq position.symm) outputs)
  | mark _ _ ih => exact (ih.trans (.emit _)).trans (.mark _)

end Evolves

end Draft

/-! ## Runs -/

namespace Synthesis

variable {d d' : Draft F κ} {m : Synthesis F κ α} {f : α → Synthesis F κ β}

theorem run_pure (a : α) : (pure a : Synthesis F κ α).run d = .ok a d := rfl

theorem run_bind_ok {a : α} (h : m.run d = .ok a d') : (m >>= f).run d = (f a).run d' := by
  rw [EStateM.run_bind, h]

theorem run_bind_error {e : SynthesisError} (h : m.run d = .error e d') :
    (m >>= f).run d = .error e d' := by
  rw [EStateM.run_bind, h]

theorem run_of_bind {b : β} (h : (m >>= f).run d = .ok b d') :
    ∃ a d₁, m.run d = .ok a d₁ ∧ (f a).run d₁ = .ok b d' := by
  cases hm : m.run d with
  | ok a d₁ => exact ⟨a, d₁, rfl, run_bind_ok hm ▸ h⟩
  | error e d₁ =>
      rw [run_bind_error hm] at h
      cases h

theorem run_get : (get : Synthesis F κ (Draft F κ)).run d = .ok d d := rfl

theorem run_emit (c : κ) : (emit c : Synthesis F κ Unit).run d = .ok () (d.emit c) := rfl

theorem run_freshWire : (freshWire : Synthesis F κ Wire).run d = .ok ⟨d.size⟩ d.fresh := rfl

theorem run_rememberConstant (d : Draft F κ) (value : F.Elem) (wire : Wire) :
    (rememberConstant value wire : Synthesis F κ Unit).run d = .ok () (d.remember value wire) := rfl

theorem run_markBoolean (d : Draft F κ) (wire : Wire) :
    (markBoolean wire : Synthesis F κ Unit).run d = .ok () (d.mark wire) := rfl

theorem run_input (role : Role) (name : String) :
    (input role name : Synthesis F κ (LinearCombination F)).run d
      = .ok (.ofWire ⟨d.size⟩) (d.declare role name) := by
  cases role <;> rfl

theorem run_freshWires (n : Nat) :
    (freshWires n : Synthesis F κ (List Wire)).run d = .ok (Wire.span d.size n) (d.freshMany n) := by
  induction n generalizing d with
  | zero => rfl
  | succ n ih =>
      rw [freshWires, run_bind_ok run_freshWire, run_bind_ok ih, run_pure, Draft.size_fresh]
      rfl

theorem run_bindHint (name : String) (inputs : List Wire) (outputs : Nat) :
    (bindHint name inputs outputs : Synthesis F κ (List Wire)).run d
      = .ok (Wire.span d.size outputs) ((d.freshMany outputs).bind {
          name := canonicalName name
          inputs
          outputs := Wire.span d.size outputs
          position := (d.freshMany outputs).constraints.size }) := by
  rw [bindHint, run_bind_ok (run_freshWires outputs)]
  rfl

/-! ## Growing syntheses -/

/-- The draft that a synthesis leaves, whether it fails or not. -/
def left (m : Synthesis F κ α) (draft : Draft F κ) : Draft F κ :=
  match m.run draft with
  | .ok _ after => after
  | .error _ after => after

theorem left_of_ok {a : α} (h : m.run d = .ok a d') : left m d = d' := by
  rw [left, h]

class Growing (m : Synthesis F κ α) : Prop where
  grows : ∀ draft : Draft F κ, draft.Grows (left m draft)

theorem grows_of_ok [Growing m] {a : α} (h : m.run d = .ok a d') : d.Grows d' := by
  simpa [left, h] using Growing.grows (m := m) d

theorem grows_of_error [Growing m] {e : SynthesisError} (h : m.run d = .error e d') : d.Grows d' := by
  simpa [left, h] using Growing.grows (m := m) d

instance growing_pure (a : α) : Growing (pure a : Synthesis F κ α) := ⟨fun d => .refl d⟩

/-! ## Evolving syntheses -/

section Evolving

variable [ConstraintForm F κ]

class Evolving (m : Synthesis F κ α) : Prop where
  evolves : ∀ draft : Draft F κ, draft.Evolves (left m draft)

theorem evolves_of_ok [Evolving m] {a : α} (h : m.run d = .ok a d') : d.Evolves d' := by
  simpa [left, h] using Evolving.evolves (m := m) d

theorem evolves_of_error [Evolving m] {e : SynthesisError} (h : m.run d = .error e d') : d.Evolves d' := by
  simpa [left, h] using Evolving.evolves (m := m) d

instance growing_of_evolving [Evolving m] : Growing m := ⟨fun d => (Evolving.evolves d).grows⟩

instance evolving_pure (a : α) : Evolving (pure a : Synthesis F κ α) := ⟨fun d => .refl d⟩

instance evolving_bind (m : Synthesis F κ α) (f : α → Synthesis F κ β) [Evolving m]
    [∀ a, Evolving (f a)] : Evolving (m >>= f) where
  evolves d := by
    unfold left
    cases h : m.run d with
    | ok a d' =>
        rw [run_bind_ok h]
        exact (evolves_of_ok h).trans (Evolving.evolves (m := f a) d')
    | error e d' =>
        rw [run_bind_error h]
        exact evolves_of_error h

instance evolving_map (f : α → β) (m : Synthesis F κ α) [Evolving m] : Evolving (f <$> m) := by
  rw [map_eq_pure_bind]
  infer_instance

instance evolving_ite (p : Prop) [Decidable p] (m m' : Synthesis F κ α) [Evolving m] [Evolving m'] :
    Evolving (if p then m else m') := by
  split <;> infer_instance

instance evolving_get : Evolving (get : Synthesis F κ (Draft F κ)) := ⟨fun d => .refl d⟩

instance evolving_fail (error : Nat → SynthesisError) : Evolving (fail error : Synthesis F κ α) :=
  ⟨fun d => .refl d⟩

instance evolving_emit (c : κ) : Evolving (emit c : Synthesis F κ Unit) := ⟨fun d => .emit c (.refl d)⟩

instance evolving_freshWire : Evolving (freshWire : Synthesis F κ Wire) := ⟨fun d => .fresh (.refl d)⟩

instance evolving_input (role : Role) (name : String) :
    Evolving (input role name : Synthesis F κ (LinearCombination F)) where
  evolves d := by
    rw [left_of_ok (run_input role name)]
    exact .declare role name (.refl d)

instance evolving_publicInput (name : String) :
    Evolving (publicInput name : Synthesis F κ (LinearCombination F)) :=
  evolving_input .publicInput name

instance evolving_secretInput (name : String) :
    Evolving (secretInput name : Synthesis F κ (LinearCombination F)) :=
  evolving_input .secretInput name

instance evolving_rememberConstant (value : F.Elem) (wire : Wire) :
    Evolving (rememberConstant value wire : Synthesis F κ Unit) :=
  ⟨fun d => .remember value wire (.refl d)⟩

instance evolving_bindHint (name : String) (inputs : List Wire) (outputs : Nat) :
    Evolving (bindHint name inputs outputs : Synthesis F κ (List Wire)) where
  evolves d := by
    rw [left_of_ok (run_bindHint name inputs outputs)]
    exact .bind rfl rfl (.refl d)

instance evolving_mapM (f : α → Synthesis F κ β) [∀ a, Evolving (f a)] (xs : List α) :
    Evolving (xs.mapM f) := by
  induction xs with
  | nil =>
      rw [List.mapM_nil]
      infer_instance
  | cons x xs ih =>
      rw [List.mapM_cons]
      infer_instance

instance evolving_forM (f : α → Synthesis F κ PUnit) [∀ a, Evolving (f a)] (xs : List α) :
    Evolving (xs.forM f) := by
  induction xs with
  | nil => exact evolving_pure _
  | cons x xs ih => exact evolving_bind (f x) fun _ => xs.forM f

end Evolving

end Synthesis

end ArithCircuit
