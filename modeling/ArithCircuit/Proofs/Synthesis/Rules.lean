import ArithCircuit.Proofs.Synthesis.Coherence

/-!
# Reasoning about syntheses

What a synthesis ensures is a fact about every assignment that its draft accepts in the end. Drafts
only grow, so such facts stay true while the synthesis goes on.
-/

namespace ArithCircuit

variable {F : PrimeField} {κ : Type} {α β : Type}

namespace Draft

variable {d d' : Draft F κ}

theorem Grows.below {x : LinearCombination F} (grows : d.Grows d') (h : x.Below d.size) : x.Below d'.size :=
  h.mono grows.size_le

variable [ToConstraint F κ]

/-- What every assignment that the draft accepts must be like. -/
def Forces (d : Draft F κ) (P : (Wire → F.Elem) → Prop) : Prop := ∀ value, d.Accepts value → P value

/-- The wire is one of the draft's, with a value like that. -/
structure HasWire (d : Draft F κ) (wire : Wire) (P : (Wire → F.Elem) → F.Elem → Prop) : Prop where
  lt : wire.index < d.size
  forces : ∀ value, d.Accepts value → P value (value wire)

/-- The expression is over wires of the draft, with a value like that. -/
structure Has (d : Draft F κ) (x : LinearCombination F) (P : (Wire → F.Elem) → F.Elem → Prop) : Prop where
  below : x.Below d.size
  forces : ∀ value, d.Accepts value → P value (x.evalWith value)

/-- The expressions are over wires of the draft, with values like that. -/
structure HasAll (d : Draft F κ) (xs : List (LinearCombination F))
    (P : (Wire → F.Elem) → List F.Elem → Prop) : Prop where
  below : ∀ x ∈ xs, x.Below d.size
  forces : ∀ value, d.Accepts value → P value (xs.map (·.evalWith value))

variable {wire : Wire} {x : LinearCombination F} {P P' : (Wire → F.Elem) → F.Elem → Prop}

theorem HasWire.grow (h : d.HasWire wire P) (grows : d.Grows d') : d'.HasWire wire P :=
  ⟨Nat.lt_of_lt_of_le h.lt grows.size_le, fun value accepts => h.forces value (grows.accepts accepts)⟩

theorem HasWire.has (h : d.HasWire wire P) : d.Has (.ofWire wire) P :=
  ⟨LinearCombination.below_ofWire.mpr h.lt, fun value accepts => by
    simpa using h.forces value accepts⟩

theorem Has.grow (h : d.Has x P) (grows : d.Grows d') : d'.Has x P :=
  ⟨grows.below h.below, fun value accepts => h.forces value (grows.accepts accepts)⟩

theorem Has.imp (h : d.Has x P) (weaker : ∀ value y, d.Accepts value → P value y → P' value y) : d.Has x P' :=
  ⟨h.below, fun value accepts => weaker value _ accepts (h.forces value accepts)⟩

end Draft

/-! ## The rule of composition -/

namespace Synthesis

variable [ToConstraint F κ] {m : Synthesis F κ α} {d : Draft F κ} {Q Q' : Draft F κ → α → Prop}

/-- The draft stays coherent, and a result is as said. -/
def Ensures (m : Synthesis F κ α) (d : Draft F κ) (Q : Draft F κ → α → Prop) : Prop :=
  match m.run d with
  | .ok a d' => d'.Coherent ∧ Q d' a
  | .error _ d' => d'.Coherent

theorem ensures_of_run {a : α} {d' : Draft F κ} (h : m.run d = .ok a d') (coherent : d'.Coherent)
    (hQ : Q d' a) : Ensures m d Q := by
  rw [Ensures, h]
  exact ⟨coherent, hQ⟩

theorem Ensures.of_run (ensures : Ensures m d Q) {a : α} {d' : Draft F κ} (h : m.run d = .ok a d') :
    d'.Coherent ∧ Q d' a := by
  rw [Ensures, h] at ensures
  exact ensures

theorem Ensures.of_run_error (ensures : Ensures m d Q) {e : SynthesisError} {d' : Draft F κ}
    (h : m.run d = .error e d') : d'.Coherent := by
  rw [Ensures, h] at ensures
  exact ensures

theorem Ensures.imp_of_run (ensures : Ensures m d Q)
    (weaker : ∀ d' a, m.run d = .ok a d' → d'.Coherent → Q d' a → Q' d' a) : Ensures m d Q' := by
  unfold Ensures at ensures ⊢
  cases h : m.run d with
  | ok a d' =>
      rw [h] at ensures
      exact ⟨ensures.1, weaker d' a h ensures.1 ensures.2⟩
  | error e d' =>
      rw [h] at ensures
      exact ensures

theorem Ensures.imp (ensures : Ensures m d Q)
    (weaker : ∀ d' a, d.Grows d' → d'.Coherent → Q d' a → Q' d' a) [Growing m] : Ensures m d Q' :=
  ensures.imp_of_run fun d' a h => weaker d' a (grows_of_ok h)

theorem ensures_pure {a : α} (coherent : d.Coherent) (hQ : Q d a) :
    Ensures (pure a : Synthesis F κ α) d Q :=
  ⟨coherent, hQ⟩

theorem ensures_fail {error : Nat → SynthesisError} (coherent : d.Coherent) :
    Ensures (fail error : Synthesis F κ α) d Q :=
  coherent

theorem Ensures.bind {R : Draft F κ → β → Prop} {f : α → Synthesis F κ β} [Growing m]
    (first : Ensures m d Q)
    (second : ∀ d' a, d.Grows d' → d'.Coherent → Q d' a → Ensures (f a) d' R) : Ensures (m >>= f) d R := by
  unfold Ensures at first ⊢
  cases h : m.run d with
  | ok a d' =>
      rw [h] at first
      rw [run_bind_ok h]
      exact second d' a (grows_of_ok h) first.1 first.2
  | error e d' =>
      rw [h] at first
      rw [run_bind_error h]
      exact first

theorem Ensures.map {R : Draft F κ → β → Prop} {f : α → β} [Growing m] (first : Ensures m d Q)
    (hR : ∀ d' a, d.Grows d' → Q d' a → R d' (f a)) : Ensures (f <$> m) d R := by
  rw [map_eq_pure_bind]
  exact first.bind fun d' a grows coherent hQ => ensures_pure coherent (hR d' a grows hQ)

/-- A step that looks at the draft first. -/
theorem ensures_get_bind {f : Draft F κ → Synthesis F κ α} (h : Ensures (f d) d Q) :
    Ensures (get >>= f) d Q :=
  h

end Synthesis

end ArithCircuit
