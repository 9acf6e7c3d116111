import ArithCircuit.Proofs.Linear.Canonical
import ArithCircuit.Proofs.Synthesis.Growth

/-!
# What is emitted

All constraints come from a few constructors of the form, applied to canonical expressions. So a
property of what these make is one of every constraint of a draft.
-/

namespace ArithCircuit

variable {F : PrimeField} {κ : Type} {α β : Type}

namespace Synthesis

/-! ## The rule of composition -/

/-- The synthesis adds constraints with a property alone, and a result is as said. -/
def Makes (P : κ → Prop) (m : Synthesis F κ α) (Q : α → Prop) : Prop :=
  ∀ d : Draft F κ, (∀ c ∈ d.constraints.toList, P c) →
    (∀ c ∈ (left m d).constraints.toList, P c) ∧ ∀ a d', m.run d = .ok a d' → Q a

section Rules

variable {P : κ → Prop} {Q : α → Prop} {R : β → Prop} {m : Synthesis F κ α} {f : α → Synthesis F κ β}

/-- A synthesis that leaves the constraints as they are. -/
theorem makes_of_run {result : Draft F κ → α} {after : Draft F κ → Draft F κ}
    (run : ∀ d, m.run d = .ok (result d) (after d)) (same : ∀ d, (after d).constraints = d.constraints)
    (hQ : ∀ d, Q (result d)) : Makes P m Q := by
  intro d hd
  rw [left_of_ok (run d), same]
  refine ⟨hd, fun a d' ran => ?_⟩
  cases (run d).symm.trans ran
  exact hQ d

theorem makes_pure {a : α} (hQ : Q a) : Makes P (pure a : Synthesis F κ α) Q :=
  makes_of_run (fun _ => run_pure a) (fun _ => rfl) fun _ => hQ

theorem makes_fail {error : Nat → SynthesisError} : Makes P (fail error : Synthesis F κ α) Q :=
  fun _ hd => ⟨hd, fun _ _ ran => by cases ran⟩

theorem Makes.bind (first : Makes P m Q) (second : ∀ a, Q a → Makes P (f a) R) : Makes P (m >>= f) R := by
  intro d hd
  obtain ⟨kept, result⟩ := first d hd
  unfold left at kept ⊢
  cases h : m.run d with
  | ok a d' =>
      rw [h] at kept
      rw [run_bind_ok h]
      exact second a (result a d' h) d' kept
  | error e d' =>
      rw [h] at kept
      rw [run_bind_error h]
      exact ⟨kept, fun _ _ ran => by cases ran⟩

theorem Makes.map {f : α → β} (first : Makes P m Q) (hR : ∀ a, Q a → R (f a)) : Makes P (f <$> m) R := by
  rw [map_eq_pure_bind]
  exact first.bind fun a hQ => makes_pure (hR a hQ)

/-- A step that looks at the draft first. -/
theorem makes_get_bind {f : Draft F κ → Synthesis F κ α} (h : ∀ d, Makes P (f d) Q) :
    Makes P (get >>= f) Q :=
  Makes.bind (Q := fun _ => True) (makes_of_run (fun _ => run_get) (fun _ => rfl) fun _ => trivial) fun d _ => h d

theorem makes_emit {c : κ} (h : P c) : Makes P (emit c : Synthesis F κ Unit) fun _ => True := by
  intro d hd
  rw [left_of_ok (run_emit c)]
  refine ⟨fun c' hc' => ?_, fun _ _ _ => trivial⟩
  rw [Draft.emit, Array.toList_push] at hc'
  rcases List.mem_append.mp hc' with old | new
  · exact hd c' old
  · exact List.mem_singleton.mp new ▸ h

theorem makes_freshWire : Makes P (freshWire : Synthesis F κ Wire) fun _ => True :=
  makes_of_run (fun _ => run_freshWire) (fun _ => rfl) fun _ => trivial

theorem makes_input (role : Role) (name : String) :
    Makes P (input role name : Synthesis F κ (LinearCombination F)) LinearCombination.Canonical :=
  makes_of_run (fun _ => run_input role name) (fun _ => rfl) fun _ => LinearCombination.canonical_ofWire _

theorem makes_rememberConstant (value : F.Elem) (wire : Wire) :
    Makes P (rememberConstant value wire : Synthesis F κ Unit) fun _ => True :=
  makes_of_run (fun d => run_rememberConstant d value wire) (fun d => d.constraints_remember value wire)
    fun _ => trivial

theorem makes_markBoolean (wire : Wire) : Makes P (markBoolean wire : Synthesis F κ Unit) fun _ => True :=
  makes_of_run (fun d => run_markBoolean d wire) (fun _ => rfl) fun _ => trivial

theorem makes_bindHint (name : String) (inputs : List Wire) (outputs : Nat) :
    Makes P (bindHint name inputs outputs : Synthesis F κ (List Wire)) fun _ => True :=
  makes_of_run (fun _ => run_bindHint name inputs outputs) (fun _ => rfl) fun _ => trivial

theorem makes_mapM {f : β → Synthesis F κ α} {xs : List β} (h : ∀ x ∈ xs, Makes P (f x) Q) :
    Makes P (xs.mapM f) fun _ => True := by
  induction xs with
  | nil =>
      rw [List.mapM_nil]
      exact makes_pure trivial
  | cons x xs ih =>
      rw [List.mapM_cons]
      exact (h x List.mem_cons_self).bind fun _ _ =>
        (ih fun y hy => h y (List.mem_cons_of_mem _ hy)).bind fun _ _ => makes_pure trivial

theorem makes_forM {f : β → Synthesis F κ PUnit} {xs : List β} (h : ∀ x ∈ xs, Makes P (f x) fun _ => True) :
    Makes P (xs.forM f) fun _ => True := by
  induction xs with
  | nil => exact makes_pure trivial
  | cons x xs ih =>
      exact (h x List.mem_cons_self).bind fun _ _ => ih fun y hy => h y (List.mem_cons_of_mem _ hy)

end Rules

end Synthesis

/-! ## Forms -/

open ConstraintForm (Factor pinned product boolean wireFactor asWire? factor materialize enforceZero)

/-- A property of the constraints that a form makes of canonical expressions, with what its factors
have to do with these. -/
structure Emission (F : PrimeField) (κ : Type) [ConstraintForm F κ] where
  Meets : κ → Prop
  Stands : LinearCombination F → Factor κ → Prop
  pinned : ∀ wire value, Meets (pinned wire value)
  product : ∀ {a b c : LinearCombination F} {x y z : Factor κ}, a.asConstant? = none → b.asConstant? = none →
    Stands a x → Stands b y → Stands c z → Meets (product x y z)
  boolean : ∀ {a : LinearCombination F} {x : Factor κ}, a.asConstant? = none → Stands a x → Meets (boolean x)
  wireFactor : ∀ wire, Stands (.ofWire wire) (wireFactor (κ := κ) wire)
  factor : ∀ {x : LinearCombination F}, x.Canonical →
    (factor x : Synthesis F κ (Factor κ)).Makes Meets (Stands x)
  materialize : ∀ {x : LinearCombination F}, x.Canonical →
    (materialize x : Synthesis F κ Wire).Makes Meets fun _ => True
  enforceZero : ∀ {x : LinearCombination F}, x.Canonical → x.asConstant? = none →
    (enforceZero x : Synthesis F κ Unit).Makes Meets fun _ => True

namespace Emission

open LinearCombination (ofConstant ofWire Canonical canonical_ofWire canonical_ofConstant canonical_ofBits canonical_zero)

open Synthesis

variable [ConstraintForm F κ] (e : Emission F κ) {a b c x : LinearCombination F}

/-! ## Wires, products and assertions -/

theorem pin (value : F.Elem) : (Synthesis.pin value : Synthesis F κ Wire).Makes e.Meets fun _ => True := by
  refine makes_get_bind fun d => ?_
  cases d.constantWire? value with
  | some wire => exact makes_pure trivial
  | none =>
      exact makes_freshWire.bind fun wire _ => (makes_emit (e.pinned wire value)).bind fun _ _ =>
        (makes_rememberConstant value wire).bind fun _ _ => makes_pure trivial

theorem toWire (hx : x.Canonical) : (Synthesis.toWire x : Synthesis F κ Wire).Makes e.Meets fun _ => True := by
  unfold Synthesis.toWire
  split
  · exact makes_pure trivial
  · exact e.pin _
  · exact e.materialize hx

theorem mul (prime : F.modulus.Prime) (ha : a.Canonical) (hb : b.Canonical) :
    (Synthesis.mul a b : Synthesis F κ (LinearCombination F)).Makes e.Meets Canonical := by
  unfold Synthesis.mul
  split
  · exact makes_pure (hb.scale prime _)
  · exact makes_pure (ha.scale prime _)
  · rename_i aNone bNone
    exact (e.factor ha).bind fun x hx => (e.factor hb).bind fun y hy => makes_freshWire.bind fun wire _ =>
      (makes_emit (e.product aNone bNone hx hy (e.wireFactor wire))).bind fun _ _ =>
        makes_pure (canonical_ofWire wire)

theorem assertEqual (ha : a.Canonical) :
    (Synthesis.assertEqual a b : Synthesis F κ Unit).Makes e.Meets fun _ => True := by
  unfold Synthesis.assertEqual
  dsimp only
  split
  · split
    · exact makes_fail
    · exact makes_pure trivial
  · rename_i notConstant
    exact e.enforceZero (ha.sub b) notConstant

theorem assertProduct (prime : F.modulus.Prime) (ha : a.Canonical) (hb : b.Canonical) (hc : c.Canonical) :
    (Synthesis.assertProduct a b c : Synthesis F κ Unit).Makes e.Meets fun _ => True := by
  unfold Synthesis.assertProduct
  split
  · exact e.assertEqual (hb.scale prime _)
  · exact e.assertEqual (ha.scale prime _)
  · rename_i aNone bNone
    exact (e.factor ha).bind fun x hx => (e.factor hb).bind fun y hy => (e.factor hc).bind fun z hz =>
      makes_emit (e.product aNone bNone hx hy hz)

theorem constrainBoolean (hx : x.Canonical) (notConstant : x.asConstant? = none) :
    (Synthesis.constrainBoolean x : Synthesis F κ Unit).Makes e.Meets fun _ => True := by
  refine (e.factor hx).bind fun y hy => ?_
  split
  · refine makes_get_bind fun d => ?_
    split
    · exact (makes_markBoolean _).bind fun _ _ => makes_emit (e.boolean notConstant hy)
    · exact makes_pure trivial
  · exact makes_emit (e.boolean notConstant hy)

theorem assertBoolean (hx : x.Canonical) :
    (Synthesis.assertBoolean x : Synthesis F κ Unit).Makes e.Meets fun _ => True := by
  unfold Synthesis.assertBoolean
  split
  · rename_i notConstant
    exact e.constrainBoolean hx notConstant
  · refine makes_get_bind fun d => ?_
    split
    · split
      · exact makes_fail
      · exact makes_pure trivial
    · exact (e.pin _).bind fun wire _ => e.constrainBoolean (canonical_ofWire wire) rfl

/-! ## Hints -/

theorem hint (name : String) {inputs : List (LinearCombination F)} (hinputs : ∀ x ∈ inputs, x.Canonical)
    (outputs : Nat) : (Synthesis.hint name inputs outputs : Synthesis F κ (List (LinearCombination F))).Makes
      e.Meets fun xs => ∀ x ∈ xs, x.Canonical :=
  (makes_mapM fun x hx => e.toWire (hinputs x hx)).bind fun wires _ =>
    (makes_bindHint name wires outputs).bind fun _ _ =>
      makes_pure (List.forall_mem_map.mpr fun wire _ => canonical_ofWire wire)

theorem hintValue (name : String) {inputs : List (LinearCombination F)} (hinputs : ∀ x ∈ inputs, x.Canonical) :
    (Synthesis.hintValue name inputs : Synthesis F κ (LinearCombination F)).Makes e.Meets Canonical := by
  refine (e.hint name hinputs 1).bind fun outputs houtputs => ?_
  split
  · rename_i output last
    exact makes_pure (houtputs output (List.mem_of_getLast? last))
  · exact makes_fail

/-! ## Quotients, choices and digits -/

theorem constantInverse (value : F.Elem) :
    (Synthesis.constantInverse value : Synthesis F κ F.Elem).Makes e.Meets fun _ => True := by
  unfold Synthesis.constantInverse
  split
  · exact makes_pure trivial
  · exact makes_fail

theorem div (prime : F.modulus.Prime) (ha : a.Canonical) (hb : b.Canonical) :
    (Synthesis.div a b : Synthesis F κ (LinearCombination F)).Makes e.Meets Canonical := by
  unfold Synthesis.div
  split
  · exact (e.constantInverse _).bind fun k _ => makes_pure (ha.scale prime k)
  · refine ((e.toWire ha).map fun wire _ => canonical_ofWire wire).bind fun a ha => ?_
    refine ((e.toWire hb).map fun wire _ => canonical_ofWire wire).bind fun b hb => ?_
    exact (e.hintValue Hint.divName (by simp [ha, hb])).bind fun quotient hquotient =>
      (e.assertProduct prime hb hquotient ha).bind fun _ _ => makes_pure hquotient

theorem inverse (prime : F.modulus.Prime) (ha : a.Canonical) :
    (Synthesis.inverse a : Synthesis F κ (LinearCombination F)).Makes e.Meets Canonical := by
  unfold Synthesis.inverse
  split
  · exact (e.constantInverse _).bind fun k _ => makes_pure (canonical_ofConstant k)
  · refine ((e.toWire ha).map fun wire _ => canonical_ofWire wire).bind fun a ha => ?_
    exact (e.hintValue Hint.invertName (by simp [ha])).bind fun y hy =>
      (e.assertProduct prime ha hy (canonical_ofConstant 1)).bind fun _ _ => makes_pure hy

theorem selectOn (prime : F.modulus.Prime) (hc : c.Canonical) (ha : a.Canonical) :
    (Synthesis.selectOn c a b : Synthesis F κ (LinearCombination F)).Makes e.Meets Canonical :=
  (e.assertBoolean hc).bind fun _ _ => (e.mul prime hc (ha.sub b)).bind fun _ hy => makes_pure (hy.add b)

theorem select (prime : F.modulus.Prime) (hc : c.Canonical) (ha : a.Canonical) (hb : b.Canonical) :
    (Synthesis.select c a b : Synthesis F κ (LinearCombination F)).Makes e.Meets Canonical := by
  unfold Synthesis.select
  split
  · exact e.selectOn prime hc ha
  · refine makes_get_bind fun d => ?_
    split
    · split
      · exact makes_pure ha
      · split
        · exact makes_pure hb
        · exact makes_fail
    · exact (e.pin _).bind fun wire _ => e.selectOn prime (canonical_ofWire wire) ha

theorem digitWires (hx : x.Canonical) (width : Nat) :
    (Synthesis.digitWires x width : Synthesis F κ (List (LinearCombination F))).Makes e.Meets
      fun xs => ∀ x ∈ xs, x.Canonical :=
  (e.hint Hint.bitsName (by simpa using hx) width).bind fun digits hdigits =>
    (makes_forM fun digit hdigit => e.assertBoolean (hdigits digit hdigit)).bind fun _ _ =>
      (e.assertEqual (canonical_ofBits digits)).bind fun _ _ => makes_pure hdigits

theorem toBits (hx : x.Canonical) (width : Nat) :
    (Synthesis.toBits x width : Synthesis F κ (List (LinearCombination F))).Makes e.Meets
      fun xs => ∀ x ∈ xs, x.Canonical := by
  unfold Synthesis.toBits
  split
  · exact makes_fail
  · split
    · exact e.digitWires hx width
    · refine makes_get_bind fun d => ?_
      split
      · split
        · exact makes_pure (List.forall_mem_map.mpr fun _ _ => canonical_ofConstant _)
        · exact makes_fail
      · exact e.digitWires hx width

/-! ## Gadgets -/

theorem or (prime : F.modulus.Prime) (ha : a.Canonical) (hb : b.Canonical) :
    (Synthesis.or a b : Synthesis F κ (LinearCombination F)).Makes e.Meets Canonical :=
  (e.mul prime ha hb).bind fun both _ => makes_pure ((ha.add b).sub both)

theorem xor (prime : F.modulus.Prime) (ha : a.Canonical) (hb : b.Canonical) :
    (Synthesis.xor a b : Synthesis F κ (LinearCombination F)).Makes e.Meets Canonical :=
  (e.mul prime ha hb).bind fun both _ => makes_pure ((ha.add b).subScaled (1 + 1) both)

theorem isZero (prime : F.modulus.Prime) (hx : x.Canonical) :
    (Synthesis.isZero x : Synthesis F κ (LinearCombination F)).Makes e.Meets Canonical := by
  unfold Synthesis.isZero
  split
  · exact makes_pure (canonical_ofConstant _)
  · refine (e.hintValue Hint.inverseOrZeroName (by simpa using hx)).bind fun inverse hinverse => ?_
    refine (e.mul prime hx hinverse).bind fun product _ => ?_
    have flag := (canonical_ofConstant 1).sub product
    exact (e.assertProduct prime hx flag canonical_zero).bind fun _ _ => makes_pure flag

theorem lookup2 (prime : F.modulus.Prime) {b0 b1 t0 t1 t2 t3 : LinearCombination F} (hb0 : b0.Canonical)
    (hb1 : b1.Canonical) (ht0 : t0.Canonical) (ht1 : t1.Canonical) (ht2 : t2.Canonical) (ht3 : t3.Canonical) :
    (Synthesis.lookup2 b0 b1 t0 t1 t2 t3 : Synthesis F κ (LinearCombination F)).Makes e.Meets Canonical :=
  (e.select prime hb0 ht1 ht0).bind fun _ hlow => (e.select prime hb0 ht3 ht2).bind fun _ hhigh =>
    e.select prime hb1 hhigh hlow

theorem packChunks (name : String) (i : Nat) (bits : List (List (LinearCombination F))) :
    (Synthesis.packChunks name i bits : Synthesis F κ (List (LinearCombination F))).Makes e.Meets
      fun xs => ∀ x ∈ xs, x.Canonical := by
  induction bits generalizing i with
  | nil => exact makes_pure (by simp)
  | cons chunk rest ih =>
      exact (makes_input .publicInput _).bind fun packed hpacked =>
        (e.assertEqual (canonical_ofBits chunk)).bind fun _ _ => (ih (i + 1)).bind fun xs hxs =>
          makes_pure (by simpa using ⟨hpacked, hxs⟩)

theorem packBits (bits : List (LinearCombination F)) :
    (Synthesis.packBits bits : Synthesis F κ (LinearCombination F)).Makes e.Meets Canonical :=
  (e.toWire (canonical_ofBits _)).map fun wire _ => canonical_ofWire wire

end Emission

end ArithCircuit
