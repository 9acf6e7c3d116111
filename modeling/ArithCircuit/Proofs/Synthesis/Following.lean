import ArithCircuit.Proofs.Synthesis.Rules
import ArithCircuit.Proofs.Synthesis.Stages

/-!
# Following an evaluation

A synthesis follows an evaluation if it leaves an honest assignment with the values evaluated, or,
where the evaluation stops, a task that the honest assignment before it does not pass. It is rejected
only where the evaluation stops as well.
-/

namespace ArithCircuit

variable {F : PrimeField} {κ : Type} [ToConstraint F κ] {registry : HintRegistry} {given : Supply F} {α α' β β' : Type}

/-! ## Stops -/

/-- Behind the stage the draft goes on with a task that fails: a hint that gives no values for its
outputs, or a constraint that does not hold. -/
inductive Stage.StopsIn (s : Stage registry given κ) (d : Draft F κ) : Stop → Prop
  | hint {b : HintBinding} {n : Nat} {error : HintError} (inputs : ∀ wire ∈ b.inputs, wire.index < s.draft.size)
      (outputs : b.outputs = Wire.span s.draft.size n) (position : b.position = s.draft.constraints.size)
      (asks : ∀ known, registry.lookup b.name b.inputs.length n = .ok known → 0 < n)
      (failed : registry.invoke b.name F.modulus (b.inputs.map fun wire => (s.value wire).val) n = .error error)
      (grows : ((s.draft.freshMany n).bind b).Grows d) : s.StopsIn d (.hint error)
  | violated {c : κ} (wires : ∀ wire ∈ (toConstraint c).wires, wire.index < s.draft.size)
      (fails : ¬ (toConstraint c).Holds s.value) (grows : (s.draft.emit c).Grows d) : s.StopsIn d .violated

variable {s s₁ : Stage registry given κ}

/-- What comes later does not matter. -/
theorem Stage.StopsIn.grow {d d' : Draft F κ} {stop : Stop} (h : s.StopsIn d stop) (grows : d.Grows d') :
    s.StopsIn d' stop := by
  cases h with
  | hint inputs outputs position asks failed grows₁ =>
      exact .hint inputs outputs position asks failed (grows₁.trans grows)
  | violated wires fails grows₁ => exact .violated wires fails (grows₁.trans grows)

/-! ## The rules -/

namespace Synthesis

variable {m : Synthesis F κ α} {e : Evaluation F β} {R R' : Stage registry given κ → α → β → Prop}
  {Q : Stage registry given κ → α' → β' → Prop}

inductive Follows (s : Stage registry given κ) (m : Synthesis F κ α) (e : Evaluation F β)
    (R : Stage registry given κ → α → β → Prop) : Prop
  | results {a : α} {b : β} (after : Stage registry given κ) (run : m.run s.draft = .ok a after.draft)
      (evaluates : e.run s.rest = .ok (b, after.rest)) (grows : s.Grows after) (related : R after a b) :
      Follows s m e R
  | stops {a : α} {d : Draft F κ} {stop : Stop} (last : Stage registry given κ) (run : m.run s.draft = .ok a d)
      (evaluates : e.run s.rest = .error stop) (stopsIn : last.StopsIn d stop) : Follows s m e R
  | rejects {error : SynthesisError} {d : Draft F κ} {stop : Stop} (run : m.run s.draft = .error error d)
      (evaluates : e.run s.rest = .error stop) : Follows s m e R

theorem follows_pure {a : α} {b : β} (related : R s a b) : Follows s (pure a) (pure b) R :=
  .results s rfl rfl (.refl s) related

theorem follows_of_run {a : α} {b : β} (after : Stage registry given κ) (run : m.run s.draft = .ok a after.draft)
    (rest : after.rest = s.rest) (grows : s.Grows after) (related : R after a b) : Follows s m (pure b) R :=
  .results after run (by rw [rest]; rfl) grows related

theorem follows_fail {error : Nat → SynthesisError} {stop : Stop} (evaluates : e.run s.rest = .error stop) :
    Follows s (fail error) e R :=
  .rejects rfl evaluates

/-- What comes behind a stop is not evaluated. -/
theorem run_bind_stop {e : Evaluation F β} {g : β → Evaluation F β'} {supply : Supply F} {stop : Stop}
    (evaluates : e.run supply = .error stop) : (e >>= g).run supply = .error stop := by
  rw [StateT.run_bind, evaluates]
  rfl

theorem Follows.bind {f : α → Synthesis F κ α'} {g : β → Evaluation F β'} [∀ a, Growing (f a)]
    (first : Follows s m e R)
    (second : ∀ s₁ a b, s.Grows s₁ → R s₁ a b → Follows s₁ (f a) (g b) Q) :
    Follows s (m >>= f) (e >>= g) Q := by
  cases first with
  | rejects run evaluates => exact .rejects (run_bind_error run) (run_bind_stop evaluates)
  | @stops a d stop last run evaluates stopsIn =>
      have stopped : (e >>= g).run s.rest = .error stop := run_bind_stop evaluates
      -- the synthesis does not see that the evaluation has stopped
      cases hrun : (f a).run d with
      | ok r d' => exact .stops last ((run_bind_ok run).trans hrun) stopped (stopsIn.grow (grows_of_ok hrun))
      | error error d' => exact .rejects ((run_bind_ok run).trans hrun) stopped
  | @results a b s₁ run evaluates grows related =>
      have goesOn : (e >>= g).run s.rest = (g b).run s₁.rest := by
        rw [StateT.run_bind, evaluates]
        rfl
      cases second s₁ a b grows related with
      | rejects run₁ evaluates₁ => exact .rejects ((run_bind_ok run).trans run₁) (goesOn.trans evaluates₁)
      | stops last run₁ evaluates₁ stopsIn =>
          exact .stops last ((run_bind_ok run).trans run₁) (goesOn.trans evaluates₁) stopsIn
      | results s₂ run₁ evaluates₁ grows₁ related₁ =>
          exact .results s₂ ((run_bind_ok run).trans run₁) (goesOn.trans evaluates₁) (grows.trans grows₁) related₁

theorem Follows.evaluated (h : Follows s m e R) :
    Follows s m e fun s₁ a b => e.run s.rest = .ok (b, s₁.rest) ∧ R s₁ a b := by
  cases h with
  | results after run evaluates grows related => exact .results after run evaluates grows ⟨evaluates, related⟩
  | stops last run evaluates stopsIn => exact .stops last run evaluates stopsIn
  | rejects run evaluates => exact .rejects run evaluates

/-- The synthesis begins with something that the evaluation does not need. -/
theorem Follows.before {f : α → Synthesis F κ α'} {g : Evaluation F β'} {b : β} [∀ a, Growing (f a)]
    (first : Follows s m (pure b) R)
    (second : ∀ s₁ a, s.Grows s₁ → R s₁ a b → Follows s₁ (f a) g Q) : Follows s (m >>= f) g Q := by
  rw [← pure_bind b fun _ => g]
  apply first.evaluated.bind
  rintro s₁ a b' grows ⟨evaluates, related⟩
  obtain ⟨rfl, -⟩ := Prod.mk.inj (Except.ok.inj evaluates)
  exact second s₁ a grows related

/-- The synthesis goes on with something that the evaluation does not need. -/
theorem Follows.after {f : α → Synthesis F κ α'} {Q : Stage registry given κ → α' → β → Prop}
    [∀ a, Growing (f a)] (first : Follows s m e R)
    (second : ∀ s₁ a b, s.Grows s₁ → R s₁ a b → Follows s₁ (f a) (pure b) Q) : Follows s (m >>= f) e Q := by
  rw [← bind_pure e]
  exact first.bind second

/-- Behind a stop the synthesis goes on in vain. -/
theorem Follows.stopped {f : α → Synthesis F κ α'} {stop : Stop} [∀ a, Growing (f a)]
    (first : Follows s m (throw stop : Evaluation F β) R) :
    Follows s (m >>= f) (throw stop : Evaluation F β') Q := by
  have stopped : (throw stop : Evaluation F β') = (throw stop : Evaluation F β) >>= fun _ => throw stop := rfl
  rw [stopped]
  apply first.evaluated.bind
  rintro s₁ a b _ ⟨evaluates, _⟩
  cases evaluates

theorem Follows.map {f : α → α'} {g : β → β'} (first : Follows s m e R)
    (hQ : ∀ s₁ a b, R s₁ a b → Q s₁ (f a) (g b)) : Follows s (f <$> m) (g <$> e) Q := by
  rw [map_eq_pure_bind, map_eq_pure_bind]
  exact first.bind fun s₁ a b _ related => follows_pure (hQ s₁ a b related)

theorem follows_get_bind {f : Draft F κ → Synthesis F κ α} (h : Follows s (f s.draft) e R) :
    Follows s (get >>= f) e R := by
  cases h with
  | results after run evaluates grows related => exact .results after run evaluates grows related
  | stops last run evaluates stopsIn => exact .stops last run evaluates stopsIn
  | rejects run evaluates => exact .rejects run evaluates

theorem follows_shares {m₁ m₂ : Synthesis F κ α} (folded : Follows s m₁ e R) (plain : Follows s m₂ e R) :
    Follows s (do if (← get).sharesConstants then m₁ else m₂) e R := by
  apply follows_get_bind
  split
  · exact folded
  · exact plain

/-- A constraint is for what it demands. -/
theorem follows_of_emit {a : α} {c : κ} {p : Prop} [Decidable p] (before : Stage registry given κ)
    (run : m.run s.draft = .ok a (before.draft.emit c)) (grows : s.Grows before) (rest : before.rest = s.rest)
    (wires : ∀ wire ∈ (toConstraint c).wires, wire.index < before.draft.size)
    (holds : (toConstraint c).Holds before.value ↔ p) :
    Follows s m (Evaluation.demand p) fun _ _ _ => True := by
  by_cases hp : p
  · have evaluates : (Evaluation.demand p).run s.rest = .ok ((), before.rest) := by
      rw [Evaluation.demand_of hp, rest]
      rfl
    exact .results (before.emit wires (holds.mpr hp)) run evaluates (grows.trans Stage.grows_emit) trivial
  · have evaluates : (Evaluation.demand p).run s.rest = .error .violated := by
      rw [Evaluation.demand_of_not hp]
      rfl
    exact .stops before run evaluates (.violated wires (fun h => hp (holds.mp h)) (.refl _))

end Synthesis

end ArithCircuit
