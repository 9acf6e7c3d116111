import ArithCircuit.Proofs.Synthesis.Additions

/-!
# What a synthesis declares

The lists of inputs change by declarations alone, and these come in the order in which they are made.
-/

namespace ArithCircuit

variable {F : PrimeField} {κ α β : Type}

namespace Draft

variable {d d' d'' : Draft F κ} {publicNames publicNames' secretNames secretNames' : List String}

/-- Between the drafts inputs of these names were declared, in order, and no hint was bound. -/
structure Declares (d d' : Draft F κ) (publicNames secretNames : List String) : Prop where
  publicInputs : d'.wires.publicInputs.toList.map Input.name
    = d.wires.publicInputs.toList.map Input.name ++ publicNames
  secretInputs : d'.wires.secretInputs.toList.map Input.name
    = d.wires.secretInputs.toList.map Input.name ++ secretNames
  hints : d'.hints = d.hints

theorem Declares.refl (d : Draft F κ) : d.Declares d [] [] := ⟨by simp, by simp, rfl⟩

theorem Declares.trans (h : d.Declares d' publicNames secretNames)
    (h' : d'.Declares d'' publicNames' secretNames') :
    d.Declares d'' (publicNames ++ publicNames') (secretNames ++ secretNames') where
  publicInputs := by rw [h'.publicInputs, h.publicInputs, List.append_assoc]
  secretInputs := by rw [h'.secretInputs, h.secretInputs, List.append_assoc]
  hints := h'.hints.trans h.hints

theorem declares_addAll (k : Nat) (cs : List κ) : d.Declares (d.addAll k cs) [] [] :=
  ⟨by simp [addAll, freshMany], by simp [addAll, freshMany], rfl⟩

theorem declares_remember (k : F.Elem) (wire : Wire) : d.Declares (d.remember k wire) [] [] := by
  unfold remember
  split <;> exact ⟨by simp, by simp, rfl⟩

end Draft

namespace Synthesis

/-- A result comes with declarations of inputs of these names and no hint. -/
def Declares (m : Synthesis F κ α) (publicNames secretNames : List String) : Prop :=
  ∀ d a d', m.run d = .ok a d' → d.Declares d' publicNames secretNames

section Rules

variable {m : Synthesis F κ α} {publicNames publicNames' secretNames secretNames' : List String}

theorem declares_uniform (m : Synthesis F κ α) [Uniform m] : m.Declares [] [] := by
  intro d a d' hrun
  obtain ⟨a', k, cs, adds⟩ := Uniform.adds (m := m) d.size
  obtain ⟨-, rfl⟩ := EStateM.Result.ok.inj ((adds d rfl).symm.trans hrun)
  exact Draft.declares_addAll k cs

theorem declares_fail (error : Nat → SynthesisError) : (fail error : Synthesis F κ α).Declares [] [] :=
  fun _ _ _ hrun => by cases hrun

theorem declares_rememberConstant (k : F.Elem) (wire : Wire) :
    (rememberConstant k wire : Synthesis F κ Unit).Declares [] [] := by
  intro d a d' hrun
  obtain ⟨-, rfl⟩ := EStateM.Result.ok.inj ((run_rememberConstant d k wire).symm.trans hrun)
  exact Draft.declares_remember k wire

theorem declares_markBoolean (wire : Wire) : (markBoolean wire : Synthesis F κ Unit).Declares [] [] := by
  intro d a d' hrun
  obtain ⟨-, rfl⟩ := EStateM.Result.ok.inj ((run_markBoolean d wire).symm.trans hrun)
  exact ⟨by simp [Draft.mark], by simp [Draft.mark], rfl⟩

theorem declares_publicInput (name : String) :
    (publicInput name : Synthesis F κ (LinearCombination F)).Declares [name] [] := by
  intro d a d' hrun
  obtain ⟨-, rfl⟩ := EStateM.Result.ok.inj ((run_input .publicInput name).symm.trans hrun)
  exact ⟨by simp [Draft.declare, WireTable.allocateInput, WireTable.allocate],
    by simp [Draft.declare, WireTable.allocateInput, WireTable.allocate], rfl⟩

theorem declares_secretInput (name : String) :
    (secretInput name : Synthesis F κ (LinearCombination F)).Declares [] [name] := by
  intro d a d' hrun
  obtain ⟨-, rfl⟩ := EStateM.Result.ok.inj ((run_input .secretInput name).symm.trans hrun)
  exact ⟨by simp [Draft.declare, WireTable.allocateInput, WireTable.allocate],
    by simp [Draft.declare, WireTable.allocateInput, WireTable.allocate], rfl⟩

theorem Declares.bind {f : α → Synthesis F κ β} (first : m.Declares publicNames secretNames)
    (second : ∀ a, (f a).Declares publicNames' secretNames') :
    (m >>= f).Declares (publicNames ++ publicNames') (secretNames ++ secretNames') := by
  intro d b d' hrun
  obtain ⟨a, d₁, hfirst, hsecond⟩ := run_of_bind hrun
  exact (first d a d₁ hfirst).trans (second a d₁ b d' hsecond)

theorem Declares.bind_pure (f : α → β) (first : m.Declares publicNames secretNames) :
    (m >>= fun a => pure (f a)).Declares publicNames secretNames := by
  simpa using first.bind fun a => declares_uniform (pure (f a))

/-- A step that looks at the draft first. -/
theorem declares_get_bind {f : Draft F κ → Synthesis F κ α} (h : ∀ d, (f d).Declares publicNames secretNames) :
    (get >>= f).Declares publicNames secretNames :=
  fun d => h d d

end Rules

/-! ## Operations -/

variable [ConstraintForm F κ] [UniformForm F κ] {a b x : LinearCombination F}

omit [UniformForm F κ] in
theorem declares_pin (k : F.Elem) : (pin k : Synthesis F κ Wire).Declares [] [] := by
  unfold pin
  apply declares_get_bind
  intro d
  split
  · exact declares_uniform _
  · exact (declares_uniform freshWire).bind fun wire => (declares_uniform (emit _)).bind fun _ =>
      (declares_rememberConstant k wire).bind fun _ => declares_uniform (pure wire)

theorem declares_assertEqual (a b : LinearCombination F) :
    (assertEqual a b : Synthesis F κ Unit).Declares [] [] := by
  cases hk : (a - b).asConstant? with
  | none =>
      rw [assertEqual_of_not_constant hk]
      exact declares_uniform _
  | some k =>
      rw [assertEqual_of_constant hk]
      split
      · exact declares_fail _
      · exact declares_uniform _

theorem declares_constrainBoolean (x : LinearCombination F) :
    (constrainBoolean x : Synthesis F κ Unit).Declares [] [] := by
  refine (declares_uniform (ConstraintForm.factor x)).bind fun y => ?_
  split
  · refine declares_get_bind fun d => ?_
    split
    · exact (declares_markBoolean _).bind fun _ => declares_uniform (emit _)
    · exact declares_uniform _
  · exact declares_uniform (emit _)

theorem declares_assertBoolean (x : LinearCombination F) :
    (assertBoolean x : Synthesis F κ Unit).Declares [] [] := by
  cases hk : x.asConstant? with
  | none =>
      rw [assertBoolean_of_not_constant hk]
      exact declares_constrainBoolean x
  | some k =>
      rw [assertBoolean_of_constant hk]
      refine declares_get_bind fun d => ?_
      split
      · split
        · exact declares_fail _
        · exact declares_uniform _
      · exact (declares_pin k).bind fun wire => declares_constrainBoolean _

theorem declares_packChunks (name : String) (i : Nat) (pieces : List (List (LinearCombination F))) :
    (packChunks name i pieces : Synthesis F κ (List (LinearCombination F))).Declares
      ((List.range' i pieces.length).map fun j => s!"{name}[{j}]") [] := by
  induction pieces generalizing i with
  | nil => exact declares_uniform (pure [])
  | cons piece rest ih =>
      exact (declares_publicInput s!"{name}[{i}]").bind fun packed =>
        (declares_assertEqual (.ofBits piece) packed).bind fun _ => (ih (i + 1)).bind_pure _

end Synthesis

end ArithCircuit
