import ArithCircuit.Proofs.Circuit.Soundness
import ArithCircuit.Proofs.Synthesis.Additions

/-!
# Reached drafts

What a circuit does with a draft is of interest for the drafts that a circuit can bring about, in the
constraints of either backend.
-/

namespace ArithCircuit

variable {F : PrimeField}

/-- The constraints of a backend. -/
def Backend.Form (F : PrimeField) : Backend → Type
  | .rank1 => Triple F
  | .gate => Gate F

instance : (backend : Backend) → ConstraintForm F (backend.Form F)
  | .rank1 => inferInstanceAs (ConstraintForm F (Triple F))
  | .gate => inferInstanceAs (ConstraintForm F (Gate F))

instance : (backend : Backend) → LawfulForm F (backend.Form F)
  | .rank1 => inferInstanceAs (LawfulForm F (Triple F))
  | .gate => inferInstanceAs (LawfulForm F (Gate F))

instance : (backend : Backend) → UniformForm F (backend.Form F)
  | .rank1 => inferInstanceAs (UniformForm F (Triple F))
  | .gate => inferInstanceAs (UniformForm F (Gate F))

/-- Compiling is finishing a definition in the constraints of the backend. -/
theorem Circuit.compileOnce_eq (options : CompileOptions) (circuit : Circuit F) (number : Nat) :
    circuit.compileOnce options number
      = (circuit.define (options.backend.Form F) options.eliminateConstantWires number).compilation := by
  unfold compileOnce
  cases options.backend <;> rfl

namespace Draft

variable {κ : Type} [ConstraintForm F κ] {d : Draft F κ}

/-- Operations on constants and earlier results lead to the draft; some of them may have failed. -/
def Reached (d : Draft F κ) : Prop :=
  ∃ (circuit : Circuit F) (sharesConstants : Bool) (number : Nat),
    circuit.Closed ∧ (circuit.define κ sharesConstants number).draft = d

theorem Reached.coherent [LawfulForm F κ] (prime : F.modulus.Prime) (reached : d.Reached) : d.Coherent := by
  obtain ⟨circuit, sharesConstants, number, closed, rfl⟩ := reached
  exact Circuit.define_coherent κ prime closed sharesConstants number

end Draft

end ArithCircuit
