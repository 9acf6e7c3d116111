import ArithCircuit.Proofs.Circuit.Soundness

/-!
# Circuits that are defined twice

A circuit is accepted by the check if two definitions of it give the same system, with its copies and hints. The
comparison that decides this finds every difference and nothing else.
-/

namespace ArithCircuit.Circuit

variable {F : PrimeField} {circuit : Circuit F} {options : CompileOptions} {number : Nat}

/-- If both definitions give systems, they are compared. -/
theorem result_compile_of_twice (checks : options.checkDeterminism = true) {first again : System F}
    (hfirst : (circuit.compileOnce options number).result = .ok first)
    (hagain : (circuit.compileOnce options (number + 1)).result = .ok again) :
    (circuit.compile options number).result
      = if first = again then .ok first else .error (.nonDeterministic (first.difference again false)) := by
  rw [result_compile_of_checks checks, hfirst, Except.bind, confirm_eq hagain]

/-- There is no difference exactly between equal systems, and otherwise it is the only one that describes the
first part in which the systems differ. It is the same in both directions, with the sides exchanged. Hence the
check accepts exactly the circuits of which both definitions give the same. -/
theorem difference_exact :
    (∀ (a b : System F) (ignoreCounts : Bool),
      (a.difference b ignoreCounts = .equal ↔ a = b) ∧
      (∀ difference, a.difference b ignoreCounts = difference ↔ difference.Describes a b ignoreCounts) ∧
      (a.difference b false = .different →
        a.hints.length ≠ b.hints.length ∨ a.constraints.copies ≠ b.constraints.copies) ∧
      b.difference a ignoreCounts = (a.difference b ignoreCounts).swap) ∧
    ∀ (circuit : Circuit F) (options : CompileOptions) (number : Nat) (system : System F),
      options.checkDeterminism = true →
        ((circuit.compile options number).result = .ok system ↔
          (circuit.compileOnce options number).result = .ok system ∧
            (circuit.compileOnce options (number + 1)).result = .ok system) := by
  refine ⟨fun a b ignoreCounts => ⟨System.difference_eq_equal, fun difference => System.difference_eq_iff,
    System.differ_of_different, System.difference_swap a b ignoreCounts⟩, ?_⟩
  intro circuit options number system checks
  constructor
  · intro compiled
    obtain ⟨first, again⟩ := compile_ok compiled
    exact ⟨first, again checks⟩
  · rintro ⟨first, again⟩
    rw [result_compile_of_twice checks first again, if_pos rfl]

/-- Two gates on one wire, with or without the copy that joins their slots. -/
def twoGates (copies : List Copy) : System .seven where
  roles := [.secretInput]
  publicInputs := []
  secretInputs := [⟨⟨0⟩, "x"⟩]
  constraints := .gate [{ qL := 1, l := some ⟨0⟩ }, { qL := 2, l := some ⟨0⟩ }] copies
  hints := []

/-- The two systems differ in their copies only. The circuit is accepted, since it is defined the same again. -/
theorem difference_twoGates :
    ((twoGates []).hints.length ≠ (twoGates [⟨⟨0, .left⟩, ⟨1, .left⟩⟩]).hints.length ∨
      (twoGates []).constraints.copies ≠ (twoGates [⟨⟨0, .left⟩, ⟨1, .left⟩⟩]).constraints.copies) ∧
    ∃ system, (fiveForZero.compile { checkDeterminism := true } 0).result = .ok system ∧
      (fiveForZero.compileOnce { checkDeterminism := true } 1).result = .ok system := by
  obtain ⟨exact, accepts⟩ := difference_exact (F := .seven)
  refine ⟨(exact (twoGates []) (twoGates [⟨⟨0, .left⟩, ⟨1, .left⟩⟩]) false).2.2.1 (by decide +kernel), _, rfl, ?_⟩
  exact ((accepts fiveForZero { checkDeterminism := true } 0 _ rfl).mp rfl).2

end ArithCircuit.Circuit
