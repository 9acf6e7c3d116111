import ArithCircuit.Proofs.ByteForm.RoundTrip
import ArithCircuit.Proofs.Circuit.Emission
import ArithCircuit.Proofs.Circuit.Solving
import ArithCircuit.Proofs.Constraint.Copies
import ArithCircuit.Proofs.Witness.Invariant

/-!
# Systems that circuits compile into

The system of a closed circuit gives every wire one source, so a run on it never changes its mind. Its
combinations are canonical and its references are in range, so it is read back from its byte form.
-/

namespace ArithCircuit

variable {F : PrimeField}

theorem Draft.Coherent.singleSource {κ : Type} [ConstraintForm F κ] [LawfulForm F κ] {d : Draft F κ}
    (coherent : d.Coherent) : (d.toSystem ConstraintForm.collect).SingleSource where
  inputs := coherent.distinct
  outputs := coherent.separate
  internal := coherent.internal

/-! ## Canonical triples -/

namespace Triple

open LinearCombination (canonical_ofConstant canonical_ofWire canonical_zero)

open Synthesis

def Canonical (triple : Triple F) : Prop :=
  triple.left.Canonical ∧ triple.right.Canonical ∧ triple.output.Canonical

theorem canonical_iff {triple : Triple F} : triple.Canonical ↔ ∀ x ∈ triple.combinations, x.Canonical := by
  simp [Canonical, combinations]

theorem canonical_equation {x output : LinearCombination F} (hx : x.Canonical) (houtput : output.Canonical) :
    (equation x output).Canonical :=
  ⟨hx, canonical_ofConstant 1, houtput⟩

theorem makes_materialize {x : LinearCombination F} (hx : x.Canonical) :
    (materialize x).Makes Canonical fun _ => True :=
  makes_freshWire.bind fun wire _ =>
    (makes_emit (canonical_equation hx (canonical_ofWire wire))).bind fun _ _ => makes_pure trivial

/-- The parts of a triple are the expressions themselves, or a constant away from them. -/
def emission (F : PrimeField) : Emission F (Triple F) where
  Meets := Canonical
  Stands _ y := LinearCombination.Canonical y
  pinned wire value := ⟨canonical_ofConstant 1, canonical_ofConstant value, canonical_ofWire wire⟩
  product _ _ hx hy hz := ⟨hx, hy, hz⟩
  boolean _ hx := ⟨hx, LinearCombination.Canonical.addConstant hx (-1), canonical_zero⟩
  wireFactor := canonical_ofWire
  factor hx := makes_pure hx
  materialize := makes_materialize
  enforceZero hx _ := makes_emit (canonical_equation hx canonical_zero)

end Triple

namespace Circuit

variable {circuit : Circuit F} {number : Nat} {system : System F}

theorem define_straight (κ : Type) [ConstraintForm F κ] [LawfulForm F κ] (prime : F.modulus.Prime)
    (closed : circuit.Closed) {sharesConstants : Bool}
    (compiled : (circuit.define κ sharesConstants number).compilation.result = .ok system) :
    system.Straight ∧ system.SingleSource := by
  obtain ⟨-, rfl⟩ := Definition.compilation_ok compiled
  have coherent := define_coherent κ prime closed sharesConstants number
  exact ⟨coherent.straight, coherent.singleSource⟩

theorem compile_straight (prime : F.modulus.Prime) (closed : circuit.Closed) {options : CompileOptions}
    (compiled : (circuit.compile options number).result = .ok system) : system.Straight ∧ system.SingleSource := by
  obtain ⟨κ, _, _, same⟩ := exists_compilation options circuit number
  exact define_straight κ prime closed (same ▸ (compile_ok compiled).1)

theorem compile_wellFormed (prime : F.modulus.Prime) (closed : circuit.Closed) {options : CompileOptions}
    (compiled : (circuit.compile options number).result = .ok system) :
    system.InRange ∧ system.SingleSource :=
  (compile_straight prime closed compiled).imp_left (·.inRange)

theorem compile_scheduled (prime : F.modulus.Prime) (closed : circuit.Closed) {options : CompileOptions}
    (compiled : (circuit.compile options number).result = .ok system) : system.Scheduled :=
  (compile_straight prime closed compiled).1.scheduled

theorem define_standard_rank1 (prime : F.modulus.Prime) (closed : circuit.Closed) {sharesConstants : Bool}
    (compiled : (circuit.define (Triple F) sharesConstants number).compilation.result = .ok system) :
    system.constraints.Standard := by
  obtain ⟨-, rfl⟩ := Definition.compilation_ok compiled
  have triples : ∀ triple ∈ (circuit.define (Triple F) sharesConstants number).draft.constraints.toList,
      triple.Canonical := (Triple.emission F).runSteps prime closed (.nil _) (by simp)
  exact ⟨trivial, List.forall_mem_flatMap.mpr fun triple htriple => Triple.canonical_iff.mp (triples triple htriple)⟩

theorem define_standard_gate {sharesConstants : Bool}
    (compiled : (circuit.define (Gate F) sharesConstants number).compilation.result = .ok system) :
    system.constraints.Standard := by
  obtain ⟨-, rfl⟩ := Definition.compilation_ok compiled
  exact ⟨fun copy => gate_lt_of_copy, nofun⟩

theorem compile_standard (prime : F.modulus.Prime) (closed : circuit.Closed) {options : CompileOptions}
    (compiled : (circuit.compile options number).result = .ok system) : system.constraints.Standard := by
  have compiledOnce := (compile_ok compiled).1
  unfold compileOnce at compiledOnce
  cases hbackend : options.backend with
  | rank1 =>
      simp only [hbackend] at compiledOnce
      exact define_standard_rank1 prime closed compiledOnce
  | gate =>
      simp only [hbackend] at compiledOnce
      exact define_standard_gate compiledOnce

/-- A compiled system is read back from its byte form, as it was. -/
theorem ofBytes_compile (prime : F.modulus.Prime) (closed : circuit.Closed) {options : CompileOptions}
    (compiled : (circuit.compile options number).result = .ok system) (fits : system.Fits) :
    System.ofBytes F system.toBytes = .ok system := by
  obtain ⟨inRange, -⟩ := compile_wellFormed prime closed compiled
  exact System.ofBytes_toBytes inRange (compile_scheduled prime closed compiled)
    (compile_standard prime closed compiled) fits

theorem fiveForZero_ofBytes : ∃ system, (fiveForZero.compile {} 0).result = .ok system ∧
    System.ofBytes .seven system.toBytes = .ok system := by
  obtain ⟨system, compiled, fits⟩ : ∃ system, (fiveForZero.compile {} 0).result = .ok system ∧ system.Fits :=
    ⟨_, rfl, ⟨by decide, by decide +kernel, by decide +kernel⟩⟩
  exact ⟨system, compiled, ofBytes_compile PrimeField.prime_seven (by decide) compiled fits⟩

end Circuit

namespace Solver

/-- If every wire has one source, as in every system that a closed circuit compiles into, then at all
moments of a run values that are known stay, the constraints that are done hold for known values, and
the hints that are done give the values of their outputs. So a witness satisfies the system, keeps the
inputs, and has the outputs of every hint. -/
theorem solve_keeps (prime : F.modulus.Prime) :
    (∀ (circuit : Circuit F) (options : CompileOptions) (number : Nat) (system : System F), circuit.Closed →
      (circuit.compile options number).result = .ok system → system.InRange ∧ system.SingleSource) ∧
    ∀ (solver : Solver F) (publicValues secretValues : List F.Elem), solver.system.InRange →
      solver.system.SingleSource →
      (∀ moment later, solver.Visits publicValues secretValues moment → solver.context.Reaches moment later →
        moment.known.Persists later.known) ∧
      (∀ moment, solver.Visits publicValues secretValues moment → ∀ task ∈ moment.done,
        (∀ wire ∈ task.wires, (moment.known.get? wire).isSome) ∧
          task.RespectedBy solver.registry moment.known.valueOrZero) ∧
      (∃ moment, solver.Visits publicValues secretValues moment ∧
        moment.known = (solver.complete (solver.system.seed publicValues secretValues)).2.known) ∧
      ∀ witness, (solver.solve publicValues secretValues).1 = .ok witness →
        witness.Justified solver publicValues secretValues := by
  refine ⟨fun _ _ _ _ closed compiled => Circuit.compile_wellFormed prime closed compiled,
    fun solver publicValues secretValues inRange single => ⟨fun moment later visits reaches => ?_,
      fun moment visits task htask => ?_, ?_, fun witness solved => justified_of_solve prime inRange single solved⟩⟩
  · exact ((consistent_of_visits prime inRange single visits).1.reaches single prime inRange reaches).2
  · have consistent := (consistent_of_visits prime inRange single visits).1
    exact ⟨consistent.known task htask, consistent.respected task htask⟩
  · obtain ⟨moment, visits, hknown, -⟩ := solver.run_reaches (solver.system.seed publicValues secretValues)
    exact ⟨moment, visits, by rw [complete_eq, hknown]⟩

/-- The circuit that gives five for zero has a justified witness for zero. -/
theorem fiveForZero_justified : ∃ (solver : Solver .seven) (witness : Witness .seven),
    (Circuit.fiveForZero.compile {} 0).result = .ok solver.system ∧
      (solver.solve [] [0]).1 = .ok witness ∧ witness.Justified solver [] [0] := by
  obtain ⟨system, compiled, solved⟩ : ∃ system, (Circuit.fiveForZero.compile {} 0).result = .ok system ∧
      (({ system, registry := .builtin } : Solver .seven).solve [] [0]).1
        = .ok ⟨#[0, 0, 0, 5], [], [⟨0⟩]⟩ := ⟨_, rfl, by decide +kernel⟩
  obtain ⟨wellFormed, keeps⟩ := solve_keeps PrimeField.prime_seven
  obtain ⟨inRange, single⟩ := wellFormed Circuit.fiveForZero {} 0 system (by decide) compiled
  exact ⟨_, _, compiled, solved, (keeps _ [] [0] inRange single).2.2.2 _ solved⟩

end Solver

end ArithCircuit
