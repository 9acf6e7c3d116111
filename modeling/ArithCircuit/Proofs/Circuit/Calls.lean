import ArithCircuit.Proofs.Circuit.Ordering
import ArithCircuit.Proofs.Witness.Calls

/-!
# Calls of compiled circuits

Solving the system of a closed circuit calls every hint once, if there is a wire that is no input. If there
is none, all values are supplied, and hints, none of which has outputs, are not called.
-/

namespace ArithCircuit

variable {F : PrimeField}

theorem System.WellOrdered.internal_mem_roles {system : System F} (ordered : system.WellOrdered) :
    .internal ∈ system.roles ↔ ∃ wire : Wire, wire.index < system.wireCount ∧ ¬ system.IsInput wire := by
  have internal_iff {wire : Wire} : system.roles[wire.index]? = some .internal ↔
      wire.index < system.wireCount ∧ ¬ system.IsInput wire :=
    System.internal_iff ordered.publicInputs ordered.secretInputs
  constructor
  · intro internal
    obtain ⟨i, hi⟩ := List.mem_iff_getElem?.mp internal
    exact ⟨⟨i⟩, internal_iff.mp hi⟩
  · rintro ⟨wire, h⟩
    exact List.mem_of_getElem? (internal_iff.mpr h)

namespace Circuit

variable {circuit : Circuit F} {number : Nat}

/-- A solve that succeeds on the system of a closed circuit has made its calls on the way to the moment with the
values of the witness. It has called every hint once, in order and with success, on the final values of its inputs.
But if there are no internal wires, it has called none. -/
theorem compile_calls (prime : F.modulus.Prime) (closed : circuit.Closed) {options : CompileOptions}
    {solver : Solver F} (compiled : (circuit.compile options number).result = .ok solver.system)
    {publicValues secretValues : List F.Elem} {witness : Witness F}
    (solved : (solver.solve publicValues secretValues).1 = .ok witness) :
    (∃ moment, solver.Traces publicValues secretValues (solver.calls publicValues secretValues) moment ∧
      witness = solver.witnessOf moment.known) ∧
    (.internal ∈ solver.system.roles →
      solver.calls publicValues secretValues
        = (solver.system.hints.map fun b => ⟨b, b.inputs.map witness.value⟩) ∧
      ∀ b ∈ solver.system.hints, (Task.hint b).RespectedBy solver.registry witness.value) ∧
    (.internal ∉ solver.system.roles →
      solver.calls publicValues secretValues = [] ∧ ∀ b ∈ solver.system.hints, b.outputs = []) := by
  obtain ⟨straight, single⟩ := compile_straight prime closed compiled
  obtain ⟨κ, _, _, same⟩ := exists_compilation options circuit number
  have ordered := define_wellOrdered κ prime closed (same ▸ (compile_ok compiled).1)
  refine ⟨?_, ?_, ?_⟩
  · obtain ⟨moment, traces, last, -⟩ := Solver.exists_last witness solved
    exact ⟨moment, traces, last⟩
  · intro internal
    obtain ⟨wire, inRange, notInput⟩ := ordered.internal_mem_roles.mp internal
    exact Solver.calls_of_solve prime straight single ordered.positions solved inRange notInput
  · intro none
    obtain ⟨-, publicEnough, secretEnough, -⟩ := Solver.of_solve_ok solved
    obtain ⟨value, supplied, seeded⟩ := System.exists_supplied single.inputs publicEnough secretEnough
    refine ⟨?_, fun b hb => List.eq_nil_iff_forall_not_mem.mpr fun wire hwire =>
      none (List.mem_of_getElem? (ordered.internal b hb wire hwire))⟩
    have calls := Solver.calls_of_inputs_only straight supplied fun wire inRange => by
      by_contra notInput
      exact none (ordered.internal_mem_roles.mpr ⟨wire, inRange, notInput⟩)
    rwa [Solver.calls, ← seeded] at calls

theorem fiveForZero_calls : ∃ (solver : Solver .seven) (witness : Witness .seven),
    (fiveForZero.compile {} 0).result = .ok solver.system ∧ (solver.solve [] [0]).1 = .ok witness ∧
      .internal ∈ solver.system.roles ∧
      solver.calls [] [0] = (solver.system.hints.map fun b => ⟨b, b.inputs.map witness.value⟩) ∧
      ∀ b ∈ solver.system.hints, (Task.hint b).RespectedBy solver.registry witness.value := by
  obtain ⟨system, compiled, internal, solved⟩ : ∃ system, (fiveForZero.compile {} 0).result = .ok system ∧
      .internal ∈ system.roles ∧
      (({ system, registry := .builtin } : Solver .seven).solve [] [0]).1 = .ok ⟨#[0, 0, 0, 5], [], [⟨0⟩]⟩ :=
    ⟨_, rfl, by decide +kernel, by decide +kernel⟩
  exact ⟨_, _, compiled, solved, internal,
    (compile_calls PrimeField.prime_seven (by decide) compiled solved).2.1 internal⟩

/-- A circuit that calls a hint for no outputs and does nothing else. -/
def callOnly : Circuit .seven where
  steps := [
    { operation := .secretInput "x", out := some "x" },
    { operation := .hint "dbg" [.register "x"] 0 }]

/-- The hint of that circuit is bound, but not called: a handler that refuses all inputs goes unnoticed. -/
theorem callOnly_not_called : callOnly.Closed ∧ ∃ (solver : Solver .seven) (witness : Witness .seven),
    (callOnly.compile {} 0).result = .ok solver.system ∧ (solver.solve [] [2]).1 = .ok witness ∧
      solver.system.hints = [⟨"dbg", [⟨0⟩], [], 0⟩] ∧ solver.calls [] [2] = [] ∧
      solver.registry.invoke "dbg" 7 [2] 0 = .error (.failed "dbg" [2] "no") :=
  let refusing : HintRegistry := ⟨[⟨"dbg", .any, .any, fun _ _ _ => .error (.refused "no")⟩]⟩
  let system : System .seven := ⟨[.secretInput], [], [⟨⟨0⟩, "x"⟩], .rank1 [], [⟨"dbg", [⟨0⟩], [], 0⟩]⟩
  ⟨by decide, { system, registry := refusing }, ⟨#[2], [], [⟨0⟩]⟩, by decide +kernel, by decide +kernel, rfl,
    by decide +kernel, by decide +kernel⟩

end Circuit

end ArithCircuit
