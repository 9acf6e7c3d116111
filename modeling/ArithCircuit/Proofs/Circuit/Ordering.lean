import ArithCircuit.Proofs.Circuit.Compiled
import ArithCircuit.Proofs.Synthesis.Ordering

/-!
# Compiled systems are well-ordered

In the system of a closed circuit every wire gets its value from wires before it: it is an input, an output
of a hint, or the first constraint that mentions it can be solved for it.
-/

namespace ArithCircuit

variable {F : PrimeField} {system : System F} {wire : Wire}

namespace System

/-- The first constraint that mentions the wire can be solved for it: the wire stands alone in it, all other
wires come before, and those that hints give values are outputs of hints bound no later. -/
def Introduces (system : System F) (wire : Wire) : Prop :=
  ∃ before c after, system.constraints.toList = before ++ c :: after ∧
    (∀ earlier ∈ before, wire ∉ earlier.wires) ∧ c.StandsAlone wire ∧
    (∀ other ∈ c.wires, other ≠ wire → other.index < wire.index) ∧
    ∀ b ∈ system.hints, ∀ output ∈ b.outputs, output ∈ c.wires → b.position ≤ before.length

/-- Inputs, hints and constraints are numbered in the order in which values become known. -/
structure WellOrdered (system : System F) : Prop where
  publicInputs : ListsRole system.roles .publicInput system.publicInputs
  secretInputs : ListsRole system.roles .secretInput system.secretInputs
  inRange : system.InRange
  positions : system.hints.Pairwise fun b b' => b.position ≤ b'.position
  scheduled : system.Scheduled
  internal : ∀ b ∈ system.hints, ∀ wire ∈ b.outputs, system.roles[wire.index]? = some .internal
  separate : (system.hints.flatMap (·.outputs)).Nodup
  later : ∀ b ∈ system.hints, ∀ input ∈ b.inputs, ∀ output ∈ b.outputs, input.index < output.index
  introduces : ∀ wire, system.roles[wire.index]? = some .internal → (∀ b ∈ system.hints, wire ∉ b.outputs) →
    system.Introduces wire

/-- With the inputs listed by role, the internal wires are those that are no inputs. -/
theorem internal_iff (publicInputs : ListsRole system.roles .publicInput system.publicInputs)
    (secretInputs : ListsRole system.roles .secretInput system.secretInputs) :
    system.roles[wire.index]? = some .internal ↔ wire.index < system.wireCount ∧ ¬ system.IsInput wire := by
  have isInput : system.IsInput wire ↔ system.roles[wire.index]? = some .publicInput ∨
      system.roles[wire.index]? = some .secretInput := by
    rw [← publicInputs.mem_iff, ← secretInputs.mem_iff]
    simp only [IsInput, List.mem_append, or_and_right, exists_or]
  rw [isInput]
  cases hrole : system.roles[wire.index]? with
  | none => simpa [wireCount] using List.getElem?_eq_none_iff.mp hrole
  | some role =>
      have := (List.getElem?_eq_some_iff.mp hrole).1
      cases role <;> simp [wireCount, this]

/-- A wire that is neither an input nor an output of a hint is defined by a constraint. -/
theorem Straight.introduces (straight : system.Straight) (inRange : wire.index < system.wireCount)
    (notInput : ¬ system.IsInput wire) (notOutput : ∀ b ∈ system.hints, wire ∉ b.outputs) :
    system.Introduces wire := by
  cases straight.tasks.source (Nat.zero_le _) inRange with
  | input isIn => exact absurd isIn notInput
  | output hb output => exact absurd output (notOutput _ (mem_hints_of_task hb))
  | @defined before after i c result split defines start rest =>
      obtain ⟨earlier, later, constraints, mem, hints⟩ := schedule_split split
      refine ⟨earlier, c, later, constraints, fun c' hc' hwire => ?_, defines.standsAlone,
        fun other => defines.lt_of_ne, fun b hb output houtput hmem => ?_⟩
      · obtain ⟨j, hj⟩ := mem c' hc'
        exact Nat.lt_irrefl _ (start.wires_lt _ hj wire hwire)
      · have htask : Task.hint b ∈ before ++ .constraint i c :: after := split ▸ hint_mem_tasks straight.scheduled hb
        rcases List.mem_append.mp htask with h | h
        · simpa using hints b h
        · -- a hint behind the constraint has later outputs
          have behind := rest.le_outputs (by simpa using h) houtput
          exact absurd (defines.wires_le output hmem) (Nat.not_le_of_lt behind)

end System

theorem Draft.Coherent.wellOrdered {κ : Type} [ConstraintForm F κ] [LawfulForm F κ] {d : Draft F κ}
    (coherent : d.Coherent) (ordered : d.Ordered) : (d.toSystem ConstraintForm.collect).WellOrdered := by
  have straight := coherent.straight
  have internal_iff {wire : Wire} : (d.toSystem ConstraintForm.collect).roles[wire.index]? = some .internal ↔
      wire.index < (d.toSystem ConstraintForm.collect).wireCount ∧
        ¬ (d.toSystem ConstraintForm.collect).IsInput wire :=
    System.internal_iff ordered.publicInputs ordered.secretInputs
  exact {
    publicInputs := ordered.publicInputs
    secretInputs := ordered.secretInputs
    inRange := straight.inRange
    positions := ordered.positions
    scheduled := straight.scheduled
    internal := fun b hb wire hwire => internal_iff.mpr
      ⟨coherent.hint_lt hb wire (List.mem_append_right _ hwire), coherent.internal b hb wire hwire⟩
    separate := coherent.separate
    later := fun b hb input hinput output houtput =>
      straight.tasks.input_lt_output (System.hint_mem_tasks straight.scheduled hb) hinput houtput
    introduces := fun wire internal notOutput =>
      have ⟨inRange, notInput⟩ := internal_iff.mp internal
      straight.introduces inRange notInput notOutput }

namespace Circuit

variable {circuit : Circuit F} {number : Nat}

theorem define_wellOrdered (κ : Type) [ConstraintForm F κ] [LawfulForm F κ] (prime : F.modulus.Prime)
    (closed : circuit.Closed) {sharesConstants : Bool}
    (compiled : (circuit.define κ sharesConstants number).compilation.result = .ok system) : system.WellOrdered := by
  obtain ⟨-, rfl⟩ := Definition.compilation_ok compiled
  exact (define_coherent κ prime closed sharesConstants number).wellOrdered
    ((evolves_runSteps _ _ _ _ _).ordered (Draft.ordered_empty sharesConstants))

/-- The system that a closed circuit compiles into is well-ordered. -/
theorem compile_wellOrdered (prime : F.modulus.Prime) (closed : circuit.Closed) {options : CompileOptions}
    (compiled : (circuit.compile options number).result = .ok system) : system.WellOrdered := by
  obtain ⟨κ, _, _, same⟩ := exists_compilation options circuit number
  exact define_wellOrdered κ prime closed (same ▸ (compile_ok compiled).1)

theorem fiveForZero_wellOrdered : ∃ system, (fiveForZero.compile {} 0).result = .ok system ∧ system.WellOrdered := by
  obtain ⟨system, compiled⟩ : ∃ system, (fiveForZero.compile {} 0).result = .ok system := ⟨_, rfl⟩
  exact ⟨system, compiled, compile_wellOrdered PrimeField.prime_seven (by decide) compiled⟩

end Circuit

end ArithCircuit
