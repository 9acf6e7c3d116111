import ArithCircuit.Proofs.ByteForm.Verbatim
import ArithCircuit.Proofs.ByteForm.Reading
import ArithCircuit.Proofs.System.Satisfaction

/-!
# The byte form is read back

What the byte form of a system spells word for word is the system, if its references are in range and
its counts and texts fit into their fields. With canonical combinations there is nothing to merge.
-/

namespace ArithCircuit

variable {F : PrimeField}

/-! ## What the byte form can hold -/

/-- Copies of slots of gates that are there. -/
def Constraints.Linked : Constraints F → Prop
  | .rank1 _ => True
  | .gate gates copies => ∀ copy ∈ copies, copy.source.gate < gates.length ∧ copy.target.gate < gates.length

/-- What a compiled system consists of: copies of slots that are there, and canonical combinations. -/
structure Constraints.Standard (constraints : Constraints F) : Prop where
  linked : constraints.Linked
  canonical : ∀ x ∈ constraints.combinations, x.Canonical

/-- The lengths of the lists of constraints, terms and copies. -/
def Constraints.counts : Constraints F → List Nat
  | .rank1 triples => triples.length ::
    triples.flatMap fun triple => [triple.left, triple.right, triple.output].map (·.terms.length)
  | .gate gates copies => [gates.length, copies.length]

namespace System

/-- The lengths of all lists of a system. -/
def counts (system : System F) : List Nat :=
  [system.wireCount, system.publicInputs.length, system.secretInputs.length, system.hints.length]
    ++ system.constraints.counts ++ system.hints.flatMap fun b => [b.inputs.length, b.outputs.length]

/-- The names of inputs and hints. -/
def texts (system : System F) : List String :=
  (system.publicInputs ++ system.secretInputs).map (·.name) ++ system.hints.map (·.name)

/-- The modulus, the texts and the lists are not too long for the fields that hold their lengths. -/
structure Fits (system : System F) : Prop where
  modulus : F.byteLength < 2 ^ 32
  texts : ∀ s ∈ system.texts, s.utf8ByteSize < 2 ^ 32
  counts : ∀ n ∈ system.counts, n < 2 ^ 64

/-- References in range, and nothing too long. -/
structure Spellable (system : System F) : Prop where
  inRange : system.InRange
  scheduled : system.Scheduled
  linked : system.constraints.Linked
  fits : system.Fits

end System

namespace ByteForm

/-! ## Tags, wires and elements -/

theorem reads_tag {α : Type} (kind : TagKind) {ofTag : Nat → Option α} {tag : UInt8} {a : α}
    (stands : ofTag tag.toNat = some a) : Reads (readTag kind ofTag) [tag] a := by
  have read : Reads (readNat 1) [tag] tag.toNat := by
    have taken := (reads_take (rfl : [tag].length = 1)).map ofBigEndian
    rwa [show ofBigEndian [tag] = tag.toNat by simp [ofBigEndian]] at taken
  refine read.result ?_
  rw [stands]
  exact reads_pure a

theorem reads_role (role : Role) : Reads (readTag .role roleOfTag) [roleTag role] role :=
  reads_tag .role (by cases role <;> rfl)

theorem reads_slot (slot : Slot) : Reads (readTag .slot slotOfTag) [slotTag slot] slot :=
  reads_tag .slot (by cases slot <;> rfl)

theorem reads_backend (backend : Backend) : Reads (readTag .backend backendOfTag) [backendTag backend] backend :=
  reads_tag .backend (by cases backend <;> rfl)

variable {count : Nat} (isCount : IsCount count)
include isCount

theorem reads_wire {wire : Wire} (lt : wire.index < count) : Reads (readWire count) (writeWire wire) wire := by
  refine (reads_count (Nat.lt_trans lt isCount)).result ?_
  rw [if_pos lt]
  exact reads_pure wire

theorem reads_slotWire {slot : Option Wire} (lt : ∀ wire ∈ slot, wire.index < count) :
    Reads (readSlotWire count) (writeSlotWire slot) slot := by
  cases slot with
  | none => exact (reads_tag .slot (a := false) rfl).result (reads_pure none)
  | some wire =>
      exact (reads_tag .slot (a := true) rfl).bind ((reads_wire isCount (lt wire rfl)).result (reads_pure _))

omit isCount in
theorem reads_element (x : F.Elem) : Reads (readElement F) (PrimeField.toBytes x) x := by
  refine (reads_take (PrimeField.length_toBytes x)).result ?_
  rw [PrimeField.ofBytes?_toBytes]
  exact reads_pure x

/-! ## Constraints -/

theorem reads_term {term : Term F} (lt : term.wire.index < count) :
    Reads (readTerm count) (writeTerm term) term :=
  (reads_wire isCount lt).bind ((reads_element term.coefficient).result (reads_pure term))

theorem reads_combination {x : LinearCombination F} (below : x.Below count) (terms : IsCount x.terms.length) :
    Reads (verbatimCombination count) (writeCombination x) x := by
  have each : ∀ term ∈ x.terms, Reads (readTerm count) (writeTerm term) term := fun term hterm =>
    reads_term isCount (below term.wire (List.mem_map_of_mem hterm))
  exact (reads_element x.constant).bind ((reads_list terms each).result (reads_pure x))

theorem reads_triple {triple : Triple F} (lt : ∀ wire ∈ triple.wires, wire.index < count)
    (terms : ∀ x ∈ triple.combinations, IsCount x.terms.length) :
    Reads (verbatimTriple count) (writeTriple triple) triple := by
  simp only [Triple.wires, List.mem_append] at lt
  simp only [Triple.combinations, List.forall_mem_cons, List.not_mem_nil, false_imp_iff, implies_true,
    and_true] at terms
  obtain ⟨left, right, output⟩ := terms
  rw [writeTriple, List.append_assoc]
  exact (reads_combination isCount (fun wire h => lt wire (.inl (.inl h))) left).bind
    ((reads_combination isCount (fun wire h => lt wire (.inl (.inr h))) right).bind
      ((reads_combination isCount (fun wire h => lt wire (.inr h)) output).result (reads_pure triple)))

theorem reads_gate {gate : Gate F} (lt : ∀ wire ∈ gate.wires, wire.index < count) :
    Reads (readGate count) (writeGate gate) gate := by
  have l := reads_slotWire isCount fun wire h => lt wire (Gate.mem_wires.mpr (.inl h))
  have r := reads_slotWire isCount fun wire h => lt wire (Gate.mem_wires.mpr (.inr (.inl h)))
  have o := reads_slotWire isCount fun wire h => lt wire (Gate.mem_wires.mpr (.inr (.inr h)))
  simp only [writeGate, List.flatMap_cons, List.flatMap_nil, List.append_nil, List.append_assoc]
  exact (reads_element gate.qL).bind ((reads_element gate.qR).bind ((reads_element gate.qO).bind
    ((reads_element gate.qM).bind ((reads_element gate.qC).bind
      (l.bind (r.bind (o.result (reads_pure gate))))))))

omit isCount in
theorem reads_index (referrer : Referrer) {index number limit : Nat} (isCount : IsCount index) (lt : index < limit) :
    Reads (readIndex referrer number limit) (writeCount index) index := by
  refine (reads_count isCount).result ?_
  rw [if_pos lt]
  exact reads_pure index

theorem reads_slotRef {ref : SlotRef} (lt : ref.gate < count) :
    Reads (readSlotRef count) (writeSlotRef ref) ref :=
  (reads_index .copy (Nat.lt_trans lt isCount) lt).bind ((reads_slot ref.slot).result (reads_pure ref))

theorem reads_copy {copy : Copy} (lt : copy.source.gate < count ∧ copy.target.gate < count) :
    Reads (readCopy count) (writeCopy copy) copy :=
  (reads_slotRef isCount lt.1).bind ((reads_slotRef isCount lt.2).result (reads_pure copy))

theorem reads_constraints {constraints : Constraints F} (linked : constraints.Linked)
    (lt : ∀ c ∈ constraints.toList, ∀ wire ∈ c.wires, wire.index < count)
    (counts : ∀ n ∈ constraints.counts, IsCount n) :
    Reads (verbatimConstraints constraints.backend count) (writeConstraints constraints) constraints := by
  cases constraints with
  | rank1 triples =>
      obtain ⟨length, terms⟩ := List.forall_mem_cons.mp counts
      refine (reads_list length fun triple htriple => ?_).result (reads_pure _)
      refine reads_triple isCount (lt (.rank1 triple) (List.mem_map_of_mem htriple)) fun x hx => ?_
      exact terms _ (List.mem_flatMap.mpr ⟨triple, htriple, List.mem_map_of_mem hx⟩)
  | gate gates copies =>
      have length : IsCount gates.length := counts _ (by simp [Constraints.counts])
      have copiesLength : IsCount copies.length := counts _ (by simp [Constraints.counts])
      exact (reads_list length fun gate hgate => reads_gate isCount (lt (.gate gate) (List.mem_map_of_mem hgate))).bind
        ((reads_list copiesLength fun copy hcopy => reads_copy length (linked copy hcopy)).result (reads_pure _))

/-! ## Inputs and hints -/

theorem reads_input {input : Input} (lt : input.wire.index < count) (name : input.name.utf8ByteSize < 2 ^ 32) :
    Reads (readInput count) (writeInput input) input :=
  (reads_wire isCount lt).bind ((reads_text .inputName name).result (reads_pure input))

theorem reads_binding {b : HintBinding} {constraints : Nat} (isCount' : IsCount constraints)
    (lt : ∀ wire ∈ b.wires, wire.index < count) (position : b.position ≤ constraints)
    (name : b.name.utf8ByteSize < 2 ^ 32) (inputs : IsCount b.inputs.length) (outputs : IsCount b.outputs.length) :
    Reads (readBinding count constraints) (writeBinding b) b := by
  have readInputs := reads_list inputs fun wire h => reads_wire isCount (lt wire (List.mem_append_left _ h))
  have readOutputs := reads_list outputs fun wire h => reads_wire isCount (lt wire (List.mem_append_right _ h))
  rw [writeBinding, List.append_assoc, List.append_assoc]
  exact (reads_text .hintName name).bind
    ((reads_index .hintBinding (Nat.lt_of_le_of_lt position isCount') (Nat.lt_succ_of_le position)).bind
      (readInputs.bind (readOutputs.result (reads_pure b))))

/-! ## Systems -/

omit isCount in
theorem reads_header (F : PrimeField) (modulus : F.byteLength < 2 ^ 32) :
    Reads (readHeader F) (magic ++ bigEndian 2 version ++ writeBytes (modulusBytes F)) () := by
  have length : (modulusBytes F).length < 2 ^ 32 := by rwa [modulusBytes, length_bigEndian]
  rw [List.append_assoc]
  exact (reads_take rfl).bind ((reads_nat (by decide)).bind ((reads_bytes length).result (by
    rw [if_neg (not_not.mpr rfl)]
    exact reads_pure ())))

omit isCount in
theorem reads_system {system : System F} (spellable : system.Spellable) :
    Reads (verbatimSystem F) system.toBytes system := by
  obtain ⟨inRange, scheduled, linked, fits⟩ := spellable
  have counts : ∀ n ∈ system.counts, IsCount n := fits.counts
  simp only [System.counts, List.cons_append, List.nil_append, List.forall_mem_cons,
    List.forall_mem_append] at counts
  obtain ⟨wires, publicInputs, secretInputs, hints, constraints, bindings⟩ := counts
  obtain ⟨names, hintNames⟩ := List.forall_mem_append.mp fits.texts
  have size : IsCount system.constraints.size := by
    cases hconstraints : system.constraints <;> exact constraints _ (by simp [hconstraints, Constraints.counts, Constraints.size])
  have readInputs {inputs : List Input} (some : ∀ input ∈ inputs, input ∈ system.publicInputs ++ system.secretInputs)
      (length : IsCount inputs.length) :
      Reads (readList (readInput system.wireCount)) (writeList writeInput inputs) inputs :=
    reads_list length fun input h =>
      reads_input wires (inRange.inputs input (some input h)) (names _ (List.mem_map_of_mem (some input h)))
  have readConstraints := reads_constraints wires linked (fun c hc => inRange.constraint_lt hc) constraints
  have readHints : Reads (readList (readBinding system.wireCount system.constraints.size))
      (writeList writeBinding system.hints) system.hints :=
    reads_list hints fun b hb => by
      have lengths := fun n h => bindings n (List.mem_flatMap.mpr ⟨b, hb, h⟩)
      simp only [List.forall_mem_cons, List.not_mem_nil, false_imp_iff, implies_true, and_true] at lengths
      exact reads_binding wires size (inRange.binding_lt hb) (scheduled b hb)
        (hintNames _ (List.mem_map_of_mem hb)) lengths.1 lengths.2
  rw [System.toBytes]
  simp only [List.append_assoc]
  rw [← List.append_assoc, ← List.append_assoc]
  exact (reads_header F fits.modulus).bind ((reads_backend system.backend).bind
    ((reads_list wires fun role _ => reads_role role).bind
      ((readInputs (fun input h => List.mem_append_left _ h) publicInputs).bind
        ((readInputs (fun input h => List.mem_append_right _ h) secretInputs).bind
          (readConstraints.bind (readHints.result (reads_pure system)))))))

end ByteForm

/-- The byte form of a system spells the system word for word. -/
theorem System.verbatim_toBytes {system : System F} (spellable : system.Spellable) :
    System.verbatim F system.toBytes = .ok system := by
  rw [verbatim, (ByteForm.reads_system spellable).alone]

/-- A system is read back from its byte form. -/
theorem System.ofBytes_toBytes {system : System F} (inRange : system.InRange) (scheduled : system.Scheduled)
    (standard : system.constraints.Standard) (fits : system.Fits) : System.ofBytes F system.toBytes = .ok system := by
  rw [ofBytes_eq, verbatim_toBytes ⟨inRange, scheduled, standard.linked, fits⟩]
  exact congrArg Except.ok (merged_eq_self.mpr standard.canonical)

end ArithCircuit
