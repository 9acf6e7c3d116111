import ArithCircuit.Proofs.ByteForm.Delimited
import ArithCircuit.Proofs.ByteForm.RoundTrip

/-!
# The byte form is exact

Whatever a reader accepts is what the writer writes for the result. So bytes are the byte form of the
system that they list, and two byte strings of the same system differ only in how they list the terms
of combinations.
-/

namespace ArithCircuit

variable {F : PrimeField}

namespace ByteForm

variable {α : Type} {reader : Reader α} {write : α → List UInt8} {P : α → Prop}
  {input rest : List UInt8} {count : Nat}

/-- The reader accepts only what is written for values with the property. -/
def Exact (reader : Reader α) (write : α → List UInt8) (P : α → Prop) : Prop :=
  ∀ input a rest, reader input = .ok (a, rest) → input = write a ++ rest ∧ P a

/-! ## Numbers and lists -/

theorem exact_take (n : Nat) : Exact (take n) id (·.length = n) := by
  intro input taken rest accepted
  rw [take] at accepted
  split at accepted
  · rename_i enough
    cases accepted
    exact ⟨(List.take_append_drop n input).symm, enough⟩
  · cases accepted

theorem exact_nat (width : Nat) : Exact (readNat width) (bigEndian width) (· < 256 ^ width) := by
  intro input n rest accepted
  rw [readNat, map_eq_pure_bind] at accepted
  obtain ⟨bytes, rest, read, ⟨⟩⟩ := of_bind accepted
  obtain ⟨rfl, rfl⟩ := exact_take width _ _ _ read
  exact ⟨by rw [bigEndian_ofBigEndian]; rfl, ofBigEndian_lt bytes⟩

theorem exact_count : Exact readCount writeCount IsCount := exact_nat 8

theorem exact_bytes : Exact readBytes writeBytes (·.length < 2 ^ 32) := by
  intro input bytes rest accepted
  obtain ⟨length, rest', readLength, read⟩ := of_bind accepted
  obtain ⟨rfl, fits⟩ := exact_nat 4 _ _ _ readLength
  obtain ⟨rfl, rfl⟩ := exact_take length _ _ _ read
  exact ⟨(List.append_assoc ..).symm, fits⟩

theorem exact_many (item : Exact reader write P) (n : Nat) :
    Exact (readMany reader n) (·.flatMap write) fun items => items.length = n ∧ ∀ a ∈ items, P a := by
  induction n with
  | zero =>
      rintro input _ _ ⟨⟩
      exact ⟨rfl, rfl, by simp⟩
  | succ n ih =>
      intro input items rest accepted
      obtain ⟨a, rest', readItem, accepted⟩ := of_bind accepted
      obtain ⟨others, rest'', readOthers, ⟨⟩⟩ := of_bind accepted
      obtain ⟨rfl, ha⟩ := item _ _ _ readItem
      obtain ⟨rfl, rfl, hothers⟩ := ih _ _ _ readOthers
      exact ⟨(List.append_assoc ..).symm, rfl, List.forall_mem_cons.mpr ⟨ha, hothers⟩⟩

theorem exact_list (item : Exact reader write P) :
    Exact (readList reader) (writeList write) fun items => IsCount items.length ∧ ∀ a ∈ items, P a := by
  intro input items rest accepted
  obtain ⟨length, rest', readLength, read⟩ := of_bind accepted
  obtain ⟨rfl, isCount⟩ := exact_count _ _ _ readLength
  obtain ⟨rfl, rfl, each⟩ := exact_many item length _ _ _ read
  exact ⟨(List.append_assoc ..).symm, isCount, each⟩

/-! ## Texts and tags -/

theorem toUTF8_of_fromUTF8? {bytes : List UInt8} {s : String} (h : String.fromUTF8? ⟨bytes.toArray⟩ = some s) :
    s.toUTF8.toList = bytes := by
  rw [String.fromUTF8?] at h
  split at h
  · cases h
    rw [toList_byteArray]
    rfl
  · cases h

theorem exact_text (kind : TextKind) : Exact (readText kind) writeText (·.utf8ByteSize < 2 ^ 32) := by
  intro input s rest accepted
  obtain ⟨bytes, rest', read, checked⟩ := of_bind accepted
  obtain ⟨rfl, fits⟩ := exact_bytes _ _ _ read
  cases spelled : String.fromUTF8? ⟨bytes.toArray⟩ with
  | none =>
      rw [spelled] at checked
      cases checked
  | some s' =>
      rw [spelled] at checked
      cases checked
      have bytes_eq := toUTF8_of_fromUTF8? spelled
      refine ⟨by rw [writeText, bytes_eq], ?_⟩
      rw [← bytes_eq, toList_byteArray] at fits
      exact fits

theorem exact_tag (kind : TagKind) {ofTag : Nat → Option α} {tagOf : α → UInt8}
    (one : ∀ tag a, ofTag tag = some a → (tagOf a).toNat = tag) :
    Exact (readTag kind ofTag) (fun a => [tagOf a]) fun _ => True := by
  intro input a rest accepted
  obtain ⟨tag, rest', read, checked⟩ := of_bind accepted
  obtain ⟨rfl, -⟩ := exact_nat 1 _ _ _ read
  cases stands : ofTag tag with
  | none =>
      rw [stands] at checked
      cases checked
  | some a' =>
      rw [stands] at checked
      cases checked
      refine ⟨?_, trivial⟩
      rw [← one tag _ stands]
      simp [bigEndian]

theorem exact_role : Exact (readTag .role roleOfTag) (fun role => [roleTag role]) fun _ => True :=
  exact_tag .role fun tag role stands => by
    unfold roleOfTag at stands
    split at stands <;> cases stands <;> rfl

theorem exact_slot : Exact (readTag .slot slotOfTag) (fun slot => [slotTag slot]) fun _ => True :=
  exact_tag .slot fun tag slot stands => by
    unfold slotOfTag at stands
    split at stands <;> cases stands <;> rfl

theorem exact_backend : Exact (readTag .backend backendOfTag) (fun backend => [backendTag backend]) fun _ => True :=
  exact_tag .backend fun tag backend stands => by
    unfold backendOfTag at stands
    split at stands <;> cases stands <;> rfl

theorem exact_presence :
    Exact (readTag .slot presenceOfTag) (fun there => [if there then 1 else 0]) fun _ => True :=
  exact_tag .slot fun tag there stands => by
    unfold presenceOfTag at stands
    split at stands <;> cases stands <;> rfl

/-! ## Wires and elements -/

theorem exact_wire (count : Nat) : Exact (readWire count) writeWire (·.index < count) := by
  intro input wire rest accepted
  obtain ⟨index, rest', read, checked⟩ := of_bind accepted
  obtain ⟨rfl, -⟩ := exact_count _ _ _ read
  split at checked
  · rename_i lt
    cases checked
    exact ⟨rfl, lt⟩
  · cases checked

theorem exact_slotWire (count : Nat) :
    Exact (readSlotWire count) writeSlotWire fun slot => ∀ wire ∈ slot, wire.index < count := by
  intro input slot rest accepted
  obtain ⟨there, rest', read, filled⟩ := of_bind accepted
  obtain ⟨rfl, -⟩ := exact_presence _ _ _ read
  cases there with
  | false =>
      cases filled
      exact ⟨rfl, by simp⟩
  | true =>
      obtain ⟨wire, rest'', readWire, ⟨⟩⟩ := of_bind filled
      obtain ⟨rfl, lt⟩ := exact_wire count _ _ _ readWire
      exact ⟨rfl, by simpa using lt⟩

theorem exact_element (F : PrimeField) : Exact (readElement F) PrimeField.toBytes fun _ => True := by
  intro input x rest accepted
  obtain ⟨bytes, rest', read, checked⟩ := of_bind accepted
  obtain ⟨rfl, -⟩ := exact_take _ _ _ _ read
  cases spelled : F.ofBytes? bytes with
  | none =>
      rw [spelled] at checked
      cases checked
  | some x' =>
      rw [spelled] at checked
      cases checked
      exact ⟨by rw [PrimeField.toBytes_of_ofBytes? spelled]; rfl, trivial⟩

theorem exact_index (referrer : Referrer) (number limit : Nat) :
    Exact (readIndex referrer number limit) writeCount (· < limit) := by
  intro input index rest accepted
  obtain ⟨index', rest', read, checked⟩ := of_bind accepted
  obtain ⟨rfl, -⟩ := exact_count _ _ _ read
  split at checked
  · rename_i lt
    cases checked
    exact ⟨rfl, lt⟩
  · cases checked

/-! ## Constraints -/

theorem exact_term (count : Nat) : Exact (readTerm (F := F) count) writeTerm (·.wire.index < count) := by
  intro input term rest accepted
  obtain ⟨wire, rest', read, accepted⟩ := of_bind accepted
  obtain ⟨coefficient, rest'', read', ⟨⟩⟩ := of_bind accepted
  obtain ⟨rfl, lt⟩ := exact_wire count _ _ _ read
  obtain ⟨rfl, -⟩ := exact_element F _ _ _ read'
  exact ⟨(List.append_assoc ..).symm, lt⟩

theorem exact_combination (count : Nat) : Exact (verbatimCombination (F := F) count) writeCombination
    fun x => x.Below count ∧ IsCount x.terms.length := by
  intro input x rest accepted
  obtain ⟨constant, rest', read, accepted⟩ := of_bind accepted
  obtain ⟨terms, rest'', read', ⟨⟩⟩ := of_bind accepted
  obtain ⟨rfl, -⟩ := exact_element F _ _ _ read
  obtain ⟨rfl, isCount, each⟩ := exact_list (exact_term count) _ _ _ read'
  refine ⟨(List.append_assoc ..).symm, fun wire hwire => ?_, isCount⟩
  obtain ⟨term, hterm, rfl⟩ := List.mem_map.mp hwire
  exact each term hterm

theorem exact_triple (count : Nat) : Exact (verbatimTriple (F := F) count) writeTriple
    fun triple => (∀ wire ∈ triple.wires, wire.index < count) ∧ ∀ x ∈ triple.combinations, IsCount x.terms.length := by
  intro input triple rest accepted
  obtain ⟨left, rest', readLeft, accepted⟩ := of_bind accepted
  obtain ⟨right, rest'', readRight, accepted⟩ := of_bind accepted
  obtain ⟨output, rest''', readOutput, ⟨⟩⟩ := of_bind accepted
  obtain ⟨rfl, leftBelow, leftTerms⟩ := exact_combination count _ _ _ readLeft
  obtain ⟨rfl, rightBelow, rightTerms⟩ := exact_combination count _ _ _ readRight
  obtain ⟨rfl, outputBelow, outputTerms⟩ := exact_combination count _ _ _ readOutput
  refine ⟨by simp only [writeTriple, List.append_assoc], ?_, by simp [Triple.combinations, *]⟩
  simp only [Triple.wires, List.forall_mem_append]
  exact ⟨⟨leftBelow, rightBelow⟩, outputBelow⟩

theorem exact_gate (count : Nat) : Exact (readGate (F := F) count) writeGate
    fun gate => ∀ wire ∈ gate.wires, wire.index < count := by
  intro input gate rest accepted
  obtain ⟨qL, _, readL, accepted⟩ := of_bind accepted
  obtain ⟨qR, _, readR, accepted⟩ := of_bind accepted
  obtain ⟨qO, _, readO, accepted⟩ := of_bind accepted
  obtain ⟨qM, _, readM, accepted⟩ := of_bind accepted
  obtain ⟨qC, _, readC, accepted⟩ := of_bind accepted
  obtain ⟨l, _, readLeft, accepted⟩ := of_bind accepted
  obtain ⟨r, _, readRight, accepted⟩ := of_bind accepted
  obtain ⟨o, _, readOutput, ⟨⟩⟩ := of_bind accepted
  obtain ⟨rfl, -⟩ := exact_element F _ _ _ readL
  obtain ⟨rfl, -⟩ := exact_element F _ _ _ readR
  obtain ⟨rfl, -⟩ := exact_element F _ _ _ readO
  obtain ⟨rfl, -⟩ := exact_element F _ _ _ readM
  obtain ⟨rfl, -⟩ := exact_element F _ _ _ readC
  obtain ⟨rfl, left⟩ := exact_slotWire count _ _ _ readLeft
  obtain ⟨rfl, right⟩ := exact_slotWire count _ _ _ readRight
  obtain ⟨rfl, output⟩ := exact_slotWire count _ _ _ readOutput
  refine ⟨by simp [writeGate], fun wire hwire => ?_⟩
  rcases Gate.mem_wires.mp hwire with h | h | h
  · exact left wire h
  · exact right wire h
  · exact output wire h

theorem exact_slotRef (gates : Nat) : Exact (readSlotRef gates) writeSlotRef (·.gate < gates) := by
  intro input ref rest accepted
  obtain ⟨gate, rest', readGate, accepted⟩ := of_bind accepted
  obtain ⟨slot, rest'', readSlot, ⟨⟩⟩ := of_bind accepted
  obtain ⟨rfl, lt⟩ := exact_index .copy gates gates _ _ _ readGate
  obtain ⟨rfl, -⟩ := exact_slot _ _ _ readSlot
  exact ⟨(List.append_assoc ..).symm, lt⟩

theorem exact_copy (gates : Nat) : Exact (readCopy gates) writeCopy
    fun copy => copy.source.gate < gates ∧ copy.target.gate < gates := by
  intro input copy rest accepted
  obtain ⟨source, rest', readSource, accepted⟩ := of_bind accepted
  obtain ⟨target, rest'', readTarget, ⟨⟩⟩ := of_bind accepted
  obtain ⟨rfl, sourceLt⟩ := exact_slotRef gates _ _ _ readSource
  obtain ⟨rfl, targetLt⟩ := exact_slotRef gates _ _ _ readTarget
  exact ⟨(List.append_assoc ..).symm, sourceLt, targetLt⟩

/-- What the reader of constraints sees to, given the number of wires. -/
structure Sees (backend : Backend) (count : Nat) (constraints : Constraints F) : Prop where
  backend : constraints.backend = backend
  wires : ∀ c ∈ constraints.toList, ∀ wire ∈ c.wires, wire.index < count
  linked : constraints.Linked
  counts : ∀ n ∈ constraints.counts, IsCount n

theorem exact_constraints (backend : Backend) (count : Nat) :
    Exact (verbatimConstraints (F := F) backend count) writeConstraints (Sees backend count) := by
  intro input constraints rest accepted
  cases backend with
  | rank1 =>
      obtain ⟨triples, rest', read, ⟨⟩⟩ := of_bind accepted
      obtain ⟨rfl, length, each⟩ := exact_list (exact_triple count) _ _ _ read
      refine ⟨rfl, rfl, ?_, trivial, List.forall_mem_cons.mpr ⟨length, ?_⟩⟩
      · rintro c hc
        obtain ⟨triple, htriple, rfl⟩ := List.mem_map.mp hc
        exact (each triple htriple).1
      · intro n hn
        obtain ⟨triple, htriple, hn⟩ := List.mem_flatMap.mp hn
        obtain ⟨x, hx, rfl⟩ := List.mem_map.mp hn
        exact (each triple htriple).2 x hx
  | gate =>
      obtain ⟨gates, rest', readGates, accepted⟩ := of_bind accepted
      obtain ⟨copies, rest'', readCopies, ⟨⟩⟩ := of_bind accepted
      obtain ⟨rfl, length, each⟩ := exact_list (exact_gate count) _ _ _ readGates
      obtain ⟨rfl, copiesLength, linked⟩ := exact_list (exact_copy gates.length) _ _ _ readCopies
      refine ⟨(List.append_assoc ..).symm, rfl, ?_, linked, by simp [Constraints.counts, *]⟩
      rintro c hc
      obtain ⟨gate, hgate, rfl⟩ := List.mem_map.mp hc
      exact each gate hgate

/-! ## Inputs and hints -/

theorem exact_input (count : Nat) : Exact (readInput count) writeInput
    fun input => input.wire.index < count ∧ input.name.utf8ByteSize < 2 ^ 32 := by
  intro bytes input rest accepted
  obtain ⟨wire, rest', read, accepted⟩ := of_bind accepted
  obtain ⟨name, rest'', readName, ⟨⟩⟩ := of_bind accepted
  obtain ⟨rfl, lt⟩ := exact_wire count _ _ _ read
  obtain ⟨rfl, fits⟩ := exact_text .inputName _ _ _ readName
  exact ⟨(List.append_assoc ..).symm, lt, fits⟩

/-- What the reader of bindings sees to, given the numbers of wires and of constraints. -/
structure SeesBinding (count constraints : Nat) (b : HintBinding) : Prop where
  wires : ∀ wire ∈ b.wires, wire.index < count
  position : b.position ≤ constraints
  name : b.name.utf8ByteSize < 2 ^ 32
  inputs : IsCount b.inputs.length
  outputs : IsCount b.outputs.length

theorem exact_binding (count constraints : Nat) :
    Exact (readBinding count constraints) writeBinding (SeesBinding count constraints) := by
  intro bytes b rest accepted
  obtain ⟨name, _, readName, accepted⟩ := of_bind accepted
  obtain ⟨position, _, readPosition, accepted⟩ := of_bind accepted
  obtain ⟨inputs, _, readInputs, accepted⟩ := of_bind accepted
  obtain ⟨outputs, _, readOutputs, ⟨⟩⟩ := of_bind accepted
  obtain ⟨rfl, nameFits⟩ := exact_text .hintName _ _ _ readName
  obtain ⟨rfl, before⟩ := exact_index .hintBinding constraints (constraints + 1) _ _ _ readPosition
  obtain ⟨rfl, inputsLength, inputsLt⟩ := exact_list (exact_wire count) _ _ _ readInputs
  obtain ⟨rfl, outputsLength, outputsLt⟩ := exact_list (exact_wire count) _ _ _ readOutputs
  refine ⟨by simp only [writeBinding, List.append_assoc], ?_, Nat.le_of_lt_succ before, nameFits,
    inputsLength, outputsLength⟩
  exact List.forall_mem_append.mpr ⟨inputsLt, outputsLt⟩

/-! ## Systems -/

theorem exact_header (F : PrimeField) :
    Exact (readHeader F) (fun _ => magic ++ bigEndian 2 version ++ writeBytes (modulusBytes F))
      fun _ => F.byteLength < 2 ^ 32 := by
  intro input _ rest accepted
  obtain ⟨found, _, readMagic, checked⟩ := of_bind accepted
  obtain ⟨same, checked⟩ := of_check checked
  obtain ⟨found', _, readVersion, checked⟩ := of_bind checked
  obtain ⟨same', checked⟩ := of_check checked
  obtain ⟨found'', _, readModulus, last⟩ := of_bind checked
  obtain ⟨rfl, -⟩ := exact_take _ _ _ _ readMagic
  obtain ⟨rfl, -⟩ := exact_nat 2 _ _ _ readVersion
  obtain ⟨rfl, fits⟩ := exact_bytes _ _ _ readModulus
  obtain rfl := not_not.mp same
  obtain rfl := not_not.mp same'
  split at last
  · cases last
  · rename_i same''
    cases last
    obtain rfl := not_not.mp same''
    exact ⟨by simp only [id, List.append_assoc], by rwa [modulusBytes, length_bigEndian] at fits⟩

/-- Bytes are the byte form of the system that they list, and what they list can be spelled. -/
theorem exact_system (F : PrimeField) : Exact (verbatimSystem F) System.toBytes System.Spellable := by
  intro input system rest accepted
  obtain ⟨_, _, read, accepted⟩ := of_bind accepted
  obtain ⟨backend, _, readBackend, accepted⟩ := of_bind accepted
  obtain ⟨roles, _, readRoles, accepted⟩ := of_bind accepted
  obtain ⟨publicInputs, _, readPublic, accepted⟩ := of_bind accepted
  obtain ⟨secretInputs, _, readSecret, accepted⟩ := of_bind accepted
  obtain ⟨constraints, _, readConstraints, accepted⟩ := of_bind accepted
  obtain ⟨hints, _, readHints, ⟨⟩⟩ := of_bind accepted
  obtain ⟨rfl, modulus⟩ := exact_header F _ _ _ read
  obtain ⟨rfl, -⟩ := exact_backend _ _ _ readBackend
  obtain ⟨rfl, wires, -⟩ := exact_list exact_role _ _ _ readRoles
  obtain ⟨rfl, publicLength, eachPublic⟩ := exact_list (exact_input _) _ _ _ readPublic
  obtain ⟨rfl, secretLength, eachSecret⟩ := exact_list (exact_input _) _ _ _ readSecret
  obtain ⟨rfl, sees⟩ := exact_constraints _ _ _ _ _ readConstraints
  obtain ⟨rfl, hintsLength, eachHint⟩ := exact_list (exact_binding _ _) _ _ _ readHints
  have inputs := List.forall_mem_append.mpr ⟨eachPublic, eachSecret⟩
  refine ⟨by simp only [System.toBytes, System.backend, sees.backend, List.append_assoc], ?_⟩
  refine ⟨⟨fun i hi => (inputs i hi).1, ?_⟩, fun b hb => (eachHint b hb).position, sees.linked, modulus, ?_, ?_⟩
  · intro wire hwire
    rcases System.mem_mentioned.mp hwire with ⟨c, hc, hwire⟩ | ⟨b, hb, hwire⟩
    · exact sees.wires c hc wire hwire
    · exact (eachHint b hb).wires wire hwire
  · simp only [System.texts, List.forall_mem_append, List.forall_mem_map]
    exact ⟨⟨fun i hi => (eachPublic i hi).2, fun i hi => (eachSecret i hi).2⟩, fun b hb => (eachHint b hb).name⟩
  · simp only [System.counts, List.forall_mem_append, List.forall_mem_flatMap]
    refine ⟨⟨?_, sees.counts⟩, fun b hb => ?_⟩
    · simpa using ⟨wires, publicLength, secretLength, hintsLength⟩
    · simpa using ⟨(eachHint b hb).inputs, (eachHint b hb).outputs⟩

/-! ## Lengths -/

theorem length_writeCombination (x : LinearCombination F) :
    (writeCombination x).length = F.byteLength + (8 + x.terms.length * (8 + F.byteLength)) := by
  have each : ∀ terms : List (Term F), (terms.flatMap writeTerm).length = terms.length * (8 + F.byteLength) := by
    intro terms
    induction terms with
    | nil => simp
    | cons term rest ih =>
        rw [List.flatMap_cons, List.length_append, ih, List.length_cons, Nat.succ_mul, Nat.add_comm]
        simp [writeTerm, writeWire, writeCount]
  simp [writeCombination, writeList, writeCount, each]

theorem length_writeCombination_merged_le (x : LinearCombination F) :
    (writeCombination x.merged).length ≤ (writeCombination x).length := by
  rw [length_writeCombination, length_writeCombination]
  gcongr
  exact x.length_merged_le

theorem length_writeTriple_merged_le (triple : Triple F) :
    (writeTriple triple.merged).length ≤ (writeTriple triple).length := by
  simp only [writeTriple, Triple.merged, List.length_append]
  gcongr <;> exact length_writeCombination_merged_le _

theorem length_writeConstraints_merged_le (constraints : Constraints F) :
    (writeConstraints constraints.merged).length ≤ (writeConstraints constraints).length := by
  cases constraints with
  | rank1 triples =>
      have shorter : ((triples.map Triple.merged).flatMap writeTriple).length ≤ (triples.flatMap writeTriple).length := by
        rw [List.flatMap_map, List.length_flatMap, List.length_flatMap]
        exact List.sum_le_sum fun triple _ => length_writeTriple_merged_le triple
      simpa [writeConstraints, Constraints.merged, writeList, writeCount] using shorter
  | gate gates copies => exact Nat.le_refl _

end ByteForm

/-! ## Spellings -/

theorem Constraints.counts_merged {constraints : Constraints F} {bound : Nat}
    (h : ∀ n ∈ constraints.counts, n < bound) : ∀ n ∈ constraints.merged.counts, n < bound := by
  cases constraints with
  | rank1 triples =>
      obtain ⟨length, terms⟩ := List.forall_mem_cons.mp h
      refine List.forall_mem_cons.mpr ⟨by rwa [List.length_map], fun n hn => ?_⟩
      obtain ⟨merged, hmerged, hn⟩ := List.mem_flatMap.mp hn
      obtain ⟨triple, htriple, rfl⟩ := List.mem_map.mp hmerged
      have shorter (x : LinearCombination F) (hx : x ∈ triple.combinations) : x.merged.terms.length < bound :=
        Nat.lt_of_le_of_lt x.length_merged_le
          (terms _ (List.mem_flatMap.mpr ⟨triple, htriple, List.mem_map_of_mem hx⟩))
      simp only [Triple.combinations, List.forall_mem_cons] at shorter
      simp only [Triple.merged, List.map_cons, List.map_nil, List.mem_cons, List.not_mem_nil, or_false] at hn
      rcases hn with rfl | rfl | rfl
      · exact shorter.1
      · exact shorter.2.1
      · exact shorter.2.2.1
  | gate gates copies => exact h

theorem Constraints.Linked.merged {constraints : Constraints F} (h : constraints.Linked) :
    constraints.merged.Linked := by
  cases constraints with
  | rank1 triples => trivial
  | gate gates copies => exact h

namespace System

open ByteForm

variable {bytes bytes' : List UInt8} {system listed listed' : System F}

theorem Fits.merged (h : listed.Fits) : listed.merged.Fits where
  modulus := h.modulus
  texts := h.texts
  counts := by
    obtain ⟨⟨own, constraints⟩, hints⟩ :=
      (List.forall_mem_append.mp h.counts).imp_left List.forall_mem_append.mp
    exact List.forall_mem_append.mpr
      ⟨List.forall_mem_append.mpr ⟨own, Constraints.counts_merged constraints⟩, hints⟩

theorem Spellable.merged (h : listed.Spellable) : listed.merged.Spellable :=
  ⟨h.inRange.merged, h.scheduled.merged, h.linked.merged, h.fits.merged⟩

/-- Bytes spell a system word for word if and only if they are its byte form and it can be spelled. -/
theorem verbatim_eq_ok : System.verbatim F bytes = .ok listed ↔ listed.Spellable ∧ listed.toBytes = bytes := by
  constructor
  · intro accepted
    have read : verbatimSystem F bytes = .ok (listed, []) := by
      rw [verbatim] at accepted
      split at accepted
      · cases accepted
      · cases accepted
        assumption
      · cases accepted
    obtain ⟨spelled, spellable⟩ := exact_system F _ _ _ read
    exact ⟨spellable, by rw [spelled, List.append_nil]⟩
  · rintro ⟨spellable, rfl⟩
    exact verbatim_toBytes spellable

theorem toBytes_inj (h : listed.Spellable) (h' : listed'.Spellable) : listed.toBytes = listed'.toBytes ↔ listed = listed' := by
  refine ⟨fun same => ?_, congrArg toBytes⟩
  have read := verbatim_toBytes h
  rw [same, verbatim_toBytes h'] at read
  exact (Except.ok.inj read).symm

theorem ofBytes_eq_ok :
    System.ofBytes F bytes = .ok system ↔ ∃ listed, System.verbatim F bytes = .ok listed ∧ listed.merged = system := by
  rw [ofBytes_eq]
  cases System.verbatim F bytes with
  | error e => exact ⟨nofun, nofun⟩
  | ok listed => exact ⟨fun same => ⟨listed, rfl, Except.ok.inj same⟩, fun ⟨_, rfl, same⟩ => congrArg Except.ok same⟩

theorem length_toBytes_merged_le (listed : System F) : listed.merged.toBytes.length ≤ listed.toBytes.length := by
  have shorter := length_writeConstraints_merged_le listed.constraints
  simp only [toBytes, merged, backend, Constraints.backend_merged, List.length_append]
  omega

/-- What bytes spell is a fixed point of writing and reading. Bytes of gates are its byte form, and other
bytes are if and only if every combination lists its terms in increasing order and without zeros; its
combinations have the values of those that are listed, and it is written no longer. Other bytes spell the
same system if and only if they list the terms of combinations in another way. -/
theorem ofBytes_exact (accepted : System.ofBytes F bytes = .ok system) :
    System.ofBytes F system.toBytes = .ok system ∧
    (system.backend = .gate → system.toBytes = bytes) ∧
    system.toBytes.length ≤ bytes.length ∧
    ∃ listed : System F, System.verbatim F bytes = .ok listed ∧ listed.toBytes = bytes ∧ listed.merged = system ∧
      (system.toBytes = bytes ↔ ∀ x ∈ listed.combinations, x.Canonical) ∧
      List.Forall₂ (fun x y => ∀ value, LinearCombination.evalWith y value = x.evalWith value)
        listed.combinations system.combinations ∧
      ∀ bytes', System.ofBytes F bytes' = .ok system ↔
        ∃ listed' : System F, System.verbatim F bytes' = .ok listed' ∧ listed'.Respells listed := by
  obtain ⟨listed, read, rfl⟩ := ofBytes_eq_ok.mp accepted
  obtain ⟨spellable, rfl⟩ := verbatim_eq_ok.mp read
  have canonical : listed.merged.toBytes = listed.toBytes ↔ ∀ x ∈ listed.combinations, x.Canonical := by
    rw [toBytes_inj spellable.merged spellable, merged_eq_self]
  refine ⟨?_, fun gate => canonical.mpr ?_, listed.length_toBytes_merged_le, listed, read, rfl, rfl, canonical,
    listed.merged_values, fun bytes' => ?_⟩
  · exact ofBytes_eq_ok.mpr ⟨listed.merged, verbatim_toBytes spellable.merged, listed.merged_merged⟩
  · obtain ⟨roles, publicInputs, secretInputs, constraints, hints⟩ := listed
    cases constraints with
    | rank1 triples => cases gate
    | gate gates copies => simp [combinations, Constraints.combinations]
  · simp only [ofBytes_eq_ok, merged_eq_iff]

theorem ofBytes_wordy : ∃ system, System.ofBytes .seven wordy.toBytes = .ok system ∧
    System.ofBytes .seven system.toBytes = .ok system ∧ system.toBytes.length < wordy.toBytes.length := by
  have accepted : System.ofBytes .seven wordy.toBytes = .ok wordy.merged := by decide +kernel
  exact ⟨wordy.merged, accepted, (ofBytes_exact accepted).1, by decide +kernel⟩

end System

end ArithCircuit
