import ArithCircuit.Proofs.ByteForm.Reading

/-!
# The byte form delimits itself

A reader that takes a piece of input takes it wherever it stands. On a piece that ends early it does
the same up to the end, so what stops it there is the end and no other fault.
-/

namespace ArithCircuit

namespace ByteForm

variable {F : PrimeField} {α β : Type} {reader : Reader α}

/-- The reader takes the bytes for the value, and runs out of input where they end early. -/
structure Delimits (reader : Reader α) (bytes : List UInt8) (a : α) : Prop where
  reads : Reads reader bytes a
  short : ∀ before after, bytes = before ++ after → after ≠ [] → reader before = .error .shortInput

/-- What the reader accepts delimits itself. -/
def Delimited (reader : Reader α) : Prop :=
  ∀ input a rest, reader input = .ok (a, rest) → ∃ bytes, input = bytes ++ rest ∧ Delimits reader bytes a

/-! ## Readers in sequence -/

theorem Delimits.bind {next : α → Reader β} {bytes bytes' : List UInt8} {a : α} {b : β}
    (first : Delimits reader bytes a) (second : Delimits (next a) bytes' b) :
    Delimits (reader >>= next) (bytes ++ bytes') b := by
  refine ⟨first.reads.bind second.reads, fun before after split more => ?_⟩
  rcases List.append_eq_append_iff.mp split with ⟨early, rfl, cut⟩ | ⟨missing, whole, cut⟩
  · -- The end is in the second piece, or between the two.
    rw [bind_of_ok (first.reads early)]
    exact second.short early after cut more
  · cases missing with
    | nil =>
        rw [List.append_nil] at whole
        rw [← whole, bind_of_ok (first.reads.alone)]
        exact second.short [] bytes' rfl (by rintro rfl; exact more cut)
    | cons byte missing => exact bind_of_error (first.short before _ whole (List.cons_ne_nil _ _))

theorem delimited_pure (a : α) : Delimited (pure a) := by
  rintro input _ _ ⟨⟩
  refine ⟨[], rfl, reads_pure a, fun before after split more => ?_⟩
  exact absurd (List.append_eq_nil_iff.mp split.symm).2 more

theorem delimited_throw (e : FormatError) : Delimited (throw e : Reader α) := by
  rintro input a rest ⟨⟩

theorem Delimited.bind {next : α → Reader β} (first : Delimited reader) (second : ∀ a, Delimited (next a)) :
    Delimited (reader >>= next) := by
  intro input b rest accepted
  obtain ⟨a, middle, read, readNext⟩ := of_bind accepted
  obtain ⟨bytes, rfl, delimits⟩ := first _ _ _ read
  obtain ⟨bytes', rfl, delimits'⟩ := second a _ _ _ readNext
  exact ⟨bytes ++ bytes', (List.append_assoc ..).symm, delimits.bind delimits'⟩

theorem Delimited.map (f : α → β) (h : Delimited reader) : Delimited (f <$> reader) := by
  rw [← bind_pure_comp]
  exact h.bind fun a => delimited_pure (f a)

theorem Delimited.ite {other : Reader α} {p : Prop} [Decidable p] (h : Delimited reader) (h' : Delimited other) :
    Delimited (if p then reader else other) := by
  split
  · exact h
  · exact h'

/-- A fault, or what comes next. -/
theorem Delimited.check {next : Unit → Reader α} {p : Prop} [Decidable p] (e : FormatError) (h : Delimited (next ())) :
    Delimited (if p then throw e >>= next else next ()) :=
  ((delimited_throw e).bind fun _ => h).ite h

/-! ## Numbers, lists and texts -/

theorem delimited_take (n : Nat) : Delimited (take n) := by
  intro input taken rest accepted
  rw [take] at accepted
  split at accepted
  · rename_i enough
    cases accepted
    refine ⟨input.take n, (List.take_append_drop n input).symm, reads_take enough, fun before after split more => ?_⟩
    have early : before.length < n := by
      have total := congrArg List.length split
      rw [enough, List.length_append] at total
      have := List.length_pos_iff.mpr more
      omega
    rw [take, if_neg (by rw [List.length_take]; omega)]
  · cases accepted

theorem delimited_nat (width : Nat) : Delimited (readNat width) := (delimited_take width).map ofBigEndian

theorem delimited_count : Delimited readCount := delimited_nat 8

theorem delimited_bytes : Delimited readBytes := (delimited_nat 4).bind delimited_take

theorem delimited_many (h : Delimited reader) (n : Nat) : Delimited (readMany reader n) := by
  induction n with
  | zero => exact delimited_pure []
  | succ n ih => exact h.bind fun a => ih.bind fun items => delimited_pure (a :: items)

theorem delimited_list (h : Delimited reader) : Delimited (readList reader) :=
  delimited_count.bind (delimited_many h)

theorem delimited_text (kind : TextKind) : Delimited (readText kind) := by
  refine delimited_bytes.bind fun bytes => ?_
  split
  · exact delimited_pure _
  · exact delimited_throw _

theorem delimited_tag (kind : TagKind) (ofTag : Nat → Option α) : Delimited (readTag kind ofTag) := by
  refine (delimited_nat 1).bind fun tag => ?_
  split
  · exact delimited_pure _
  · exact delimited_throw _

/-! ## Wires and elements -/

theorem delimited_wire (count : Nat) : Delimited (readWire count) :=
  delimited_count.bind fun _ => (delimited_pure _).ite (delimited_throw _)

theorem delimited_slotWire (count : Nat) : Delimited (readSlotWire count) :=
  (delimited_tag .slot presenceOfTag).bind fun _ =>
    ((delimited_wire count).bind fun wire => delimited_pure (some wire)).ite (delimited_pure none)

theorem delimited_element (F : PrimeField) : Delimited (readElement F) := by
  refine (delimited_take F.byteLength).bind fun bytes => ?_
  split
  · exact delimited_pure _
  · exact delimited_throw _

theorem delimited_index (referrer : Referrer) (count limit : Nat) : Delimited (readIndex referrer count limit) :=
  delimited_count.bind fun _ => (delimited_pure _).ite (delimited_throw _)

/-! ## Constraints -/

theorem delimited_term (count : Nat) : Delimited (readTerm (F := F) count) :=
  (delimited_wire count).bind fun _ => (delimited_element F).bind fun _ => delimited_pure _

theorem delimited_combination (count : Nat) : Delimited (readCombination (F := F) count) :=
  (delimited_element F).bind fun _ => (delimited_list (delimited_term count)).bind fun _ => delimited_pure _

theorem delimited_triple (count : Nat) : Delimited (readTriple (F := F) count) :=
  (delimited_combination count).bind fun _ => (delimited_combination count).bind fun _ =>
    (delimited_combination count).bind fun _ => delimited_pure _

theorem delimited_gate (count : Nat) : Delimited (readGate (F := F) count) :=
  (delimited_element F).bind fun _ => (delimited_element F).bind fun _ => (delimited_element F).bind fun _ =>
    (delimited_element F).bind fun _ => (delimited_element F).bind fun _ =>
      (delimited_slotWire count).bind fun _ => (delimited_slotWire count).bind fun _ =>
        (delimited_slotWire count).bind fun _ => delimited_pure _

theorem delimited_slotRef (gates : Nat) : Delimited (readSlotRef gates) :=
  (delimited_index .copy gates gates).bind fun _ => (delimited_tag .slot slotOfTag).bind fun _ => delimited_pure _

theorem delimited_copy (gates : Nat) : Delimited (readCopy gates) :=
  (delimited_slotRef gates).bind fun _ => (delimited_slotRef gates).bind fun _ => delimited_pure _

theorem delimited_constraints (backend : Backend) (count : Nat) :
    Delimited (readConstraints (F := F) backend count) := by
  cases backend with
  | rank1 => exact (delimited_list (delimited_triple count)).bind fun _ => delimited_pure _
  | gate =>
      exact (delimited_list (delimited_gate count)).bind fun gates =>
        (delimited_list (delimited_copy gates.length)).bind fun _ => delimited_pure _

/-! ## Systems -/

theorem delimited_input (count : Nat) : Delimited (readInput count) :=
  (delimited_wire count).bind fun _ => (delimited_text .inputName).bind fun _ => delimited_pure _

theorem delimited_binding (count constraints : Nat) : Delimited (readBinding count constraints) :=
  (delimited_text .hintName).bind fun _ => (delimited_index .hintBinding constraints (constraints + 1)).bind fun _ =>
    (delimited_list (delimited_wire count)).bind fun _ => (delimited_list (delimited_wire count)).bind fun _ =>
      delimited_pure _

theorem delimited_header (F : PrimeField) : Delimited (readHeader F) :=
  (delimited_take magic.length).bind fun _ => .check _ <| (delimited_nat 2).bind fun _ =>
    .check _ <| delimited_bytes.bind fun _ => (delimited_throw _).ite (delimited_pure ())

theorem delimited_system (F : PrimeField) : Delimited (readSystem F) :=
  (delimited_header F).bind fun _ => (delimited_tag .backend backendOfTag).bind fun backend =>
    (delimited_list (delimited_tag .role roleOfTag)).bind fun roles =>
      (delimited_list (delimited_input roles.length)).bind fun _ =>
        (delimited_list (delimited_input roles.length)).bind fun _ =>
          (delimited_constraints backend roles.length).bind fun constraints =>
            (delimited_list (delimited_binding roles.length constraints.size)).bind fun _ => delimited_pure _

end ByteForm

namespace System

open ByteForm

variable {F : PrimeField} {bytes : List UInt8} {system : System F}

/-- The bytes of a system are read to their end. -/
theorem readSystem_of_ofBytes (accepted : System.ofBytes F bytes = .ok system) :
    readSystem F bytes = .ok (system, []) := by
  rw [ofBytes] at accepted
  split at accepted
  · cases accepted
  · cases accepted
    assumption
  · cases accepted

/-- Where the bytes of a system end early there is too little input, and where something follows them, too much. -/
theorem ofBytes_delimited (accepted : System.ofBytes F bytes = .ok system) :
    (∀ short, short <+: bytes → short ≠ bytes → System.ofBytes F short = .error .shortInput) ∧
      ∀ more, more ≠ [] → System.ofBytes F (bytes ++ more) = .error .trailingBytes := by
  obtain ⟨taken, rfl, reads, short⟩ := delimited_system F _ _ _ (readSystem_of_ofBytes accepted)
  rw [List.append_nil]
  constructor
  · rintro before ⟨after, rfl⟩ different
    have more : after ≠ [] := by
      rintro rfl
      exact different (List.append_nil before).symm
    rw [ofBytes, short before after rfl more]
  · intro more some
    obtain ⟨byte, more, rfl⟩ := List.exists_cons_of_ne_nil some
    rw [ofBytes, reads]

/-- A system whose constraint has more terms than it needs. -/
def wordy : System .seven where
  roles := [.secretInput, .internal]
  publicInputs := []
  secretInputs := [⟨⟨0⟩, "x"⟩]
  constraints := .rank1 [{
    left := { terms := [⟨⟨1⟩, 1⟩, ⟨⟨0⟩, 3⟩, ⟨⟨1⟩, 1⟩] }
    right := .ofConstant 1
    output := { terms := [⟨⟨0⟩, 0⟩], constant := 5 } }]
  hints := [⟨"inverse", [⟨0⟩], [⟨1⟩], 0⟩]

theorem wordy_delimited :
    (∀ short, short <+: wordy.toBytes → short ≠ wordy.toBytes → System.ofBytes .seven short = .error .shortInput) ∧
      ∀ more, more ≠ [] → System.ofBytes .seven (wordy.toBytes ++ more) = .error .trailingBytes := by
  have accepted : System.ofBytes .seven wordy.toBytes = .ok { wordy with constraints := .rank1 [{
      left := { terms := [⟨⟨0⟩, 3⟩, ⟨⟨1⟩, 2⟩] }
      right := .ofConstant 1
      output := .ofConstant 5 }] } := by decide +kernel
  exact ofBytes_delimited accepted

end System

end ArithCircuit
