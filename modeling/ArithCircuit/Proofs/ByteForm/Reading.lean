import ArithCircuit.ByteForm.Reader
import ArithCircuit.Proofs.Field.Bytes

/-!
# Readers take what writers give

A reader reads a piece of input if it takes the piece and no more, whatever comes behind it. Readers
in sequence read their pieces in sequence.
-/

namespace ArithCircuit.ByteForm

variable {F : PrimeField} {α β : Type}

/-! ## Sequences -/

section Sequence

variable {reader : Reader α} {next : α → Reader β} {input middle rest : List UInt8} {a : α} {b : β}

theorem bind_of_ok (h : reader input = .ok (a, rest)) : (reader >>= next) input = next a rest := by
  show (do let (a, rest) ← reader input; next a rest) = _
  rw [h]
  rfl

theorem bind_of_error {e : FormatError} (h : reader input = .error e) : (reader >>= next) input = .error e := by
  show (do let (a, rest) ← reader input; next a rest) = _
  rw [h]
  rfl

/-- A sequence that accepts is made of readers that accept. -/
theorem of_bind (h : (reader >>= next) input = .ok (b, rest)) :
    ∃ a middle, reader input = .ok (a, middle) ∧ next a middle = .ok (b, rest) := by
  cases read : reader input with
  | error e =>
      rw [bind_of_error read] at h
      cases h
  | ok result =>
      rw [bind_of_ok read] at h
      exact ⟨result.1, result.2, rfl, h⟩

/-- A check that lets the input pass. -/
theorem of_check {next : Unit → Reader β} {p : Prop} [Decidable p] {e : FormatError}
    (h : (if p then throw e >>= next else next ()) input = .ok (b, rest)) : ¬ p ∧ next () input = .ok (b, rest) := by
  split at h
  · cases h
  · exact ⟨by assumption, h⟩

end Sequence

/-! ## Pieces -/

/-- The reader takes the bytes, and no more, for the value. -/
def Reads (reader : Reader α) (bytes : List UInt8) (a : α) : Prop :=
  ∀ rest, reader (bytes ++ rest) = .ok (a, rest)

variable {reader : Reader α} {bytes bytes' : List UInt8} {a : α} {b : β}

theorem reads_pure (a : α) : Reads (pure a) [] a := fun _ => rfl

theorem Reads.alone (h : Reads reader bytes a) : reader bytes = .ok (a, []) := by
  simpa using h []

theorem Reads.bind {next : α → Reader β} (first : Reads reader bytes a) (second : Reads (next a) bytes' b) :
    Reads (reader >>= next) (bytes ++ bytes') b := by
  intro rest
  rw [List.append_assoc, bind_of_ok (first _)]
  exact second rest

/-- What comes last may need no input. -/
theorem Reads.result {next : α → Reader β} (first : Reads reader bytes a) (second : Reads (next a) [] b) :
    Reads (reader >>= next) bytes b := by
  rw [← List.append_nil bytes]
  exact first.bind second

theorem Reads.map (first : Reads reader bytes a) (f : α → β) : Reads (f <$> reader) bytes (f a) := by
  intro rest
  show (do let (a, rest) ← reader (bytes ++ rest); pure (f a, rest)) = _
  rw [first]
  rfl

/-! ## Numbers and lists -/

theorem reads_take {n : Nat} (length : bytes.length = n) : Reads (take n) bytes bytes := by
  intro rest
  subst length
  simp [take]

theorem reads_nat {width n : Nat} (fits : n < 256 ^ width) : Reads (readNat width) (bigEndian width n) n := by
  have read := (reads_take (length_bigEndian width n)).map ofBigEndian
  rwa [ofBigEndian_bigEndian fits] at read

/-- The numbers that eight bytes hold. -/
def IsCount (n : Nat) : Prop := n < 2 ^ 64

theorem reads_count {n : Nat} (count : IsCount n) : Reads readCount (writeCount n) n := reads_nat count

theorem reads_bytes (fits : bytes.length < 2 ^ 32) : Reads readBytes (writeBytes bytes) bytes :=
  (reads_nat fits).bind (reads_take rfl)

theorem reads_many {write : α → List UInt8} {items : List α} (each : ∀ a ∈ items, Reads reader (write a) a) :
    Reads (readMany reader items.length) (items.flatMap write) items := by
  induction items with
  | nil => exact reads_pure []
  | cons a items ih =>
      rw [List.flatMap_cons]
      exact (each a List.mem_cons_self).bind
        ((ih fun a ha => each a (List.mem_cons_of_mem _ ha)).map (a :: ·))

theorem reads_list {write : α → List UInt8} {items : List α} (count : IsCount items.length)
    (each : ∀ a ∈ items, Reads reader (write a) a) : Reads (readList reader) (writeList write items) items :=
  (reads_count count).bind (reads_many each)

/-! ## Texts and tags -/

theorem toList_loop (bytes : ByteArray) (i : Nat) (before : List UInt8) :
    ByteArray.toList.loop bytes i before = before.reverse ++ bytes.data.toList.drop i := by
  induction i, before using ByteArray.toList.loop.induct bytes with
  | case1 i before inside ih =>
      have inside' : i < bytes.data.toList.length := inside
      have first : bytes.get! i = bytes.data.toList[i] := by
        simpa [ByteArray.get!] using getElem!_pos bytes.data i inside
      rw [ByteArray.toList.loop, if_pos inside, ih, List.drop_eq_getElem_cons inside', first, List.reverse_cons,
        List.append_assoc]
      rfl
  | case2 i before outside =>
      rw [ByteArray.toList.loop, if_neg outside, List.drop_eq_nil_of_le (Nat.le_of_not_lt outside), List.append_nil]

theorem toList_byteArray (bytes : ByteArray) : bytes.toList = bytes.data.toList := by
  rw [ByteArray.toList, toList_loop]
  rfl

theorem fromUTF8?_toUTF8 (s : String) : String.fromUTF8? ⟨s.toUTF8.toList.toArray⟩ = some s := by
  rw [toList_byteArray, show (⟨s.toUTF8.data.toList.toArray⟩ : ByteArray) = s.toByteArray from rfl,
    String.fromUTF8?, dif_pos s.isValidUTF8]
  rfl

theorem reads_text (kind : TextKind) {s : String} (fits : s.utf8ByteSize < 2 ^ 32) :
    Reads (readText kind) (writeText s) s := by
  have length : s.toUTF8.toList.length < 2 ^ 32 := by
    rw [toList_byteArray]
    exact fits
  refine (reads_bytes length).result ?_
  rw [fromUTF8?_toUTF8]
  exact reads_pure s

end ArithCircuit.ByteForm
