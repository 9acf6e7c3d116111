import ArithCircuit.ByteForm.Reader
import ArithCircuit.Proofs.System.Merging

/-!
# What bytes spell word for word

Bytes may list the terms of a combination in any order, with repetitions and with zero coefficients, and
the reader merges them. The readers here keep the terms as they are listed.
-/

namespace ArithCircuit

variable {F : PrimeField}

namespace ByteForm

variable {α β : Type}

def verbatimCombination (count : Nat) : Reader (LinearCombination F) := do
  let constant ← readElement F
  return { terms := ← readList (readTerm count), constant }

def verbatimTriple (count : Nat) : Reader (Triple F) := do
  return {
    left := ← verbatimCombination count
    right := ← verbatimCombination count
    output := ← verbatimCombination count }

def verbatimConstraints (backend : Backend) (count : Nat) : Reader (Constraints F) := do
  match backend with
  | .rank1 => return .rank1 (← readList (verbatimTriple count))
  | .gate =>
    let gates ← readList (readGate count)
    return .gate gates (← readList (readCopy gates.length))

def verbatimSystem (F : PrimeField) : Reader (System F) := do
  readHeader F
  let backend ← readTag .backend backendOfTag
  let roles ← readList (readTag .role roleOfTag)
  let publicInputs ← readList (readInput roles.length)
  let secretInputs ← readList (readInput roles.length)
  let constraints ← verbatimConstraints backend roles.length
  let hints ← readList (readBinding roles.length constraints.size)
  return { roles, publicInputs, secretInputs, constraints, hints }

theorem readMany_map (f : α → β) (item : Reader α) (n : Nat) :
    readMany (f <$> item) n = List.map f <$> readMany item n := by
  induction n with
  | zero => rfl
  | succ n ih => simp only [readMany, ih, map_bind, map_pure, bind_map_left, List.map_cons]

theorem readList_map (f : α → β) (item : Reader α) : readList (f <$> item) = List.map f <$> readList item := by
  simp only [readList, readMany_map, map_bind]

theorem readCombination_eq (count : Nat) :
    readCombination (F := F) count = LinearCombination.merged <$> verbatimCombination count := by
  simp only [readCombination, verbatimCombination, map_bind, map_pure]
  rfl

theorem readTriple_eq (count : Nat) : readTriple (F := F) count = Triple.merged <$> verbatimTriple count := by
  simp only [readTriple, verbatimTriple, readCombination_eq, map_bind, map_pure, bind_map_left]
  rfl

theorem readConstraints_eq (backend : Backend) (count : Nat) :
    readConstraints (F := F) backend count = Constraints.merged <$> verbatimConstraints backend count := by
  cases backend with
  | rank1 =>
      simp only [readConstraints, verbatimConstraints, readTriple_eq, readList_map, map_bind, map_pure, bind_map_left]
      rfl
  | gate =>
      simp only [readConstraints, verbatimConstraints, map_bind, map_pure]
      rfl

/-- Reading a system is reading it word for word and merging. -/
theorem readSystem_eq (F : PrimeField) : readSystem F = System.merged <$> verbatimSystem F := by
  simp only [readSystem, verbatimSystem, readConstraints_eq, map_bind, map_pure, bind_map_left, Constraints.size_merged]
  rfl

end ByteForm

/-- The system that the bytes spell from the first to the last, with its terms as they are listed. -/
def System.verbatim (F : PrimeField) (bytes : List UInt8) : Except FormatError (System F) :=
  match ByteForm.verbatimSystem F bytes with
  | .error e => .error e
  | .ok (system, []) => .ok system
  | .ok (_, _ :: _) => .error .trailingBytes

theorem System.ofBytes_eq (F : PrimeField) (bytes : List UInt8) :
    System.ofBytes F bytes = System.merged <$> System.verbatim F bytes := by
  rw [ofBytes, verbatim, ByteForm.readSystem_eq]
  show (match (do let (a, rest) ← ByteForm.verbatimSystem F bytes; pure (a.merged, rest)) with
    | .error e => _ | .ok (system, []) => _ | .ok (_, _ :: _) => _) = _
  rcases ByteForm.verbatimSystem F bytes with e | ⟨system, _ | ⟨byte, rest⟩⟩ <;> rfl

end ArithCircuit
