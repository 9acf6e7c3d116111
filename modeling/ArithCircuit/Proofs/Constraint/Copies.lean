import ArithCircuit.Constraint.Gate
import Mathlib.Tactic.Common

/-!
# The slots that a copy table links
-/

namespace ArithCircuit

variable {F : PrimeField}

theorem gate_lt_of_occurrence {gates : List (Gate F)} {entry : Wire × SlotRef} (h : entry ∈ occurrences gates) :
    entry.2.gate < gates.length := by
  obtain ⟨⟨gate, index⟩, hgate, hentry⟩ := List.mem_flatMap.mp h
  obtain ⟨slot, -, hslot⟩ := List.mem_filterMap.mp hentry
  obtain ⟨wire, -, rfl⟩ := Option.map_eq_some_iff.mp hslot
  exact (List.mem_zipIdx' hgate).1

/-- A copy links two of the listed slots. -/
theorem mem_of_linkNeighbours {entries : List (Wire × SlotRef)} {copy : Copy} (h : copy ∈ linkNeighbours entries) :
    (∃ entry ∈ entries, entry.2 = copy.source) ∧ ∃ entry ∈ entries, entry.2 = copy.target := by
  induction entries with
  | nil => cases h
  | cons first rest ih =>
      cases rest with
      | nil => cases h
      | cons second rest =>
          have later (h : copy ∈ linkNeighbours (second :: rest)) :
              (∃ entry ∈ first :: second :: rest, entry.2 = copy.source) ∧
                ∃ entry ∈ first :: second :: rest, entry.2 = copy.target := by
            obtain ⟨⟨source, hsource, same⟩, target, htarget, same'⟩ := ih h
            exact ⟨⟨source, List.mem_cons_of_mem _ hsource, same⟩, target, List.mem_cons_of_mem _ htarget, same'⟩
          unfold linkNeighbours at h
          split at h
          · rcases List.mem_cons.mp h with rfl | h
            · exact ⟨⟨first, by simp, rfl⟩, second, by simp, rfl⟩
            · exact later h
          · exact later h

/-- Copies are between slots of the gates that there are. -/
theorem gate_lt_of_copy {gates : List (Gate F)} {copy : Copy} (h : copy ∈ copyTable gates) :
    copy.source.gate < gates.length ∧ copy.target.gate < gates.length := by
  obtain ⟨⟨source, hsource, same⟩, target, htarget, same'⟩ := mem_of_linkNeighbours h
  exact ⟨same ▸ gate_lt_of_occurrence (List.mem_mergeSort.mp hsource),
    same' ▸ gate_lt_of_occurrence (List.mem_mergeSort.mp htarget)⟩

end ArithCircuit
