import ArithCircuit.Proofs.Linear.Respelling
import ArithCircuit.Proofs.System.Satisfaction

/-!
# Merging the terms of a system

Only the combinations of triples have terms to merge. Everything else of a system stays, and so do the
values of its combinations.
-/

namespace ArithCircuit

variable {F : PrimeField}

/-! ## Triples -/

namespace Triple

variable {triple triple' : Triple F}

def combinations (triple : Triple F) : List (LinearCombination F) := [triple.left, triple.right, triple.output]

def merged (triple : Triple F) : Triple F where
  left := triple.left.merged
  right := triple.right.merged
  output := triple.output.merged

def Respells (triple triple' : Triple F) : Prop :=
  triple.left.Respells triple'.left ∧ triple.right.Respells triple'.right ∧ triple.output.Respells triple'.output

theorem merged_eq_iff : triple.merged = triple'.merged ↔ triple.Respells triple' := by
  simp only [merged, mk.injEq, LinearCombination.merged_eq_iff, Respells]

theorem merged_eq_self : triple.merged = triple ↔ ∀ x ∈ triple.combinations, x.Canonical := by
  obtain ⟨left, right, output⟩ := triple
  simp [merged, combinations, LinearCombination.merged_eq_self]

theorem wires_merged_subset (triple : Triple F) : ∀ wire ∈ triple.merged.wires, wire ∈ triple.wires := by
  simp only [wires, merged, List.mem_append]
  rintro wire ((h | h) | h)
  · exact .inl (.inl (triple.left.wires_merged_subset wire h))
  · exact .inl (.inr (triple.right.wires_merged_subset wire h))
  · exact .inr (triple.output.wires_merged_subset wire h)

end Triple

/-! ## Constraints -/

namespace Constraints

variable {constraints constraints' : Constraints F}

/-- The combinations of triples. Gates have none. -/
def combinations : Constraints F → List (LinearCombination F)
  | .rank1 triples => triples.flatMap Triple.combinations
  | .gate _ _ => []

def merged : Constraints F → Constraints F
  | .rank1 triples => .rank1 (triples.map Triple.merged)
  | .gate gates copies => .gate gates copies

/-- The same constraints up to how the terms of triples are listed. -/
def Respells : Constraints F → Constraints F → Prop
  | .rank1 triples, .rank1 triples' => List.Forall₂ Triple.Respells triples triples'
  | .gate gates copies, .gate gates' copies' => gates = gates' ∧ copies = copies'
  | _, _ => False

@[simp]
theorem size_merged (constraints : Constraints F) : constraints.merged.size = constraints.size := by
  cases constraints <;> simp [merged, size]

@[simp]
theorem backend_merged (constraints : Constraints F) : constraints.merged.backend = constraints.backend := by
  cases constraints <;> rfl

theorem combinations_merged (constraints : Constraints F) :
    constraints.merged.combinations = constraints.combinations.map LinearCombination.merged := by
  cases constraints with
  | rank1 triples =>
      simp only [merged, combinations, List.flatMap_map, List.map_flatMap]
      rfl
  | gate gates copies => rfl

theorem merged_eq_iff : constraints.merged = constraints'.merged ↔ constraints.Respells constraints' := by
  cases constraints with
  | rank1 triples =>
      cases constraints' with
      | rank1 triples' =>
          have each : (fun triple triple' : Triple F => triple.merged = triple'.merged) = Triple.Respells := by
            funext triple triple'
            exact propext Triple.merged_eq_iff
          rw [Respells, ← each, merged, merged, rank1.injEq, ← List.forall₂_eq_eq_eq, List.forall₂_map_left_iff,
            List.forall₂_map_right_iff]
      | gate gates copies => exact ⟨nofun, nofun⟩
  | gate gates copies =>
      cases constraints' with
      | rank1 triples => exact ⟨nofun, nofun⟩
      | gate gates' copies' => exact iff_of_eq (gate.injEq ..)

theorem merged_eq_self : constraints.merged = constraints ↔ ∀ x ∈ constraints.combinations, x.Canonical := by
  cases constraints with
  | rank1 triples =>
      rw [merged, combinations, rank1.injEq, List.forall_mem_flatMap, ← List.forall₂_eq_eq_eq,
        List.forall₂_map_left_iff, List.forall₂_same]
      exact forall₂_congr fun triple _ => Triple.merged_eq_self
  | gate gates copies => simp [merged, combinations]

theorem wires_merged {p : Wire → Prop} (h : ∀ c ∈ constraints.toList, ∀ wire ∈ c.wires, p wire) :
    ∀ c ∈ constraints.merged.toList, ∀ wire ∈ c.wires, p wire := by
  cases constraints with
  | rank1 triples =>
      intro c hc wire hwire
      obtain ⟨merged, hmerged, rfl⟩ := List.mem_map.mp hc
      obtain ⟨triple, htriple, rfl⟩ := List.mem_map.mp hmerged
      exact h (.rank1 triple) (List.mem_map_of_mem htriple) wire (triple.wires_merged_subset wire hwire)
  | gate gates copies => exact h

end Constraints

/-! ## Systems -/

namespace System

variable {system system' : System F}

def combinations (system : System F) : List (LinearCombination F) := system.constraints.combinations

/-- The system with the terms of every combination merged. -/
def merged (system : System F) : System F := { system with constraints := system.constraints.merged }

/-- The same system up to how the terms of triples are listed. -/
structure Respells (system system' : System F) : Prop where
  roles : system.roles = system'.roles
  publicInputs : system.publicInputs = system'.publicInputs
  secretInputs : system.secretInputs = system'.secretInputs
  constraints : system.constraints.Respells system'.constraints
  hints : system.hints = system'.hints

/-- Systems are merged into the same one if and only if one respells the other. -/
theorem merged_eq_iff : system.merged = system'.merged ↔ system.Respells system' := by
  simp only [merged, mk.injEq, Constraints.merged_eq_iff]
  constructor
  · rintro ⟨roles, publicInputs, secretInputs, constraints, hints⟩
    exact ⟨roles, publicInputs, secretInputs, constraints, hints⟩
  · rintro ⟨roles, publicInputs, secretInputs, constraints, hints⟩
    exact ⟨roles, publicInputs, secretInputs, constraints, hints⟩

theorem merged_eq_self : system.merged = system ↔ ∀ x ∈ system.combinations, x.Canonical := by
  rw [combinations, ← Constraints.merged_eq_self]
  obtain ⟨roles, publicInputs, secretInputs, constraints, hints⟩ := system
  simp [merged]

theorem combinations_merged (system : System F) :
    system.merged.combinations = system.combinations.map LinearCombination.merged :=
  system.constraints.combinations_merged

theorem canonical_of_merged (system : System F) : ∀ x ∈ system.merged.combinations, x.Canonical := by
  intro x hx
  rw [combinations_merged] at hx
  obtain ⟨y, -, rfl⟩ := List.mem_map.mp hx
  exact y.canonical_merged

/-- What is merged has nothing left to merge. -/
theorem merged_merged (system : System F) : system.merged.merged = system.merged :=
  merged_eq_self.mpr system.canonical_of_merged

/-- Each combination keeps its value when its terms are merged. -/
theorem merged_values (system : System F) :
    List.Forall₂ (fun x y => ∀ value, LinearCombination.evalWith y value = LinearCombination.evalWith x value)
      system.combinations system.merged.combinations := by
  rw [combinations_merged, List.forall₂_map_right_iff, List.forall₂_same]
  exact fun x _ value => x.evalWith_merged value

theorem InRange.merged (h : system.InRange) : system.merged.InRange where
  inputs := h.inputs
  mentioned := by
    intro wire hwire
    rcases mem_mentioned.mp hwire with ⟨c, hc, hwire⟩ | ⟨b, hb, hwire⟩
    · exact Constraints.wires_merged (p := (·.index < system.wireCount)) (fun c hc => h.constraint_lt hc) c hc wire
        hwire
    · exact h.binding_lt hb wire hwire

theorem Scheduled.merged (h : system.Scheduled) : system.merged.Scheduled := by
  intro b hb
  rw [constraintCount, System.merged, Constraints.size_merged]
  exact h b hb

end System

end ArithCircuit
