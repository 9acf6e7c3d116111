import ArithCircuit.Proofs.Synthesis.Growth
import Mathlib.Data.List.Pairwise

/-!
# Inputs and hints stay in order

The wire table records every input with its wire, and wires and hints are added at the end. So the inputs of
a role are the wires of that role in order, and hints stand in the order of their positions.
-/

namespace ArithCircuit

/-! ## Inputs of a role -/

/-- The inputs are exactly the wires of a role, in increasing order. -/
structure ListsRole (roles : List Role) (role : Role) (inputs : List Input) : Prop where
  mem_iff : ∀ wire : Wire, (∃ input ∈ inputs, input.wire = wire) ↔ roles[wire.index]? = some role
  increasing : inputs.Pairwise fun a b => a.wire.index < b.wire.index

namespace ListsRole

variable {roles more : List Role} {role : Role} {inputs : List Input}

theorem nil (role : Role) : ListsRole [] role [] := ⟨by simp, .nil⟩

theorem lt (lists : ListsRole roles role inputs) {input : Input} (h : input ∈ inputs) :
    input.wire.index < roles.length :=
  (List.getElem?_eq_some_iff.mp ((lists.mem_iff input.wire).mp ⟨input, h, rfl⟩)).1

/-- Wires of other roles make no difference. -/
theorem append (lists : ListsRole roles role inputs) (others : role ∉ more) :
    ListsRole (roles ++ more) role inputs where
  mem_iff wire := by
    rw [lists.mem_iff, List.getElem?_append]
    split
    · rfl
    · rename_i new
      rw [List.getElem?_eq_none (Nat.le_of_not_lt new)]
      exact ⟨nofun, fun h => absurd (List.mem_of_getElem? h) others⟩
  increasing := lists.increasing

/-- The next wire is the last of its role. -/
theorem push (lists : ListsRole roles role inputs) (name : String) :
    ListsRole (roles ++ [role]) role (inputs ++ [⟨⟨roles.length⟩, name⟩]) where
  mem_iff wire := by
    obtain ⟨i⟩ := wire
    have old := lists.mem_iff ⟨i⟩
    simp only [List.mem_append, List.mem_singleton, or_and_right, exists_or, exists_eq_left, old, Wire.mk.injEq]
    by_cases new : roles.length = i
    · simp [← new]
    · rw [List.getElem?_append]
      split
      · simp [new]
      · rename_i ge
        have : ¬ i - roles.length < 1 := by omega
        simp [new, List.getElem?_eq_none (Nat.le_of_not_lt ge), this]
  increasing := List.pairwise_append.mpr ⟨lists.increasing, List.pairwise_singleton _ _, fun input h last hlast => by
    rw [List.mem_singleton.mp hlast]
    exact lists.lt h⟩

end ListsRole

/-! ## Drafts in order -/

theorem WireTable.roles_allocateMany (table : WireTable) (n : Nat) :
    (table.allocateMany n).roles.toList = table.roles.toList ++ List.replicate n .internal := by
  induction n generalizing table with
  | zero => simp [allocateMany]
  | succ n ih => simp [allocateMany, ih, allocate, List.replicate_succ]

variable {F : PrimeField} {κ : Type}

namespace Draft

/-- The inputs are listed by role, and the hints are bound in the order of their positions. -/
structure Ordered (d : Draft F κ) : Prop where
  publicInputs : ListsRole d.wires.roles.toList .publicInput d.wires.publicInputs.toList
  secretInputs : ListsRole d.wires.roles.toList .secretInput d.wires.secretInputs.toList
  positions : d.hints.toList.Pairwise fun b b' => b.position ≤ b'.position
  scheduled : ∀ b ∈ d.hints.toList, b.position ≤ d.constraints.size

variable {d d' : Draft F κ}

theorem ordered_empty (sharesConstants : Bool) : ({ sharesConstants } : Draft F κ).Ordered where
  publicInputs := .nil _
  secretInputs := .nil _
  positions := .nil
  scheduled := by simp

namespace Ordered

theorem emit (ordered : d.Ordered) (c : κ) : (d.emit c).Ordered :=
  { ordered with
    scheduled := fun b hb => Nat.le_trans (ordered.scheduled b hb) (Grows.emit c).constraints_le }

theorem freshMany (ordered : d.Ordered) (n : Nat) : (d.freshMany n).Ordered where
  publicInputs := by
    rw [Draft.freshMany, WireTable.roles_allocateMany, WireTable.publicInputs_allocateMany]
    exact ordered.publicInputs.append (by simp)
  secretInputs := by
    rw [Draft.freshMany, WireTable.roles_allocateMany, WireTable.secretInputs_allocateMany]
    exact ordered.secretInputs.append (by simp)
  positions := ordered.positions
  scheduled := ordered.scheduled

theorem declare (ordered : d.Ordered) (role : Role) (name : String) : (d.declare role name).Ordered := by
  have size : d.wires.size = d.wires.roles.toList.length := rfl
  cases role with
  | publicInput =>
      refine ⟨?_, ?_, ordered.positions, ordered.scheduled⟩
      · simpa [Draft.declare, WireTable.allocateInput, WireTable.allocate, size] using ordered.publicInputs.push name
      · simpa [Draft.declare, WireTable.allocateInput, WireTable.allocate] using ordered.secretInputs.append (by simp)
  | secretInput =>
      refine ⟨?_, ?_, ordered.positions, ordered.scheduled⟩
      · simpa [Draft.declare, WireTable.allocateInput, WireTable.allocate] using ordered.publicInputs.append (by simp)
      · simpa [Draft.declare, WireTable.allocateInput, WireTable.allocate, size] using ordered.secretInputs.push name
  | internal => exact ordered.freshMany 1

theorem remember (ordered : d.Ordered) (value : F.Elem) (wire : Wire) : (d.remember value wire).Ordered := by
  unfold Draft.remember
  split
  · exact { ordered with }
  · exact ordered

theorem bind (ordered : d.Ordered) {b : HintBinding} (position : b.position = d.constraints.size) :
    (d.bind b).Ordered where
  publicInputs := ordered.publicInputs
  secretInputs := ordered.secretInputs
  positions := by
    rw [Draft.bind, Array.toList_push]
    refine List.pairwise_append.mpr ⟨ordered.positions, List.pairwise_singleton _ _, fun b' hb' last hlast => ?_⟩
    rw [List.mem_singleton.mp hlast, position]
    exact ordered.scheduled b' hb'
  scheduled b' hb' := by
    rw [Draft.bind, Array.toList_push] at hb'
    rcases List.mem_append.mp hb' with h | h
    · exact ordered.scheduled b' h
    · rw [List.mem_singleton.mp h]
      exact Nat.le_of_eq position

end Ordered

theorem Evolves.ordered [ConstraintForm F κ] (evolves : d.Evolves d') (ordered : d.Ordered) : d'.Ordered := by
  induction evolves with
  | refl => exact ordered
  | emit c _ ih => exact ih.emit c
  | fresh _ ih => exact ih.freshMany 1
  | declare role name _ ih => exact ih.declare role name
  | remember value wire _ ih => exact ih.remember value wire
  | bind position _ _ ih => exact (ih.freshMany _).bind position
  | mark _ _ ih => exact { ih.emit _ with }

end Draft

end ArithCircuit
