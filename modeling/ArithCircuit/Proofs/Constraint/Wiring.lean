import ArithCircuit.Proofs.Constraint.Copies
import Mathlib.Data.Finset.Card
import Mathlib.Data.Finset.Dedup
import Mathlib.Data.List.Pairwise

/-!
# What a copy table says

Take every filled slot of a gate list for a value of its own. The copies then are all that ties the
slots of one wire together: each of them is linked to the next, and to nothing else.
-/

namespace ArithCircuit

variable {F : PrimeField} {gates : List (Gate F)}

/-- The place of a slot in its gate. -/
def Slot.place : Slot → Nat
  | .left => 0
  | .right => 1
  | .output => 2

/-- The wire in a slot; `none` if the slot is empty or there is no such gate. -/
def wireAt? (gates : List (Gate F)) (ref : SlotRef) : Option Wire := gates[ref.gate]?.bind (·.wire? ref.slot)

/-- Gate by gate, and from left to right in a gate. -/
def SlotRef.Before (ref ref' : SlotRef) : Prop :=
  ref.gate < ref'.gate ∨ ref.gate = ref'.gate ∧ ref.slot.place < ref'.slot.place

/-- Two slots of one wire, with no slot of that wire between them. -/
structure Consecutive (gates : List (Gate F)) (ref ref' : SlotRef) : Prop where
  sameWire : ∃ wire, wireAt? gates ref = some wire ∧ wireAt? gates ref' = some wire
  before : ref.Before ref'
  adjacent : ∀ between, wireAt? gates between = wireAt? gates ref → ¬ (ref.Before between ∧ between.Before ref')

/-- By wire, and for one wire by position. -/
def EntryBefore (entry entry' : Wire × SlotRef) : Prop :=
  entry.1.index < entry'.1.index ∨ entry.1 = entry'.1 ∧ entry.2.Before entry'.2

/-- The wire of the first copy comes before that of the second, or they are links of one wire, in order. -/
def Copy.Precedes (gates : List (Gate F)) (copy copy' : Copy) : Prop :=
  ∃ wire wire', wireAt? gates copy.source = some wire ∧ wireAt? gates copy'.source = some wire' ∧
    EntryBefore (wire, copy.source) (wire', copy'.source)

/-! ## The orders -/

theorem Wire.eq_of_index {wire wire' : Wire} (h : wire.index = wire'.index) : wire = wire' :=
  congrArg Wire.mk h

namespace SlotRef.Before

variable {ref ref' ref'' : SlotRef}

theorem irrefl (ref : SlotRef) : ¬ ref.Before ref := fun h => by rcases h with h | h <;> omega

theorem trans (h : ref.Before ref') (h' : ref'.Before ref'') : ref.Before ref'' := by
  unfold SlotRef.Before at *
  omega

theorem asymm (h : ref.Before ref') : ¬ ref'.Before ref := fun h' => irrefl ref (h.trans h')

end SlotRef.Before

namespace EntryBefore

variable {entry entry' : Wire × SlotRef}

theorem irrefl (entry : Wire × SlotRef) : ¬ EntryBefore entry entry := by
  rintro (h | ⟨-, h⟩)
  · exact lt_irrefl _ h
  · exact SlotRef.Before.irrefl _ h

theorem le (h : EntryBefore entry entry') : entry.1.index ≤ entry'.1.index := by
  rcases h with h | ⟨h, -⟩
  · exact h.le
  · rw [h]

theorem before (h : EntryBefore entry entry') (same : entry.1 = entry'.1) : entry.2.Before entry'.2 := by
  rcases h with h | ⟨-, h⟩
  · exact absurd h (by simp [same])
  · exact h

end EntryBefore

/-! ## The sorted occurrences -/

theorem mem_occurrences {wire : Wire} {ref : SlotRef} :
    (wire, ref) ∈ occurrences gates ↔ wireAt? gates ref = some wire := by
  obtain ⟨index, slot⟩ := ref
  constructor
  · intro h
    obtain ⟨⟨gate, index'⟩, hgate, hentry⟩ := List.mem_flatMap.mp h
    obtain ⟨slot', -, hslot⟩ := List.mem_filterMap.mp hentry
    obtain ⟨wire', hwire, same⟩ := Option.map_eq_some_iff.mp hslot
    cases same
    simp [wireAt?, List.mem_zipIdx_iff_getElem?.mp hgate, hwire]
  · intro h
    obtain ⟨gate, hgate, hwire⟩ := Option.bind_eq_some_iff.mp h
    refine List.mem_flatMap.mpr ⟨(gate, index), List.mem_zipIdx_iff_getElem?.mpr hgate, ?_⟩
    exact List.mem_filterMap.mpr ⟨slot, by cases slot <;> simp [Slot.all], by simp [hwire]⟩

theorem pairwise_occurrences (gates : List (Gate F)) :
    (occurrences gates).Pairwise fun entry entry' => entry.2.Before entry'.2 := by
  refine List.pairwise_flatMap.mpr ⟨fun entry _ => ?_, ?_⟩
  · refine List.Pairwise.filterMap (R := fun slot slot' : Slot => slot.place < slot'.place) _ ?_ (by decide)
    intro slot slot' order at₁ h₁ at₂ h₂
    obtain ⟨wire, -, rfl⟩ := Option.map_eq_some_iff.mp h₁
    obtain ⟨wire', -, rfl⟩ := Option.map_eq_some_iff.mp h₂
    exact .inr ⟨rfl, order⟩
  · have order : gates.zipIdx.Pairwise fun entry entry' => entry.2 < entry'.2 := by
      rw [← List.pairwise_map (f := Prod.snd) (R := (· < ·)), List.zipIdx_map_snd]
      exact List.pairwise_lt_range'
    refine order.imp fun {entry entry'} lt at₁ h₁ at₂ h₂ => ?_
    obtain ⟨slot, -, h₁⟩ := List.mem_filterMap.mp h₁
    obtain ⟨slot', -, h₂⟩ := List.mem_filterMap.mp h₂
    obtain ⟨wire, -, rfl⟩ := Option.map_eq_some_iff.mp h₁
    obtain ⟨wire', -, rfl⟩ := Option.map_eq_some_iff.mp h₂
    exact .inl lt

theorem map_fst_occurrences (gates : List (Gate F)) :
    (occurrences gates).map Prod.fst = gates.flatMap Gate.wires := by
  have slots (gate : Gate F) (index : Nat) :
      (Slot.all.filterMap fun slot => (gate.wire? slot).map fun wire => (wire, (⟨index, slot⟩ : SlotRef))).map
        Prod.fst = gate.wires := by
    simp [Gate.wires, List.map_filterMap, Option.map_map, Function.comp_def]
  simp only [occurrences, List.map_flatMap, slots]
  rw [← List.flatMap_map Prod.fst, List.zipIdx_map_fst]

section Stability

variable (entries : List (Wire × SlotRef))

theorem pairwise_index_mergeSort :
    (entries.mergeSort fun entry entry' => entry.1.index ≤ entry'.1.index).Pairwise
      fun entry entry' => entry.1.index ≤ entry'.1.index := by
  have sorted : (entries.mergeSort fun entry entry' => entry.1.index ≤ entry'.1.index).Pairwise
      fun entry entry' => decide (entry.1.index ≤ entry'.1.index) = true :=
    List.pairwise_mergeSort (fun _ _ _ => by simpa using Nat.le_trans) (fun _ _ => by simpa using Nat.le_total _ _)
      entries
  exact sorted.imp of_decide_eq_true

/-- The sort is stable: what it says of one wire is what the list says. -/
theorem filter_mergeSort (wire : Wire) :
    (entries.mergeSort fun entry entry' => entry.1.index ≤ entry'.1.index).filter (·.1 = wire) =
      entries.filter (·.1 = wire) := by
  have keeps : (entries.filter (·.1 = wire)).Sublist
      (entries.mergeSort fun entry entry' => entry.1.index ≤ entry'.1.index) := by
    refine List.sublist_mergeSort (fun _ _ _ => by simpa using Nat.le_trans)
      (fun _ _ => by simpa using Nat.le_total _ _) ?_ List.filter_sublist
    refine List.pairwise_of_forall_mem_list fun a ha b hb => ?_
    simp only [List.mem_filter, decide_eq_true_eq] at ha hb ⊢
    rw [ha.2, hb.2]
  have same := keeps.filter (·.1 = wire)
  rw [List.filter_filter] at same
  simp only [Bool.and_self] at same
  exact (same.eq_of_length ((List.mergeSort_perm ..).filter _).length_eq.symm).symm

end Stability

theorem pairwise_mergeSort_of_before {entries : List (Wire × SlotRef)}
    (h : entries.Pairwise fun entry entry' => entry.2.Before entry'.2) :
    (entries.mergeSort fun entry entry' => entry.1.index ≤ entry'.1.index).Pairwise EntryBefore := by
  refine List.pairwise_iff_forall_sublist.mpr fun {a b} hab => ?_
  rcases (List.pairwise_iff_forall_sublist.mp (pairwise_index_mergeSort entries) hab).lt_or_eq with lt | eq
  · exact .inl lt
  · have same : a.1 = b.1 := Wire.eq_of_index eq
    have kept := hab.filter (·.1 = a.1)
    rw [filter_mergeSort] at kept
    simp only [List.filter_cons, same, decide_true, if_true, List.filter_nil] at kept
    exact .inr ⟨same, List.pairwise_iff_forall_sublist.mp h (kept.trans List.filter_sublist)⟩

/-! ## Linking a sorted list -/

theorem mem_linkNeighbours_cons {copy : Copy} {entries : List (Wire × SlotRef)} (first : Wire × SlotRef)
    (h : copy ∈ linkNeighbours entries) : copy ∈ linkNeighbours (first :: entries) := by
  cases entries with
  | nil => cases h
  | cons second rest =>
      unfold linkNeighbours
      split
      · exact List.mem_cons_of_mem _ h
      · exact h

section Links

variable {first second : Wire × SlotRef} {entries rest : List (Wire × SlotRef)}

/-- In a sorted list the slots of a wire stand together. -/
theorem wire_eq_of_mem_of_sorted (sorted : (first :: second :: rest).Pairwise EntryBefore) {entry : Wire × SlotRef}
    (hentry : entry ∈ second :: rest) (same : first.1 = entry.1) : first.1 = second.1 := by
  have le := ((List.pairwise_cons.mp sorted).1 second (by simp)).le
  have le' : second.1.index ≤ entry.1.index := by
    rcases List.mem_cons.mp hentry with rfl | later
    · exact le_rfl
    · exact ((List.pairwise_cons.mp (List.pairwise_cons.mp sorted).2).1 entry later).le
  exact Wire.eq_of_index (le_antisymm le (same ▸ le'))

/-- What a link says: two entries of one wire, in order, with none of that wire between them. -/
structure Linked (entries : List (Wire × SlotRef)) (wire : Wire) (copy : Copy) : Prop where
  source : (wire, copy.source) ∈ entries
  target : (wire, copy.target) ∈ entries
  before : copy.source.Before copy.target
  adjacent : ∀ ref, (wire, ref) ∈ entries → ¬ (copy.source.Before ref ∧ ref.Before copy.target)

theorem Linked.cons {wire : Wire} {copy : Copy} (linked : Linked entries wire copy)
    (sorted : (first :: entries).Pairwise EntryBefore) : Linked (first :: entries) wire copy where
  source := List.mem_cons_of_mem _ linked.source
  target := List.mem_cons_of_mem _ linked.target
  before := linked.before
  adjacent := fun ref hmem between => by
    rcases List.mem_cons.mp hmem with rfl | later
    · exact between.1.asymm (((List.pairwise_cons.mp sorted).1 _ linked.source).before rfl)
    · exact linked.adjacent ref later between

theorem linked_neighbours (sorted : (first :: second :: rest).Pairwise EntryBefore) (same : first.1 = second.1) :
    Linked (first :: second :: rest) first.1 ⟨first.2, second.2⟩ where
  source := by simp
  target := by simp [same]
  before := ((List.pairwise_cons.mp sorted).1 second (by simp)).before same
  adjacent := fun ref hmem between => by
    rcases List.mem_cons.mp hmem with here | hmem
    · exact SlotRef.Before.irrefl _ (congrArg Prod.snd here ▸ between.1)
    · rcases List.mem_cons.mp hmem with next | later
      · exact SlotRef.Before.irrefl _ (congrArg Prod.snd next ▸ between.2)
      · have after := (List.pairwise_cons.mp (List.pairwise_cons.mp sorted).2).1 _ later
        exact between.2.asymm (after.before same.symm)

theorem linked_of_mem {copy : Copy} (sorted : entries.Pairwise EntryBefore) (h : copy ∈ linkNeighbours entries) :
    ∃ wire, Linked entries wire copy := by
  fun_induction linkNeighbours entries with
  | case1 first second rest same ih =>
      rcases List.mem_cons.mp h with rfl | h
      · exact ⟨_, linked_neighbours sorted same⟩
      · obtain ⟨wire, linked⟩ := ih (List.pairwise_cons.mp sorted).2 h
        exact ⟨wire, linked.cons sorted⟩
  | case2 first second rest different ih =>
      obtain ⟨wire, linked⟩ := ih (List.pairwise_cons.mp sorted).2 h
      exact ⟨wire, linked.cons sorted⟩
  | case3 => cases h

theorem mem_of_linked {wire : Wire} {copy : Copy} (sorted : entries.Pairwise EntryBefore)
    (linked : Linked entries wire copy) : copy ∈ linkNeighbours entries := by
  induction entries with
  | nil => cases linked.source
  | cons first entries ih =>
      have after {entry : Wire × SlotRef} (hentry : entry ∈ entries) := (List.pairwise_cons.mp sorted).1 entry hentry
      rcases List.mem_cons.mp linked.source with source | source
      · rcases List.mem_cons.mp linked.target with target | target
        · have same : copy.source = copy.target := congrArg Prod.snd (source.trans target.symm)
          exact absurd (same ▸ linked.before) (SlotRef.Before.irrefl _)
        -- The target is the next entry: otherwise the next one is of this wire and lies between.
        · cases entries with
          | nil => cases target
          | cons second rest =>
              subst source
              have same : wire = second.1 := wire_eq_of_mem_of_sorted sorted target rfl
              rcases List.mem_cons.mp target with target | later
              · simp [linkNeighbours, ← target]
              · refine absurd ⟨(after (by simp)).before same, ?_⟩ (linked.adjacent second.2 (by simp [same]))
                exact ((List.pairwise_cons.mp (List.pairwise_cons.mp sorted).2).1 _ later).before same.symm
      · rcases List.mem_cons.mp linked.target with target | target
        · exact absurd ((after source).before (by rw [← target])) (by rw [← target]; exact linked.before.asymm)
        · have linked' : Linked entries wire copy :=
            ⟨source, target, linked.before, fun ref hmem => linked.adjacent ref (List.mem_cons_of_mem _ hmem)⟩
          exact mem_linkNeighbours_cons first (ih (List.pairwise_cons.mp sorted).2 linked')

/-- Values that agree along the links agree on all entries of a wire. -/
theorem eq_of_links {α : Type*} {value : SlotRef → α} (sorted : entries.Pairwise EntryBefore)
    (h : ∀ copy ∈ linkNeighbours entries, value copy.source = value copy.target) {entry entry' : Wire × SlotRef}
    (hentry : entry ∈ entries) (hentry' : entry' ∈ entries) (same : entry.1 = entry'.1) :
    value entry.2 = value entry'.2 := by
  induction entries generalizing entry entry' with
  | nil => cases hentry
  | cons first entries ih =>
      have later {a b : Wire × SlotRef} (ha : a ∈ entries) (hb : b ∈ entries) (same : a.1 = b.1) :=
        ih (List.pairwise_cons.mp sorted).2 (fun _ hcopy => h _ (mem_linkNeighbours_cons first hcopy)) ha hb same
      have ahead {a : Wire × SlotRef} (ha : a ∈ entries) (same : first.1 = a.1) : value first.2 = value a.2 := by
        cases entries with
        | nil => cases ha
        | cons second rest =>
            have next := wire_eq_of_mem_of_sorted sorted ha same
            exact (h ⟨first.2, second.2⟩ (by simp [linkNeighbours, next])).trans
              (later (by simp) ha (next.symm.trans same))
      rcases List.mem_cons.mp hentry with here | hentry
      · rcases List.mem_cons.mp hentry' with here' | hentry'
        · rw [here, here']
        · exact here ▸ ahead hentry' (here ▸ same)
      · rcases List.mem_cons.mp hentry' with here' | hentry'
        · exact (here' ▸ ahead hentry (here' ▸ same.symm)).symm
        · exact later hentry hentry' same

/-- One link for every entry that is not the last of its wire. -/
theorem length_linkNeighbours (sorted : entries.Pairwise EntryBefore) :
    (linkNeighbours entries).length + (entries.map Prod.fst).toFinset.card = entries.length := by
  fun_induction linkNeighbours entries with
  | case1 first second rest same ih =>
      have ih := ih (List.pairwise_cons.mp sorted).2
      have known : first.1 ∈ ((second :: rest).map Prod.fst).toFinset := by simp [same]
      rw [List.map_cons, List.toFinset_cons, Finset.insert_eq_of_mem known]
      simp only [List.length_cons] at ih ⊢
      omega
  | case2 first second rest different ih =>
      have ih := ih (List.pairwise_cons.mp sorted).2
      have new : first.1 ∉ ((second :: rest).map Prod.fst).toFinset := by
        intro h
        obtain ⟨entry, hentry, same⟩ := List.mem_map.mp (List.mem_toFinset.mp h)
        exact different (wire_eq_of_mem_of_sorted sorted hentry same.symm)
      rw [List.map_cons, List.toFinset_cons, Finset.card_insert_of_notMem new]
      simp only [List.length_cons] at ih ⊢
      omega
  | case3 entries short =>
      match entries with
      | [] => rfl
      | [_] => simp
      | first :: second :: rest => exact absurd rfl (short first second rest)

theorem pairwise_linkNeighbours (sorted : entries.Pairwise EntryBefore) :
    (linkNeighbours entries).Pairwise fun copy copy' => ∃ wire wire', (wire, copy.source) ∈ entries ∧
      (wire', copy'.source) ∈ entries ∧ EntryBefore (wire, copy.source) (wire', copy'.source) := by
  fun_induction linkNeighbours entries with
  | case1 first second rest same ih =>
      refine List.pairwise_cons.mpr ⟨fun copy hcopy => ?_, (ih (List.pairwise_cons.mp sorted).2).imp ?_⟩
      · obtain ⟨wire, linked⟩ := linked_of_mem (List.pairwise_cons.mp sorted).2 hcopy
        exact ⟨first.1, wire, List.mem_cons_self, List.mem_cons_of_mem _ linked.source,
          (List.pairwise_cons.mp sorted).1 _ linked.source⟩
      · rintro copy copy' ⟨wire, wire', hsource, hsource', before⟩
        exact ⟨wire, wire', List.mem_cons_of_mem _ hsource, List.mem_cons_of_mem _ hsource', before⟩
  | case2 first second rest different ih =>
      refine (ih (List.pairwise_cons.mp sorted).2).imp ?_
      rintro copy copy' ⟨wire, wire', hsource, hsource', before⟩
      exact ⟨wire, wire', List.mem_cons_of_mem _ hsource, List.mem_cons_of_mem _ hsource', before⟩
  | case3 => exact .nil

end Links

/-! ## The copy table -/

/-- The entries that the copy table links. -/
theorem mem_sorted_occurrences {wire : Wire} {ref : SlotRef} :
    (wire, ref) ∈ (occurrences gates).mergeSort (fun entry entry' => entry.1.index ≤ entry'.1.index) ↔
      wireAt? gates ref = some wire :=
  List.mem_mergeSort.trans mem_occurrences

theorem linked_iff {wire : Wire} {copy : Copy} :
    Linked ((occurrences gates).mergeSort fun entry entry' => entry.1.index ≤ entry'.1.index) wire copy ↔
      wireAt? gates copy.source = some wire ∧ Consecutive gates copy.source copy.target := by
  constructor
  · intro linked
    have source := mem_sorted_occurrences.mp linked.source
    exact ⟨source, ⟨wire, source, mem_sorted_occurrences.mp linked.target⟩, linked.before,
      fun ref same => linked.adjacent ref (mem_sorted_occurrences.mpr (same.trans source))⟩
  · rintro ⟨source, ⟨wire', source', target⟩, before, adjacent⟩
    cases source.symm.trans source'
    exact ⟨mem_sorted_occurrences.mpr source, mem_sorted_occurrences.mpr target, before,
      fun ref hmem => adjacent ref ((mem_sorted_occurrences.mp hmem).trans source.symm)⟩

theorem mem_copyTable {copy : Copy} : copy ∈ copyTable gates ↔ Consecutive gates copy.source copy.target := by
  have sorted := pairwise_mergeSort_of_before (pairwise_occurrences gates)
  constructor
  · intro h
    obtain ⟨wire, linked⟩ := linked_of_mem sorted h
    exact (linked_iff.mp linked).2
  · intro consecutive
    obtain ⟨wire, source, -⟩ := consecutive.sameWire
    exact mem_of_linked sorted (linked_iff.mpr ⟨source, consecutive⟩)

theorem copies_agree_iff {α : Type*} (gates : List (Gate F)) (value : SlotRef → α) :
    (∀ copy ∈ copyTable gates, value copy.source = value copy.target) ↔
      ∃ wireValue : Wire → α, ∀ ref wire, wireAt? gates ref = some wire → value ref = wireValue wire := by
  constructor
  · intro agree
    classical
    refine ⟨fun wire => if h : ∃ ref, wireAt? gates ref = some wire then value h.choose else value ⟨0, .left⟩,
      fun ref wire hwire => ?_⟩
    have filled : ∃ ref, wireAt? gates ref = some wire := ⟨ref, hwire⟩
    simp only [dif_pos filled]
    exact eq_of_links (pairwise_mergeSort_of_before (pairwise_occurrences gates)) agree
      (mem_sorted_occurrences.mpr hwire) (mem_sorted_occurrences.mpr filled.choose_spec) rfl
  · rintro ⟨wireValue, hvalue⟩ copy hcopy
    obtain ⟨wire, source, target⟩ := (mem_copyTable.mp hcopy).sameWire
    rw [hvalue _ _ source, hvalue _ _ target]

theorem length_copyTable (gates : List (Gate F)) :
    (copyTable gates).length + (gates.flatMap Gate.wires).toFinset.card = (gates.flatMap Gate.wires).length := by
  have perm := List.mergeSort_perm (occurrences gates) fun entry entry' => entry.1.index ≤ entry'.1.index
  have count := length_linkNeighbours (pairwise_mergeSort_of_before (pairwise_occurrences gates))
  rw [List.toFinset_eq_of_perm _ _ (perm.map Prod.fst), perm.length_eq, map_fst_occurrences] at count
  rw [copyTable, count, ← map_fst_occurrences, List.length_map]

theorem pairwise_copyTable (gates : List (Gate F)) : (copyTable gates).Pairwise (Copy.Precedes gates) := by
  refine (pairwise_linkNeighbours (pairwise_mergeSort_of_before (pairwise_occurrences gates))).imp ?_
  rintro copy copy' ⟨wire, wire', source, source', before⟩
  exact ⟨wire, wire', mem_sorted_occurrences.mp source, mem_sorted_occurrences.mp source', before⟩

theorem nodup_copyTable (gates : List (Gate F)) : (copyTable gates).Nodup := by
  refine (pairwise_copyTable gates).imp ?_
  rintro copy copy' ⟨wire, wire', source, source', before⟩ rfl
  cases source.symm.trans source'
  exact EntryBefore.irrefl _ before

/-- The copy table of any gates, whichever of their slots are empty or repeated, is their wiring. Values of the
filled slots agree along the copies iff there is one value for each wire; the copies are the pairs of
consecutive slots of a wire, one for every filled slot but the last of each wire, without repetition and in
order. -/
theorem copyTable_wiring (gates : List (Gate F)) :
    (∀ (α : Type) (value : SlotRef → α), (∀ copy ∈ copyTable gates, value copy.source = value copy.target) ↔
      ∃ wireValue : Wire → α, ∀ ref wire, wireAt? gates ref = some wire → value ref = wireValue wire) ∧
    (∀ copy, copy ∈ copyTable gates ↔ Consecutive gates copy.source copy.target) ∧
    (copyTable gates).length + (gates.flatMap Gate.wires).toFinset.card = (gates.flatMap Gate.wires).length ∧
    (copyTable gates).Nodup ∧ (copyTable gates).Pairwise (Copy.Precedes gates) :=
  ⟨fun _ => copies_agree_iff gates, fun _ => mem_copyTable, length_copyTable gates, nodup_copyTable gates,
    pairwise_copyTable gates⟩

end ArithCircuit
