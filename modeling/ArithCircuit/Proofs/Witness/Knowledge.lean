import ArithCircuit.Witness.Knowledge
import Mathlib.Data.List.Nodup

/-!
# What learning a value changes
-/

namespace ArithCircuit

/-- Values for distinct wires are those of an assignment. -/
theorem exists_map_eq {F : PrimeField} {wires : List Wire} (distinct : wires.Nodup) {values : List F.Elem}
    (length : wires.length = values.length) : ∃ value : Wire → F.Elem, wires.map value = values := by
  refine ⟨fun wire => values.getD (wires.idxOf wire) 0, List.ext_getElem (by simpa using length) fun i hi hi' => ?_⟩
  simp [distinct.idxOf_getElem, hi']

namespace Knowledge

variable {F : PrimeField} {known known' : Knowledge F} {wire other : Wire} {x : F.Elem}

@[simp]
theorem get?_blank (wires : Nat) (wire : Wire) : (blank wires : Knowledge F).get? wire = none := by
  simp [get?, blank, Array.getD]

@[simp]
theorem size_blank (wires : Nat) : (blank wires : Knowledge F).values.size = wires := by
  simp [blank]

@[simp]
theorem size_learn : (known.learn wire x).values.size = known.values.size := by
  simp [learn]

theorem get?_learn : (known.learn wire x).get? other
    = if other = wire ∧ wire.index < known.values.size then some x else known.get? other := by
  obtain ⟨i⟩ := wire
  obtain ⟨j⟩ := other
  simp only [get?, learn, Array.getD_eq_getD_getElem?, Array.getElem?_setIfInBounds, Wire.mk.injEq]
  split
  · subst j
    split <;> simp_all
  · simp_all [eq_comm]

theorem valueOrZero_of_get? (h : known.get? wire = some x) : known.valueOrZero wire = x := by
  simp [valueOrZero, h]

/-! ## Several values -/

@[simp]
theorem learnAll_cons (wires : List Wire) (values : List F.Elem) :
    known.learnAll (wire :: wires) (x :: values) = (known.learn wire x).learnAll wires values := rfl

@[simp]
theorem size_learnAll (wires : List Wire) (values : List F.Elem) :
    (known.learnAll wires values).values.size = known.values.size := by
  induction wires generalizing known values with
  | nil => rfl
  | cons wire wires ih =>
      cases values with
      | nil => rfl
      | cons x values => rw [learnAll_cons, ih, size_learn]

theorem isSome_learn : ((known.learn wire x).get? other).isSome ↔
    other = wire ∧ other.index < known.values.size ∨ (known.get? other).isSome := by
  rw [get?_learn]
  split
  · rename_i same
    simp [same]
  · rename_i different
    have : ¬ (other = wire ∧ other.index < known.values.size) := by
      rintro ⟨rfl, h⟩
      exact different ⟨rfl, h⟩
    simp [this]

theorem get?_learnAll {value : Wire → F.Elem} {wires : List Wire} :
    (known.learnAll wires (wires.map value)).get? other
      = if other ∈ wires ∧ other.index < known.values.size then some (value other) else known.get? other := by
  induction wires generalizing known with
  | nil => simp [learnAll]
  | cons wire wires ih =>
      rw [List.map_cons, learnAll_cons, ih, size_learn, get?_learn]
      by_cases inRange : other.index < known.values.size
      · by_cases first : other = wire
        · subst first
          by_cases later : other ∈ wires <;> simp [inRange, later]
        · simp [inRange, first]
      · have : ¬ (other = wire ∧ wire.index < known.values.size) := by
          rintro ⟨rfl, h⟩
          exact inRange h
        simp [inRange, this]

theorem isSome_learnAll {values : List F.Elem} {wires : List Wire} (enough : wires.length ≤ values.length) :
    ((known.learnAll wires values).get? other).isSome ↔
      other ∈ wires ∧ other.index < known.values.size ∨ (known.get? other).isSome := by
  induction wires generalizing known values with
  | nil => simp [learnAll]
  | cons wire wires ih =>
      obtain ⟨x, values, rfl⟩ := List.exists_cons_of_length_pos (Nat.lt_of_lt_of_le (Nat.succ_pos _) enough)
      rw [learnAll_cons, ih (Nat.le_of_succ_le_succ enough), isSome_learn, size_learn, List.mem_cons]
      constructor
      · rintro (⟨h, hlt⟩ | ⟨h, hlt⟩ | h)
        · exact .inl ⟨.inr h, hlt⟩
        · exact .inl ⟨.inl h, hlt⟩
        · exact .inr h
      · rintro (⟨h | h, hlt⟩ | h)
        · exact .inr (.inl ⟨h, hlt⟩)
        · exact .inl ⟨h, hlt⟩
        · exact .inr (.inr h)

/-- Only the wires that are taught get known. -/
theorem mem_of_isSome_learnAll {wires : List Wire} {values : List F.Elem}
    (h : ((known.learnAll wires values).get? other).isSome) : other ∈ wires ∨ (known.get? other).isSome := by
  induction wires generalizing known values with
  | nil => exact .inr h
  | cons wire wires ih =>
      cases values with
      | nil => exact .inr h
      | cons x values =>
          rw [learnAll_cons] at h
          rcases ih h with later | h
          · exact .inl (List.mem_cons_of_mem _ later)
          · rcases isSome_learn.mp h with ⟨rfl, -⟩ | h
            · exact .inl List.mem_cons_self
            · exact .inr h

/-- Surplus values are left over. -/
theorem learnAll_take (wires : List Wire) (values : List F.Elem) :
    known.learnAll wires (values.take wires.length) = known.learnAll wires values := by
  induction wires generalizing known values with
  | nil => rfl
  | cons wire wires ih =>
      cases values with
      | nil => rfl
      | cons x values => simpa using ih values

/-- Nothing is forgotten. -/
structure Remembers (known known' : Knowledge F) : Prop where
  size : known'.values.size = known.values.size
  isSome : ∀ wire, (known.get? wire).isSome → (known'.get? wire).isSome

theorem Remembers.refl (known : Knowledge F) : known.Remembers known := ⟨rfl, fun _ h => h⟩

theorem Remembers.trans {known'' : Knowledge F} (h : known.Remembers known')
    (h' : known'.Remembers known'') : known.Remembers known'' :=
  ⟨h'.size.trans h.size, fun wire hwire => h'.isSome wire (h.isSome wire hwire)⟩

theorem remembers_learn : known.Remembers (known.learn wire x) :=
  ⟨size_learn, fun _ h => isSome_learn.mpr (.inr h)⟩

theorem remembers_learnAll (wires : List Wire) (values : List F.Elem) :
    known.Remembers (known.learnAll wires values) := by
  induction wires generalizing known values with
  | nil => exact .refl known
  | cons wire wires ih =>
      cases values with
      | nil => exact .refl known
      | cons x values => exact remembers_learn.trans (ih values)

/-- Known values stay as they are. -/
def Persists (known known' : Knowledge F) : Prop :=
  ∀ wire x, known.get? wire = some x → known'.get? wire = some x

theorem Persists.refl (known : Knowledge F) : known.Persists known := fun _ _ h => h

theorem Persists.trans {known'' : Knowledge F} (h : known.Persists known') (h' : known'.Persists known'') :
    known.Persists known'' :=
  fun wire x hx => h' wire x (h wire x hx)

theorem Persists.valueOrZero (h : known.Persists known') (hknown : (known.get? wire).isSome) :
    known'.valueOrZero wire = known.valueOrZero wire := by
  obtain ⟨x, hx⟩ := Option.isSome_iff_exists.mp hknown
  rw [valueOrZero_of_get? hx, valueOrZero_of_get? (h wire x hx)]

theorem persists_learn (new : known.get? wire = none) : known.Persists (known.learn wire x) := by
  intro other y hy
  rw [get?_learn, if_neg, hy]
  rintro ⟨rfl, -⟩
  cases new.symm.trans hy

theorem persists_learnAll {value : Wire → F.Elem} {wires : List Wire}
    (new : ∀ wire ∈ wires, known.get? wire = none) :
    known.Persists (known.learnAll wires (wires.map value)) := by
  intro other y hy
  rw [get?_learnAll, if_neg, hy]
  rintro ⟨hmem, -⟩
  cases (new other hmem).symm.trans hy

theorem getAll?_cons (wires : List Wire) : known.getAll? (wire :: wires)
    = (known.get? wire).bind fun x => (known.getAll? wires).map (x :: ·) := by
  simp only [getAll?, List.mapM_cons]
  cases known.get? wire with
  | none => rfl
  | some x => cases List.mapM known.get? wires <;> rfl

theorem getAll?_eq_some {wires : List Wire} {values : List F.Elem} :
    known.getAll? wires = some values ↔ wires.map known.get? = values.map some := by
  induction wires generalizing values with
  | nil => cases values <;> simp [getAll?]
  | cons wire wires ih =>
      rw [getAll?_cons]
      cases values with
      | nil => simp [Option.bind_eq_some_iff]
      | cons x values => simp [Option.bind_eq_some_iff, ih]

theorem isSome_of_getAll? (known : Knowledge F) {wires : List Wire} {values : List F.Elem}
    (hall : known.getAll? wires = some values) : ∀ wire ∈ wires, (known.get? wire).isSome := by
  intro wire hwire
  have : known.get? wire ∈ values.map some := getAll?_eq_some.mp hall ▸ List.mem_map_of_mem hwire
  obtain ⟨x, -, hx⟩ := List.mem_map.mp this
  simp [← hx]

/-! ## Agreement with an assignment -/

/-- Every known value is the one of the assignment. -/
def Agrees (known : Knowledge F) (value : Wire → F.Elem) : Prop :=
  ∀ wire x, known.get? wire = some x → x = value wire

variable {value : Wire → F.Elem}

theorem agrees_blank (wires : Nat) : (blank wires : Knowledge F).Agrees value := by
  intro wire x h
  simp at h

theorem Agrees.learn (h : known.Agrees value) : (known.learn wire (value wire)).Agrees value := by
  intro other y hy
  rw [get?_learn] at hy
  split at hy
  · rename_i same
    cases hy
    rw [same.1]
  · exact h other y hy

theorem Agrees.learnAll (h : known.Agrees value) (wires : List Wire) :
    (known.learnAll wires (wires.map value)).Agrees value := by
  induction wires generalizing known with
  | nil => exact h
  | cons wire wires ih => exact ih h.learn

theorem Agrees.valueOrZero (h : known.Agrees value) (hknown : (known.get? wire).isSome) :
    known.valueOrZero wire = value wire := by
  obtain ⟨x, hx⟩ := Option.isSome_iff_exists.mp hknown
  rw [valueOrZero_of_get? hx, h wire x hx]

theorem agrees_valueOrZero (known : Knowledge F) : known.Agrees known.valueOrZero :=
  fun _ _ h => (valueOrZero_of_get? h).symm

/-- What agrees with an assignment is given by the wires that are known. -/
theorem Agrees.eq_of_isSome (h : known.Agrees value) (h' : known'.Agrees value)
    (size : known.values.size = known'.values.size)
    (same : ∀ wire, (known.get? wire).isSome ↔ (known'.get? wire).isSome) : known = known' := by
  have get (i : Nat) : known.get? ⟨i⟩ = known'.get? ⟨i⟩ := by
    cases hknown : known.get? ⟨i⟩ with
    | none =>
        exact (Option.not_isSome_iff_eq_none.mp (mt (same ⟨i⟩).mpr (by simp [hknown]))).symm
    | some x =>
        obtain ⟨y, hy⟩ := Option.isSome_iff_exists.mp ((same ⟨i⟩).mp (by simp [hknown]))
        rw [hy, h _ x hknown, h' _ y hy]
  obtain ⟨values⟩ := known
  obtain ⟨values'⟩ := known'
  refine congrArg Knowledge.mk (Array.ext size fun i hi hi' => ?_)
  simpa [get?, Array.getD_eq_getD_getElem?, hi, hi'] using get i

/-- All wires below a bound are known. -/
def Knows (known : Knowledge F) (n : Nat) : Prop := ∀ wire : Wire, wire.index < n → (known.get? wire).isSome

theorem Knows.succ {n : Nat} (h : known.Knows n) (hn : (known.get? ⟨n⟩).isSome) : known.Knows (n + 1) := by
  intro wire hwire
  obtain ⟨i⟩ := wire
  by_cases same : i = n
  · exact same ▸ hn
  · exact h _ (Nat.lt_of_le_of_ne (Nat.le_of_lt_succ hwire) same)

theorem Knows.remembered {n : Nat} (h : known.Knows n)
    (remembers : known.Remembers known') : known'.Knows n :=
  fun wire hwire => remembers.isSome wire (h wire hwire)

theorem Agrees.getAll?_eq (h : known.Agrees value) {wires : List Wire}
    (hknown : ∀ wire ∈ wires, (known.get? wire).isSome) : known.getAll? wires = some (wires.map value) := by
  rw [getAll?_eq_some, List.map_map]
  apply List.map_congr_left
  intro wire hwire
  obtain ⟨x, hx⟩ := Option.isSome_iff_exists.mp (hknown wire hwire)
  rw [hx, h wire x hx]
  rfl

/-- The values of known wires are those of the assignment. -/
theorem Agrees.getAll? (h : known.Agrees value) {wires : List Wire} {values : List F.Elem}
    (hall : known.getAll? wires = some values) : values = wires.map value := by
  rw [getAll?_eq_some] at hall
  induction wires generalizing values with
  | nil => cases values <;> simp_all
  | cons wire wires ih =>
      cases values with
      | nil => simp at hall
      | cons x values =>
          simp only [List.map_cons, List.cons.injEq] at hall ⊢
          exact ⟨h wire x hall.1, ih hall.2⟩

end Knowledge

end ArithCircuit
