import ArithCircuit.Proofs.Linear.Scope

/-!
# Evaluation on a list of values

Where all wires have values, an operation on expressions has the value of that operation on field elements.
Where the list has gaps, an expression without a wire in a gap has the value that it has however the gaps are
filled, and every other expression has none.
-/

namespace ArithCircuit

open scoped Fin.CommRing

variable {F : PrimeField} {values : Array F.Elem} {known : Array (Option F.Elem)} {value : Wire → F.Elem}

theorem Wire.valueIn_of_getElem? {wire : Wire} {v : F.Elem} (h : values[wire.index]? = some v) :
    wire.valueIn values = v := by
  simp [valueIn, Array.getD_eq_getD_getElem?, h]

theorem gap_or_known {i : Nat} (inRange : i < known.size) :
    known[i]? = some none ∨ ∃ v, known[i]? = some (some v) := by
  rw [Array.getElem?_eq_getElem inRange]
  cases known[i] with
  | none => exact .inl rfl
  | some v => exact .inr ⟨v, rfl⟩

/-- The list has a value for each gap and keeps what is known. -/
structure Completes (values : Array F.Elem) (known : Array (Option F.Elem)) : Prop where
  size_eq : values.size = known.size
  keeps : ∀ {i : Nat} {v : F.Elem}, known[i]? = some (some v) → values[i]? = some v

namespace LinearCombination

variable {x y : LinearCombination F} {k v : F.Elem} {wire : Wire}

instance (n : Nat) (x : LinearCombination F) : Decidable (x.Below n) :=
  inferInstanceAs (Decidable (∀ wire ∈ x.wires, wire.index < n))

/-! ## Without gaps -/

theorem Below.eval? (h : x.Below values.size) : x.eval? values = some (x.evalWith (Wire.valueIn values)) := by
  have inRange : x.wires.all (·.index < values.size) = true := by simpa [Below] using h
  rw [LinearCombination.eval?, if_pos inRange]

/-- An expression over wires with values has the value that the laws of evaluation give. -/
theorem Below.eval?_eq (h : x.Below values.size) (law : x.evalWith (Wire.valueIn values) = v) :
    x.eval? values = some v := by
  rw [h.eval?, law]

/-! ## With gaps -/

theorem evalPartialTerms_of_known {terms : List (Term F)}
    (h : ∀ term ∈ terms, known[term.wire.index]? = some (some (value term.wire))) (sum : F.Elem) :
    evalPartialTerms known terms sum = .known (sum + evalTerms value terms) := by
  induction terms generalizing sum with
  | nil => rw [evalPartialTerms, evalTerms, add_zero]
  | cons first rest ih =>
      simp only [evalPartialTerms, h first (by simp)]
      rw [ih (fun term later => h term (by simp [later])), evalTerms, add_assoc]

/-- The terms before the first gap do not matter. -/
theorem evalPartialTerms_of_gap {terms : List (Term F)} (inRange : ∀ term ∈ terms, term.wire.index < known.size)
    (gap : ∃ term ∈ terms, known[term.wire.index]? = some none) (sum : F.Elem) :
    evalPartialTerms known terms sum = .unknown := by
  induction terms generalizing sum with
  | nil =>
      obtain ⟨_, absent, _⟩ := gap
      cases absent
  | cons first rest ih =>
      rcases gap_or_known (inRange first (by simp)) with missing | ⟨v, hv⟩
      · simp only [evalPartialTerms, missing]
      · simp only [evalPartialTerms, hv]
        refine ih (fun term later => inRange term (by simp [later])) ?_ _
        obtain ⟨term, hterm, missing⟩ := gap
        rcases List.mem_cons.mp hterm with rfl | later
        · rw [hv] at missing
          cases missing
        · exact ⟨term, later, missing⟩

theorem evalPartial_of_known (h : ∀ wire ∈ x.wires, known[wire.index]? = some (some (value wire))) :
    x.evalPartial known = .known (x.evalWith value) :=
  evalPartialTerms_of_known (fun term hterm => h term.wire (List.mem_map_of_mem hterm)) x.constant

theorem Below.evalPartial_of_gap (h : x.Below known.size) (gap : ∃ wire ∈ x.wires, known[wire.index]? = some none) :
    x.evalPartial known = .unknown := by
  obtain ⟨wire, hwire, missing⟩ := gap
  obtain ⟨term, hterm, rfl⟩ := List.mem_map.mp hwire
  exact evalPartialTerms_of_gap (fun term hterm => h term.wire (List.mem_map_of_mem hterm)) ⟨term, hterm, missing⟩ _

/-- Either all wires are known, or one of them is in a gap. -/
theorem Below.known_or_gap (h : x.Below known.size) :
    (∀ wire ∈ x.wires, ∃ v, known[wire.index]? = some (some v)) ∨ ∃ wire ∈ x.wires, known[wire.index]? = some none := by
  by_cases gap : ∃ wire ∈ x.wires, known[wire.index]? = some none
  · exact .inr gap
  · exact .inl fun wire hwire => (gap_or_known (h wire hwire)).resolve_left fun missing => gap ⟨wire, hwire, missing⟩

/-- The value on known wires is the one on every completion. -/
theorem evalPartial_of_completes (h : x.Below known.size) (completes : Completes values known)
    (all : ∀ wire ∈ x.wires, ∃ v, known[wire.index]? = some (some v)) :
    ∃ v, x.evalPartial known = .known v ∧ x.eval? values = some v := by
  refine ⟨x.evalWith (Wire.valueIn values), evalPartial_of_known fun wire hwire => ?_, ?_⟩
  · obtain ⟨v, hv⟩ := all wire hwire
    rw [hv, Wire.valueIn_of_getElem? (completes.keeps hv)]
  · exact Below.eval? (completes.size_eq ▸ h)

/-- There is a completion: the gaps hold zero. -/
theorem completes_map_getD (known : Array (Option F.Elem)) : Completes (known.map (·.getD 0)) known where
  size_eq := Array.size_map
  keeps h := by simp [h]

theorem Below.evalPartial_eq_known (h : x.Below known.size) :
    (∃ v, x.evalPartial known = .known v) ↔ ∀ wire ∈ x.wires, ∃ v, known[wire.index]? = some (some v) := by
  constructor
  · rintro ⟨v, hv⟩
    rcases h.known_or_gap with all | gap
    · exact all
    · rw [h.evalPartial_of_gap gap] at hv
      cases hv
  · intro all
    obtain ⟨v, hv, -⟩ := evalPartial_of_completes h (completes_map_getD known) all
    exact ⟨v, hv⟩

/-- The operations keep to values, and values on a list with gaps are those on each of its completions. -/
theorem evaluation_agrees (x y : LinearCombination F) (k : F.Elem) (wire : Wire) :
    (∀ values : Array F.Elem, x.Below values.size → y.Below values.size → wire.index < values.size →
      ∃ a b v, x.eval? values = some a ∧ y.eval? values = some b ∧ values[wire.index]? = some v ∧
        (x + y).eval? values = some (a + b) ∧
        (x - y).eval? values = some (a - b) ∧
        (x.addScaled k y).eval? values = some (a + k * b) ∧
        (x.subScaled k y).eval? values = some (a - k * b) ∧
        (x.addTerm k wire).eval? values = some (a + k * v) ∧
        (x.subTerm k wire).eval? values = some (a - k * v) ∧
        (x.addWire wire).eval? values = some (a + v) ∧
        (x.subWire wire).eval? values = some (a - v) ∧
        (x.scale k).eval? values = some (k * a) ∧
        (-x).eval? values = some (-a) ∧
        (x.addConstant k).eval? values = some (a + k)) ∧
    ∀ known : Array (Option F.Elem), x.Below known.size →
      ((∃ v, x.evalPartial known = .known v) ↔ ∀ wire ∈ x.wires, ∃ v, known[wire.index]? = some (some v)) ∧
      (x.evalPartial known = .unknown ↔ ∃ wire ∈ x.wires, known[wire.index]? = some none) ∧
      ∀ v, x.evalPartial known = .known v → ∀ values, Completes values known → x.eval? values = some v := by
  refine ⟨fun values hx hy hwire => ?_, fun known hx => ⟨hx.evalPartial_eq_known, ?_, ?_⟩⟩
  · have entry := Array.getElem?_eq_getElem hwire
    have hv := Wire.valueIn_of_getElem? entry
    refine ⟨_, _, _, hx.eval?, hy.eval?, entry, (hx.add hy).eval?_eq (evalWith_add x y),
      (hx.sub hy).eval?_eq (evalWith_sub x y), (hx.addScaled hy k).eval?_eq (evalWith_addScaled x y k),
      (hx.subScaled hy k).eval?_eq (evalWith_subScaled x y k), (hx.addTerm hwire k).eval?_eq ?_,
      (hx.addTerm hwire (-k)).eval?_eq ?_, (hx.addTerm hwire 1).eval?_eq ?_, (hx.addTerm hwire (-1)).eval?_eq ?_,
      (hx.scale k).eval?_eq (evalWith_scale x k), hx.neg.eval?_eq (evalWith_neg x),
      (hx.addConstant k).eval?_eq (evalWith_addConstant x k)⟩
    all_goals
      rw [evalWith_addTerm, hv]
      ring
  · constructor
    · intro missing
      refine hx.known_or_gap.resolve_left fun all => ?_
      obtain ⟨v, hv⟩ := hx.evalPartial_eq_known.mpr all
      rw [hv] at missing
      cases missing
    · exact hx.evalPartial_of_gap
  · intro v hv values completes
    obtain ⟨v', hv', value⟩ := evalPartial_of_completes hx completes (hx.evalPartial_eq_known.mp ⟨v, hv⟩)
    rw [hv] at hv'
    cases hv'
    exact value

/-- A cancelled wire may be in a gap. -/
theorem evaluation_past_cancelled_gap :
    let x : LinearCombination .seven := (ofWire ⟨0⟩).subWire ⟨1⟩
    let y : LinearCombination .seven := ofWire ⟨1⟩
    (x + y).eval? #[4, 5] = some 4 ∧ (x + y).evalPartial #[some 4, none] = .known 4 ∧
      x.evalPartial #[some 4, none] = .unknown := by
  intro x y
  have covered : x.Below 2 := by decide
  have cancelled : x + y = ofWire ⟨0⟩ := by decide
  have sum : (x + y).Below 2 := by decide
  obtain ⟨values, gaps⟩ := evaluation_agrees x y 3 ⟨1⟩
  obtain ⟨-, gap, -⟩ := gaps #[some 4, none] covered
  obtain ⟨known, -, agrees⟩ := (evaluation_agrees (x + y) y 3 ⟨1⟩).2 #[some 4, none] sum
  obtain ⟨v, hv⟩ := known.mpr (by rw [cancelled]; decide)
  have completes : Completes (F := .seven) #[4, 5] #[some 4, none] := by
    refine ⟨rfl, fun {i _} h => ?_⟩
    rcases i with _ | _ | i <;> simp_all
  have completion := agrees v hv #[4, 5] completes
  obtain ⟨a, b, -, ha, hb, -, hsum, -⟩ := values #[4, 5] covered (by decide) (by decide)
  obtain rfl : 6 = a := Option.some.inj ha
  obtain rfl : 5 = b := Option.some.inj hb
  obtain rfl : v = 4 := Option.some.inj (completion.symm.trans hsum)
  exact ⟨hsum, hv, gap.mpr (by decide)⟩

end LinearCombination

end ArithCircuit
