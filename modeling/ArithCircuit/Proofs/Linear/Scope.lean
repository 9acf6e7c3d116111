import ArithCircuit.Proofs.Linear.Evaluation

/-!
# The wires of a linear combination

An expression over the wires below a bound stays one under all operations, and its value depends on
those wires alone.
-/

namespace ArithCircuit

variable {F : PrimeField} {n m : Nat}

/-- So many wires from an index on. -/
def Wire.span (start n : Nat) : List Wire := (List.range' start n).map Wire.mk

theorem Wire.mem_span {start n : Nat} {wire : Wire} :
    wire ∈ Wire.span start n ↔ start ≤ wire.index ∧ wire.index < start + n := by
  obtain ⟨i⟩ := wire
  simp [Wire.span, List.mem_range'_1]

@[simp]
theorem Wire.length_span (start n : Nat) : (Wire.span start n).length = n := by
  simp [Wire.span]

theorem Wire.nodup_span (start n : Nat) : (Wire.span start n).Nodup :=
  List.pairwise_map.mpr ((List.nodup_range' 1).imp fun other same => other (Wire.mk.inj same))

/-- The assignments have the same values on the wires below a bound. -/
def AgreeBelow (n : Nat) (value value' : Wire → F.Elem) : Prop :=
  ∀ wire : Wire, wire.index < n → value wire = value' wire

namespace AgreeBelow

variable {value value' value'' : Wire → F.Elem}

theorem refl (n : Nat) (value : Wire → F.Elem) : AgreeBelow n value value := fun _ _ => rfl

theorem symm (h : AgreeBelow n value value') : AgreeBelow n value' value :=
  fun wire hwire => (h wire hwire).symm

theorem trans (h : AgreeBelow n value value') (h' : AgreeBelow m value' value'') (hle : n ≤ m) :
    AgreeBelow n value value'' :=
  fun wire hwire => (h wire hwire).trans (h' wire (by omega))

theorem mono (h : AgreeBelow m value value') (hle : n ≤ m) : AgreeBelow n value value' :=
  fun wire hwire => h wire (by omega)

/-- The value of the wire at the bound is free. -/
theorem update (n : Nat) (value : Wire → F.Elem) (v : F.Elem) :
    AgreeBelow n value (Function.update value ⟨n⟩ v) := fun wire hwire => by
  rw [Function.update_of_ne]
  rintro rfl
  exact Nat.lt_irrefl _ hwire

end AgreeBelow

namespace LinearCombination

/-- All wires of the expression are below a bound. -/
def Below (n : Nat) (x : LinearCombination F) : Prop := ∀ wire ∈ x.wires, wire.index < n

variable {x y : LinearCombination F}

theorem Below.mono (h : x.Below n) (hle : n ≤ m) : x.Below m := fun wire hwire => by
  have := h wire hwire
  omega

theorem Below.evalWith_congr (h : x.Below n) {value value' : Wire → F.Elem}
    (agree : AgreeBelow n value value') : x.evalWith value = x.evalWith value' :=
  LinearCombination.evalWith_congr fun wire hwire => agree wire (h wire hwire)

theorem mem_wires_insertTerm {wire other : Wire} {coefficient : F.Elem} {terms : List (Term F)}
    (h : other ∈ (insertTerm wire coefficient terms).map Term.wire) :
    other = wire ∨ other ∈ terms.map Term.wire := by
  induction terms with
  | nil =>
      unfold insertTerm at h
      split at h <;> simp_all
  | cons term rest ih =>
      simp only [insertTerm] at h
      split at h
      · split at h <;> simp_all
      · split at h
        · split at h <;> simp_all
        · rcases List.mem_cons.mp h with rfl | h
          · exact .inr (by simp)
          · rcases ih h with h | h
            · exact .inl h
            · exact .inr (by simp_all)

/-! ## Leaves -/

theorem below_zero : (zero : LinearCombination F).Below n := by
  intro wire hwire
  cases hwire

theorem below_ofConstant (k : F.Elem) : (ofConstant k).Below n := by
  intro wire hwire
  cases hwire

theorem below_ofWire {wire : Wire} : (ofWire wire : LinearCombination F).Below n ↔ wire.index < n := by
  simp [Below, wires, ofWire]

/-! ## Arithmetic -/

theorem Below.addTerm (h : x.Below n) {wire : Wire} (hwire : wire.index < n) (k : F.Elem) :
    (x.addTerm k wire).Below n := by
  intro other hother
  rcases mem_wires_insertTerm hother with rfl | hother
  · exact hwire
  · exact h other hother

theorem Below.addConstant (h : x.Below n) (k : F.Elem) : (x.addConstant k).Below n := h

theorem Below.foldl_addTerm {terms : List (Term F)} (hterms : ∀ term ∈ terms, term.wire.index < n)
    (factor : F.Elem) (h : x.Below n) :
    (terms.foldl (fun sum term => sum.addTerm (term.coefficient * factor) term.wire) x).Below n := by
  induction terms generalizing x with
  | nil => exact h
  | cons term rest ih =>
      exact ih (fun t ht => hterms t (by simp [ht])) (h.addTerm (hterms term (by simp)) _)

theorem Below.addScaled (hx : x.Below n) (hy : y.Below n) (factor : F.Elem) :
    (x.addScaled factor y).Below n :=
  (hx.foldl_addTerm (fun term ht => hy term.wire (List.mem_map_of_mem ht)) factor).addConstant _

theorem Below.subScaled (hx : x.Below n) (hy : y.Below n) (factor : F.Elem) :
    (x.subScaled factor y).Below n :=
  hx.addScaled hy _

theorem Below.add (hx : x.Below n) (hy : y.Below n) : (x + y).Below n := hx.addScaled hy 1

theorem Below.sub (hx : x.Below n) (hy : y.Below n) : (x - y).Below n := hx.subScaled hy 1

theorem Below.scale (h : x.Below n) (factor : F.Elem) : (x.scale factor).Below n := by
  unfold LinearCombination.scale
  split
  · exact below_zero
  · intro wire hwire
    simp only [wires, List.map_map] at hwire
    exact h wire hwire

theorem Below.neg (h : x.Below n) : (-x).Below n := h.scale (-1)

theorem Below.foldl_bits {bits : List (LinearCombination F)} (hbits : ∀ bit ∈ bits, bit.Below n)
    (h : x.Below n) (weight : F.Elem) :
    (bits.foldl (fun (sum, weight) bit => (sum.addScaled weight bit, weight + weight))
      (x, weight)).1.Below n := by
  induction bits generalizing x weight with
  | nil => exact h
  | cons bit bits ih =>
      exact ih (fun b hb => hbits b (by simp [hb])) (h.addScaled (hbits bit (by simp)) weight) _

theorem below_ofBits {bits : List (LinearCombination F)} (hbits : ∀ bit ∈ bits, bit.Below n) :
    (ofBits bits).Below n :=
  below_zero.foldl_bits hbits 1

end LinearCombination

end ArithCircuit
