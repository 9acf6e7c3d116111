import Mathlib.Order.Bounds.Basic
import ArithCircuit.Proofs.System.Listing
import ArithCircuit.Proofs.System.Satisfaction
import ArithCircuit.System.Difference

/-!
# What a difference of two systems says

Two systems are compared part by part. A difference names the first part in which they differ, with the least index at
which the two lists of that part differ, and there is exactly one difference that says so. Hence no difference
is found only between equal systems, and comparing the other way round finds the same with the sides exchanged.
-/

namespace ArithCircuit

/-! ## The first index at which two lists differ -/

section Lists

variable {α : Type} {xs ys : List α} {x y : α} {i : Nat}

/-- Both lists have an entry at the index, and the entries differ. -/
def DiffersAt (xs ys : List α) (i : Nat) : Prop := ∃ x y, xs[i]? = some x ∧ ys[i]? = some y ∧ x ≠ y

theorem DiffersAt.symm (h : DiffersAt xs ys i) : DiffersAt ys xs i := by
  obtain ⟨x, y, hx, hy, different⟩ := h
  exact ⟨y, x, hy, hx, different.symm⟩

theorem differsAt_comm : DiffersAt xs ys i ↔ DiffersAt ys xs i := ⟨.symm, .symm⟩

theorem DiffersAt.lt (h : DiffersAt xs ys i) : i < xs.length ∧ i < ys.length := by
  obtain ⟨x, y, hx, hy, -⟩ := h
  exact ⟨(List.getElem?_eq_some_iff.mp hx).1, (List.getElem?_eq_some_iff.mp hy).1⟩

@[simp]
theorem differsAt_cons_zero : DiffersAt (x :: xs) (y :: ys) 0 ↔ x ≠ y := by simp [DiffersAt]

@[simp]
theorem differsAt_cons_succ : DiffersAt (x :: xs) (y :: ys) (i + 1) ↔ DiffersAt xs ys i := by simp [DiffersAt]

@[simp]
theorem not_differsAt_self (xs : List α) (i : Nat) : ¬ DiffersAt xs xs i := by
  rintro ⟨x, y, hx, hy, different⟩
  exact different (Option.some.inj (hx.symm.trans hy))

theorem agree_cons : (∀ i, ¬ DiffersAt (x :: xs) (y :: ys) i) ↔ x = y ∧ ∀ i, ¬ DiffersAt xs ys i := by
  constructor
  · intro agree
    exact ⟨not_not.mp (differsAt_cons_zero.not.mp (agree 0)), fun i => differsAt_cons_succ.not.mp (agree (i + 1))⟩
  · rintro ⟨rfl, agree⟩ i
    cases i with
    | zero => simp
    | succ i => exact differsAt_cons_succ.not.mpr (agree i)

/-- Lists of one length that differ nowhere are equal. -/
theorem eq_of_agree (length : xs.length = ys.length) (agree : ∀ i, ¬ DiffersAt xs ys i) : xs = ys := by
  refine List.ext_getElem length fun i hx hy => ?_
  by_contra different
  exact agree i ⟨_, _, List.getElem?_eq_getElem hx, List.getElem?_eq_getElem hy, different⟩

variable [DecidableEq α]

theorem firstDifference?_eq_none : firstDifference? xs ys = none ↔ ∀ i, ¬ DiffersAt xs ys i := by
  induction xs generalizing ys with
  | nil => simp [firstDifference?, DiffersAt]
  | cons x xs ih =>
      cases ys with
      | nil => simp [firstDifference?, DiffersAt]
      | cons y ys =>
          rw [firstDifference?, agree_cons, ← ih]
          by_cases same : x = y <;> simp [same]

theorem isLeast_of_firstDifference? (h : firstDifference? xs ys = some i) : IsLeast {j | DiffersAt xs ys j} i := by
  induction xs generalizing ys i with
  | nil => simp [firstDifference?] at h
  | cons x xs ih =>
      cases ys with
      | nil => simp [firstDifference?] at h
      | cons y ys =>
          unfold firstDifference? at h
          split at h
          · rename_i same
            obtain ⟨j, hj, rfl⟩ := Option.map_eq_some_iff.mp h
            obtain ⟨differs, least⟩ := ih hj
            refine ⟨differsAt_cons_succ.mpr differs, fun k hk => ?_⟩
            cases k with
            | zero => exact absurd same (differsAt_cons_zero.mp hk)
            | succ k => exact Nat.succ_le_succ (least (differsAt_cons_succ.mp hk))
          · rename_i different
            cases h
            exact ⟨differsAt_cons_zero.mpr different, fun k _ => Nat.zero_le k⟩

end Lists

variable {F : PrimeField}

namespace Constraints

/-- The copy table, which triples do not have. -/
def copies : Constraints F → List Copy
  | .rank1 _ => []
  | .gate _ copies => copies

theorem eq_of_toList {constraints constraints' : Constraints F} (backend : constraints.backend = constraints'.backend)
    (list : constraints.toList = constraints'.toList) (copies : constraints.copies = constraints'.copies) :
    constraints = constraints' := by
  cases constraints with
  | rank1 triples =>
      cases constraints' with
      | rank1 triples' => rw [List.map_injective_iff.mpr (fun _ _ => Constraint.rank1.inj) list]
      | gate gates' copies' => cases backend
  | gate gates table =>
      cases constraints' with
      | rank1 triples' => cases backend
      | gate gates' table' =>
          rw [List.map_injective_iff.mpr (fun _ _ => Constraint.gate.inj) list, show table = table' from copies]

end Constraints

/-! ## The parts of a comparison -/

/-- The parts in which systems are compared. -/
inductive Part where
  | backend
  | wireCount
  | constraintCount
  | roles
  | inputs
  | constraints
  | hints

/-- The parts are compared in the order of their ranks. -/
def Part.rank : Part → Nat
  | .backend => 0
  | .wireCount => 1
  | .constraintCount => 2
  | .roles => 3
  | .inputs => 4
  | .constraints => 5
  | .hints => 6

theorem Part.rank_injective : Function.Injective Part.rank := by
  intro part other same
  cases part <;> cases other <;> first | rfl | cases same

namespace System

/-- The systems show no difference in a part. Roles, constraints and hints are compared as far as the lists of both
go. -/
def AgreeOn (a b : System F) (ignoreCounts : Bool) : Part → Prop
  | .backend => a.backend = b.backend
  | .wireCount => ignoreCounts = false → a.wireCount = b.wireCount
  | .constraintCount => ignoreCounts = false → a.constraintCount = b.constraintCount
  | .roles => ∀ i, ¬ DiffersAt a.roles b.roles i
  | .inputs => a.publicInputs = b.publicInputs ∧ a.secretInputs = b.secretInputs
  | .constraints => ∀ i, ¬ DiffersAt a.constraints.toList b.constraints.toList i
  | .hints => ∀ i, ¬ DiffersAt a.hints b.hints i

/-- The systems show no difference in all parts of a lower rank. -/
def AgreeBefore (a b : System F) (ignoreCounts : Bool) (part : Part) : Prop :=
  ∀ earlier : Part, earlier.rank < part.rank → a.AgreeOn b ignoreCounts earlier

variable {a b : System F} {ignoreCounts : Bool} {part later : Part}

theorem AgreeOn.symm (h : a.AgreeOn b ignoreCounts part) : b.AgreeOn a ignoreCounts part := by
  cases part with
  | backend => exact Eq.symm h
  | wireCount => exact fun strict => (h strict).symm
  | constraintCount => exact fun strict => (h strict).symm
  | roles => exact fun i differs => h i differs.symm
  | inputs => exact ⟨h.1.symm, h.2.symm⟩
  | constraints => exact fun i differs => h i differs.symm
  | hints => exact fun i differs => h i differs.symm

theorem agreeOn_self (system : System F) (ignoreCounts : Bool) (part : Part) :
    system.AgreeOn system ignoreCounts part := by
  cases part <;> simp [AgreeOn]

theorem AgreeBefore.symm (h : a.AgreeBefore b ignoreCounts part) : b.AgreeBefore a ignoreCounts part :=
  fun earlier lower => (h earlier lower).symm

theorem AgreeBefore.next (before : a.AgreeBefore b ignoreCounts part) (here : a.AgreeOn b ignoreCounts part)
    (rank : later.rank = part.rank + 1) : a.AgreeBefore b ignoreCounts later := by
  intro earlier lower
  rw [rank] at lower
  rcases Nat.lt_succ_iff_lt_or_eq.mp lower with earlierRank | sameRank
  · exact before earlier earlierRank
  · exact Part.rank_injective sameRank ▸ here

theorem AgreeBefore.all (before : a.AgreeBefore b ignoreCounts .hints) (hints : a.AgreeOn b ignoreCounts .hints)
    (part : Part) : a.AgreeOn b ignoreCounts part := by
  cases part with
  | hints => exact hints
  | _ => exact before _ (by decide)

theorem agreeBefore_backend : a.AgreeBefore b ignoreCounts .backend := fun _ lower => absurd lower (Nat.not_lt_zero _)

end System

/-! ## What a difference says -/

namespace Difference

/-- The part that a difference names. -/
def part? : Difference → Option Part
  | .equal => none
  | .different => none
  | .backends _ _ => some .backend
  | .wireCounts _ _ => some .wireCount
  | .constraintCounts _ _ => some .constraintCount
  | .role _ => some .roles
  | .inputs => some .inputs
  | .constraint _ _ _ => some .constraints
  | .hint _ => some .hints

/-- What a difference says about the part it names. -/
def Finding (a b : System F) (ignoreCounts : Bool) : Difference → Prop
  | .equal => a = b
  | .different => a ≠ b ∧ ∀ part, a.AgreeOn b ignoreCounts part
  | .backends left right => left = a.backend ∧ right = b.backend ∧ left ≠ right
  | .wireCounts left right => ignoreCounts = false ∧ left = a.wireCount ∧ right = b.wireCount ∧ left ≠ right
  | .constraintCounts left right =>
    ignoreCounts = false ∧ left = a.constraintCount ∧ right = b.constraintCount ∧ left ≠ right
  | .role index => IsLeast {i | DiffersAt a.roles b.roles i} index
  | .inputs => a.publicInputs ≠ b.publicInputs ∨ a.secretInputs ≠ b.secretInputs
  | .constraint index left right =>
    IsLeast {i | DiffersAt a.constraints.toList b.constraints.toList i} index ∧ left = a.lineAt index ∧
      right = b.lineAt index
  | .hint index => IsLeast {i | DiffersAt a.hints b.hints i} index

/-- The difference is what it says, and no part of a lower rank shows one. -/
structure Describes (a b : System F) (ignoreCounts : Bool) (difference : Difference) : Prop where
  finding : difference.Finding a b ignoreCounts
  before : ∀ part, difference.part? = some part → a.AgreeBefore b ignoreCounts part

/-- The indices are in both systems, and the lines are theirs. -/
def Inside (a b : System F) : Difference → Prop
  | .role index => index < a.wireCount ∧ index < b.wireCount
  | .constraint index left right => a.lines[index]? = some left ∧ b.lines[index]? = some right
  | .hint index => index < a.hints.length ∧ index < b.hints.length
  | _ => True

/-- The same difference with the two sides exchanged. -/
def swap : Difference → Difference
  | .backends left right => .backends right left
  | .wireCounts left right => .wireCounts right left
  | .constraintCounts left right => .constraintCounts right left
  | .constraint index left right => .constraint index right left
  | difference => difference

theorem part?_swap (difference : Difference) : difference.swap.part? = difference.part? := by
  cases difference <;> rfl

variable {a b : System F} {ignoreCounts : Bool} {difference other : Difference}

theorem Finding.swap (h : difference.Finding a b ignoreCounts) : difference.swap.Finding b a ignoreCounts := by
  cases difference with
  | equal => exact Eq.symm h
  | different => exact ⟨h.1.symm, fun part => (h.2 part).symm⟩
  | backends left right => exact ⟨h.2.1, h.1, h.2.2.symm⟩
  | wireCounts left right => exact ⟨h.1, h.2.2.1, h.2.1, h.2.2.2.symm⟩
  | constraintCounts left right => exact ⟨h.1, h.2.2.1, h.2.1, h.2.2.2.symm⟩
  | role index => simpa only [Difference.swap, Finding, differsAt_comm] using h
  | inputs => exact h.imp Ne.symm Ne.symm
  | constraint index left right =>
      obtain ⟨least, hleft, hright⟩ := h
      exact ⟨by simpa only [differsAt_comm] using least, hright, hleft⟩
  | hint index => simpa only [Difference.swap, Finding, differsAt_comm] using h

theorem Describes.found {part : Part} (named : difference.part? = some part) (before : a.AgreeBefore b ignoreCounts part)
    (finding : difference.Finding a b ignoreCounts) : difference.Describes a b ignoreCounts :=
  ⟨finding, fun _ named' => Option.some.inj (named.symm.trans named') ▸ before⟩

theorem Describes.swap (h : difference.Describes a b ignoreCounts) : difference.swap.Describes b a ignoreCounts where
  finding := h.finding.swap
  before part named := (h.before part (part?_swap difference ▸ named)).symm

/-- A difference that names a part is found there. -/
theorem Finding.not_agreeOn (h : difference.Finding a b ignoreCounts) {part : Part}
    (named : difference.part? = some part) : ¬ a.AgreeOn b ignoreCounts part := by
  cases difference with
  | equal => cases named
  | different => cases named
  | backends left right =>
      cases named
      obtain ⟨rfl, rfl, differ⟩ := h
      exact differ
  | wireCounts left right =>
      cases named
      obtain ⟨strict, rfl, rfl, differ⟩ := h
      exact fun agree => differ (agree strict)
  | constraintCounts left right =>
      cases named
      obtain ⟨strict, rfl, rfl, differ⟩ := h
      exact fun agree => differ (agree strict)
  | role index =>
      cases named
      exact fun agree => agree index h.1
  | inputs =>
      cases named
      rintro ⟨publicInputs, secretInputs⟩
      exact h.elim (· publicInputs) (· secretInputs)
  | constraint index left right =>
      cases named
      exact fun agree => agree index h.1.1
  | hint index =>
      cases named
      exact fun agree => agree index h.1

/-- If no part is named, none shows a difference. -/
theorem Finding.agreeOn (h : difference.Finding a b ignoreCounts) (unnamed : difference.part? = none) (part : Part) :
    a.AgreeOn b ignoreCounts part := by
  cases difference with
  | equal => exact h ▸ a.agreeOn_self ignoreCounts part
  | different => exact h.2 part
  | _ => cases unnamed

/-- Two differences that describe the same systems name the same part. -/
theorem Describes.part?_eq (h : difference.Describes a b ignoreCounts) (h' : other.Describes a b ignoreCounts) :
    difference.part? = other.part? := by
  cases named : difference.part? with
  | none =>
      cases named' : other.part? with
      | none => rfl
      | some part' => exact absurd (h.finding.agreeOn named part') (h'.finding.not_agreeOn named')
  | some part =>
      cases named' : other.part? with
      | none => exact absurd (h'.finding.agreeOn named' part) (h.finding.not_agreeOn named)
      | some part' =>
          -- If the ranks differ, the part of the lower rank differs by its own finding but agrees by the other's.
          rcases Nat.lt_trichotomy part.rank part'.rank with lower | same | higher
          · exact absurd (h'.before part' named' part lower) (h.finding.not_agreeOn named)
          · rw [Part.rank_injective same]
          · exact absurd (h.before part named part' higher) (h'.finding.not_agreeOn named')

/-- At most one difference describes two systems. -/
theorem Describes.unique (h : difference.Describes a b ignoreCounts) (h' : other.Describes a b ignoreCounts) :
    difference = other := by
  have part := h.part?_eq h'
  have finding := h.finding
  have finding' := h'.finding
  cases difference with
  | equal =>
      cases other with
      | equal => rfl
      | different => exact absurd finding finding'.1
      | _ => cases part
  | different =>
      cases other with
      | equal => exact absurd finding' finding.1
      | different => rfl
      | _ => cases part
  | backends left right =>
      cases other with
      | backends left' right' =>
          rw [finding.1, finding.2.1, finding'.1, finding'.2.1]
      | _ => cases part
  | wireCounts left right =>
      cases other with
      | wireCounts left' right' =>
          rw [finding.2.1, finding.2.2.1, finding'.2.1, finding'.2.2.1]
      | _ => cases part
  | constraintCounts left right =>
      cases other with
      | constraintCounts left' right' =>
          rw [finding.2.1, finding.2.2.1, finding'.2.1, finding'.2.2.1]
      | _ => cases part
  | role index =>
      cases other with
      | role index' => rw [IsLeast.unique finding finding']
      | _ => cases part
  | inputs =>
      cases other with
      | inputs => rfl
      | _ => cases part
  | constraint index left right =>
      cases other with
      | constraint index' left' right' =>
          rw [finding.2.1, finding.2.2, finding'.2.1, finding'.2.2, finding.1.unique finding'.1]
      | _ => cases part
  | hint index =>
      cases other with
      | hint index' => rw [IsLeast.unique finding finding']
      | _ => cases part

end Difference

namespace System

variable {a b : System F} {ignoreCounts : Bool}

/-! ## The difference that is found -/

/-- The comparison goes through the parts by their ranks. -/
theorem describes_difference (a b : System F) (ignoreCounts : Bool) :
    (a.difference b ignoreCounts).Describes a b ignoreCounts := by
  unfold difference
  split
  · rename_i backends
    exact .found rfl agreeBefore_backend ⟨rfl, rfl, backends⟩
  rename_i sameBackend
  have beforeWireCount : a.AgreeBefore b ignoreCounts .wireCount :=
    agreeBefore_backend.next (not_not.mp sameBackend) rfl
  split
  · rename_i wireCounts
    simp only [Bool.and_eq_true, Bool.not_eq_true', bne_iff_ne] at wireCounts
    exact .found rfl beforeWireCount ⟨wireCounts.1, rfl, rfl, wireCounts.2⟩
  rename_i sameWireCount
  have beforeConstraintCount : a.AgreeBefore b ignoreCounts .constraintCount :=
    beforeWireCount.next (by simpa [AgreeOn] using sameWireCount) rfl
  split
  · rename_i constraintCounts
    simp only [Bool.and_eq_true, Bool.not_eq_true', bne_iff_ne] at constraintCounts
    exact .found rfl beforeConstraintCount ⟨constraintCounts.1, rfl, rfl, constraintCounts.2⟩
  rename_i sameConstraintCount
  have beforeRoles : a.AgreeBefore b ignoreCounts .roles :=
    beforeConstraintCount.next (by simpa [AgreeOn] using sameConstraintCount) rfl
  split
  · rename_i role
    exact .found rfl beforeRoles (isLeast_of_firstDifference? role)
  rename_i sameRoles
  have beforeInputs : a.AgreeBefore b ignoreCounts .inputs :=
    beforeRoles.next (firstDifference?_eq_none.mp sameRoles) rfl
  split
  · rename_i inputs
    exact .found rfl beforeInputs inputs
  rename_i sameInputs
  have beforeConstraints : a.AgreeBefore b ignoreCounts .constraints :=
    beforeInputs.next (by simpa [AgreeOn] using sameInputs) rfl
  split
  · rename_i constraint
    exact .found rfl beforeConstraints ⟨isLeast_of_firstDifference? constraint, rfl, rfl⟩
  rename_i sameConstraints
  have beforeHints : a.AgreeBefore b ignoreCounts .hints :=
    beforeConstraints.next (firstDifference?_eq_none.mp sameConstraints) rfl
  split
  · rename_i hint
    exact .found rfl beforeHints (isLeast_of_firstDifference? hint)
  rename_i sameHints
  have agree : ∀ part, a.AgreeOn b ignoreCounts part := beforeHints.all (firstDifference?_eq_none.mp sameHints)
  split
  · rename_i equal
    exact ⟨equal, nofun⟩
  · rename_i different
    exact ⟨⟨different, agree⟩, nofun⟩

theorem difference_eq_iff {difference : Difference} :
    a.difference b ignoreCounts = difference ↔ difference.Describes a b ignoreCounts :=
  ⟨fun found => found ▸ describes_difference a b ignoreCounts, (describes_difference a b ignoreCounts).unique⟩

theorem difference_eq_equal : a.difference b ignoreCounts = .equal ↔ a = b :=
  difference_eq_iff.trans ⟨Difference.Describes.finding, fun equal => ⟨equal, nofun⟩⟩

theorem difference_swap (a b : System F) (ignoreCounts : Bool) :
    b.difference a ignoreCounts = (a.difference b ignoreCounts).swap :=
  difference_eq_iff.mpr (describes_difference a b ignoreCounts).swap

/-- Systems that agree in all parts, counts included, are told apart by what is not compared part by part. -/
theorem eq_of_agreeOn (agree : ∀ part, a.AgreeOn b false part) (hints : a.hints.length = b.hints.length)
    (copies : a.constraints.copies = b.constraints.copies) : a = b := by
  have sizes : a.constraints.toList.length = b.constraints.toList.length := by
    rw [Constraints.length_toList, Constraints.length_toList]
    exact agree .constraintCount rfl
  have roles : a.roles = b.roles := eq_of_agree (agree .wireCount rfl) (agree .roles)
  have constraints : a.constraints = b.constraints :=
    Constraints.eq_of_toList (agree .backend) (eq_of_agree sizes (agree .constraints)) copies
  obtain ⟨publicInputs, secretInputs⟩ : a.publicInputs = b.publicInputs ∧ a.secretInputs = b.secretInputs :=
    agree .inputs
  have bindings : a.hints = b.hints := eq_of_agree hints (agree .hints)
  cases a
  cases b
  simp only [mk.injEq]
  exact ⟨roles, publicInputs, secretInputs, constraints, bindings⟩

/-- The last comparison, of whole systems, can only fail for what is compared in no part. -/
theorem differ_of_different (h : a.difference b false = .different) :
    a.hints.length ≠ b.hints.length ∨ a.constraints.copies ≠ b.constraints.copies := by
  obtain ⟨different, agree⟩ := (difference_eq_iff.mp h).finding
  by_contra same
  rw [not_or, not_not, not_not] at same
  exact different (eq_of_agreeOn agree same.1 same.2)

/-! ## What is shown of it -/

theorem lineAt_eq {system : System F} {index : Nat} {c : Constraint F}
    (h : system.constraints.toList[index]? = some c) : system.lineAt index = c.line index := by
  rw [lineAt, List.getD_eq_getElem?_getD, getElem?_of_constraintLines system.constraintLines_prefix h, Option.getD_some]

/-- The lines of a difference are those of two constraints that differ. -/
theorem constraints_of_difference {index : Nat} {left right : String}
    (found : a.difference b ignoreCounts = .constraint index left right) :
    ∃ c d, a.constraints.toList[index]? = some c ∧ b.constraints.toList[index]? = some d ∧ c ≠ d ∧
      left = c.line index ∧ right = d.line index := by
  obtain ⟨⟨⟨c, d, hc, hd, different⟩, -⟩, hleft, hright⟩ := (difference_eq_iff.mp found).finding
  exact ⟨c, d, hc, hd, different, hleft.trans (lineAt_eq hc), hright.trans (lineAt_eq hd)⟩

/-- Lines of a listing show constraints, whatever follows them, and different constraints are shown by different
lines. Hence a difference of constraints can be seen in the lines that it shows. -/
theorem constraints_visible :
    Function.Injective (Triple.listing : Triple F → String) ∧
    Function.Injective (Gate.listing : Gate F → String) ∧
    (∀ (system : System F) (index : Nat) (inside : index < system.constraints.toList.length),
      (Text.lines system.listing)[index]? = some (system.constraints.toList[index].line index)) ∧
    ∀ (a b : System F) (ignoreCounts : Bool) (index : Nat) (left right : String),
      a.difference b ignoreCounts = .constraint index left right →
        left ≠ right ∧ (Text.lines a.listing)[index]? = some left ∧ (Text.lines b.listing)[index]? = some right ∧
        ∃ c d, a.constraints.toList[index]? = some c ∧ b.constraints.toList[index]? = some d ∧
          left = c.line index ∧ right = d.line index := by
  refine ⟨triple_listing_injective, gate_listing_injective, fun system index inside => ?_, ?_⟩
  · exact getElem?_of_constraintLines system.constraintLines_prefix_listing (List.getElem?_eq_getElem inside)
  · intro a b ignoreCounts index left right found
    obtain ⟨c, d, hc, hd, different, rfl, rfl⟩ := constraints_of_difference found
    exact ⟨(line_injective index).ne different, getElem?_of_constraintLines a.constraintLines_prefix_listing hc,
      getElem?_of_constraintLines b.constraintLines_prefix_listing hd, c, d, hc, hd, rfl, rfl⟩

/-- The secret is the square of a constant. The name of the hint looks like a line of the listing. -/
def squareOf (k : PrimeField.seven.Elem) : System .seven where
  roles := [.secretInput]
  publicInputs := []
  secretInputs := [⟨⟨0⟩, "x"⟩]
  constraints := .rank1 [⟨.ofConstant k, .ofConstant k, .ofWire ⟨0⟩⟩]
  hints := [⟨"f\n1: g", [⟨0⟩], [], 0⟩]

theorem squareOf_visible :
    (squareOf 2).difference (squareOf 3) false = .constraint 0 ((squareOf 2).lineAt 0) ((squareOf 3).lineAt 0) ∧
    (squareOf 2).lineAt 0 ≠ (squareOf 3).lineAt 0 ∧
    (Text.lines (squareOf 2).listing)[0]? = some ((squareOf 2).constraints.toList[0].line 0) :=
  ⟨by decide +kernel, (constraints_visible.2.2.2 (squareOf 2) (squareOf 3) false 0 _ _ (by decide +kernel)).1,
    constraints_visible.2.2.1 (squareOf 2) 0 (by decide)⟩

/-- A difference points into both systems. -/
theorem difference_inside (a b : System F) (ignoreCounts : Bool) : (a.difference b ignoreCounts).Inside a b := by
  cases found : a.difference b ignoreCounts with
  | role index => exact (difference_eq_iff.mp found).finding.1.lt
  | constraint index left right =>
      obtain ⟨c, d, hc, hd, -, rfl, rfl⟩ := constraints_of_difference found
      exact ⟨getElem?_of_constraintLines a.constraintLines_prefix hc,
        getElem?_of_constraintLines b.constraintLines_prefix hd⟩
  | hint index => exact (difference_eq_iff.mp found).finding.1.lt
  | _ => trivial

end System

end ArithCircuit
