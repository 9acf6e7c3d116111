import Mathlib.Data.String.Basic
import ArithCircuit.Proofs.Hint.Registry

/-!
# Sequences of registrations

Hints are registered one after the other. A registration whose canonical name is taken is refused and changes nothing,
so every name keeps the hint that came first, and the names stay canonical and in order.
-/

namespace ArithCircuit

/-- A request to register a hint. -/
structure Registration where
  name : String
  inputs : Arity
  outputs : Arity
  handler : Handler

namespace Registration

/-- The hint that is registered if the request is granted. -/
def hint (request : Registration) : RegisteredHint :=
  ⟨canonicalName request.name, request.inputs, request.outputs, request.handler⟩

def register (request : Registration) (registry : HintRegistry) : Except DuplicateHint HintRegistry :=
  registry.register request.name request.inputs request.outputs request.handler

end Registration

namespace HintRegistry

/-- The registry after a request. -/
def after (registry : HintRegistry) (request : Registration) : HintRegistry :=
  match request.register registry with
  | .ok registry' => registry'
  | .error _ => registry

/-- The registry after several requests. -/
def afterAll (registry : HintRegistry) (requests : List Registration) : HintRegistry :=
  requests.foldl after registry

/-- The requests that are granted, in order. -/
def granted (registry : HintRegistry) : List Registration → List Registration
  | [] => []
  | request :: rest =>
    match request.register registry with
    | .ok registry' => request :: registry'.granted rest
    | .error _ => registry.granted rest

/-- The names are canonical and in increasing order. -/
structure Ordered (registry : HintRegistry) : Prop where
  increasing : registry.names.Pairwise (· < ·)
  canonical : ∀ name ∈ registry.names, canonicalName name = name

variable {registry registry' : HintRegistry} {request : Registration} {requests : List Registration}

/-! ## One request -/

theorem contains_iff {name : String} : registry.contains name = true ↔ canonicalName name ∈ registry.names := by
  simp [contains, find?, names]

theorem register_of_contains (taken : registry.contains request.name = true) :
    request.register registry = .error ⟨canonicalName request.name⟩ := if_pos taken

theorem register_of_not_contains (free : ¬ registry.contains request.name = true) :
    request.register registry = .ok ⟨insertHint request.hint registry.hints⟩ := if_neg free

theorem after_of_error {duplicate : DuplicateHint} (refused : request.register registry = .error duplicate) :
    registry.after request = registry := by rw [after, refused]

theorem after_of_ok (granted : request.register registry = .ok registry') : registry.after request = registry' := by
  rw [after, granted]

/-- What a request does to a registry. -/
structure Handles (registry : HintRegistry) (request : Registration) : Prop where
  taken_iff : registry.contains request.name = true ↔ canonicalName request.name ∈ registry.names
  refused_iff : ∀ duplicate, request.register registry = .error duplicate ↔
    registry.contains request.name = true ∧ duplicate = ⟨canonicalName request.name⟩
  refused : registry.contains request.name = true → registry.after request = registry
  granted : ¬ registry.contains request.name = true →
    request.register registry = .ok (registry.after request) ∧
      (registry.after request).names.Perm (canonicalName request.name :: registry.names)

theorem handles (registry : HintRegistry) (request : Registration) : registry.Handles request := by
  by_cases taken : registry.contains request.name = true
  · have refused := register_of_contains taken
    exact {
      taken_iff := contains_iff
      refused_iff := fun duplicate => by rw [refused, Except.error.injEq, and_iff_right taken, eq_comm]
      refused := fun _ => after_of_error refused
      granted := fun free => absurd taken free }
  · have granted := register_of_not_contains taken
    exact {
      taken_iff := contains_iff
      refused_iff := fun duplicate => by simp [granted, taken]
      refused := fun taken' => absurd taken' taken
      granted := fun _ => by
        rw [after_of_ok granted]
        exact ⟨granted, (perm_insertHint request.hint registry.hints).map _⟩ }

/-- Before the first greater name, a new name is in its place. -/
theorem increasing_insertHint {hint : RegisteredHint} {hints : List RegisteredHint}
    (increasing : hints.Pairwise (·.name < ·.name)) (new : ∀ other ∈ hints, other.name ≠ hint.name) :
    (insertHint hint hints).Pairwise (·.name < ·.name) := by
  induction hints with
  | nil => exact List.pairwise_singleton _ _
  | cons first rest ih =>
      obtain ⟨above, increasing⟩ := List.pairwise_cons.mp increasing
      obtain ⟨different, new⟩ := List.forall_mem_cons.mp new
      unfold insertHint
      split
      · rename_i before
        refine List.pairwise_cons.mpr ⟨List.forall_mem_cons.mpr ⟨before, fun other hother => ?_⟩,
          List.pairwise_cons.mpr ⟨above, increasing⟩⟩
        exact lt_trans before (above other hother)
      · rename_i notBefore
        refine List.pairwise_cons.mpr ⟨fun other hother => ?_, ih increasing new⟩
        rcases List.mem_cons.mp ((perm_insertHint hint rest).subset hother) with rfl | old
        · exact lt_of_le_of_ne (not_lt.mp notBefore) different
        · exact above other old

theorem Ordered.after (ordered : registry.Ordered) (request : Registration) : (registry.after request).Ordered := by
  by_cases taken : registry.contains request.name = true
  · rwa [(registry.handles request).refused taken]
  · obtain ⟨granted, perm⟩ := (registry.handles request).granted taken
    constructor
    · rw [after_of_ok (register_of_not_contains taken)]
      refine List.pairwise_map.mpr (increasing_insertHint (List.pairwise_map.mp ordered.increasing) ?_)
      intro other hother same
      have there : request.hint.name ∈ registry.names := same ▸ List.mem_map_of_mem hother
      exact taken (contains_iff.mpr there)
    · intro name hname
      rcases List.mem_cons.mp (perm.subset hname) with rfl | old
      · exact canonicalName_canonicalName request.name
      · exact ordered.canonical name old

/-! ## Several requests -/

theorem Ordered.afterAll (ordered : registry.Ordered) (requests : List Registration) :
    (registry.afterAll requests).Ordered := by
  induction requests generalizing registry with
  | nil => exact ordered
  | cons request rest ih => exact ih (ordered.after request)

theorem ordered_empty : HintRegistry.empty.Ordered := ⟨.nil, nofun⟩

theorem ordered_builtin : HintRegistry.builtin.Ordered := ⟨by decide +kernel, by decide +kernel⟩

/-- Every name has the hint that came first: one that was there from the start, or else that of the first request
that was granted. -/
theorem find?_afterAll (registry : HintRegistry) (requests : List Registration) (canonical : String) :
    (registry.afterAll requests).find? canonical
      = (registry.hints ++ (registry.granted requests).map Registration.hint).find? (·.name = canonical) := by
  induction requests generalizing registry with
  | nil => simp [afterAll, granted, find?]
  | cons request rest ih =>
      -- A refused request adds to neither side, and a granted one comes before those that follow it on both.
      change ((registry.after request).afterAll rest).find? canonical = _
      rw [ih, List.find?_append, List.find?_append]
      cases h : request.register registry with
      | error duplicate => simp only [after_of_error h, granted, h]
      | ok registry' =>
          have found := find?_register h canonical
          simp only [find?] at found
          rw [after_of_ok h, found, Option.or_assoc, ← List.find?_append]
          simp only [granted, h, List.map_cons, List.singleton_append]
          rfl

/-! ## Checks and runs -/

/-- Every name is answered for by the first hint of a list with its canonical name. -/
structure AnswersBy (registry : HintRegistry) (hints : List RegisteredHint) : Prop where
  checks : ∀ (b : HintBinding) (hint : RegisteredHint), hints.find? (·.name = canonicalName b.name) = some hint →
    hint.Checks b.inputs.length b.outputs.length (registry.check b)
  gives : ∀ (name : String) (hint : RegisteredHint), hints.find? (·.name = canonicalName name) = some hint →
    ∀ modulus inputs outputs, hint.Gives modulus inputs outputs (registry.invoke name modulus inputs outputs)
  unchecked : ∀ b : HintBinding, hints.find? (·.name = canonicalName b.name) = none →
    registry.check b = .error (.unknown (canonicalName b.name))
  unknown : ∀ name, hints.find? (·.name = canonicalName name) = none →
    ∀ modulus inputs outputs, registry.invoke name modulus inputs outputs = .error (.unknown (canonicalName name))

theorem answersBy_of_find? {hints : List RegisteredHint}
    (same : ∀ canonical, registry.find? canonical = hints.find? (·.name = canonical)) : registry.AnswersBy hints where
  checks _ _ found := check_of_find? ((same _).trans found)
  gives _ _ found := invoke_of_find? ((same _).trans found)
  unchecked _ absent := check_of_absent ((same _).trans absent)
  unknown _ absent := invoke_of_absent ((same _).trans absent)

theorem answersBy_afterAll (registry : HintRegistry) (requests : List Registration) :
    (registry.afterAll requests).AnswersBy
      (registry.hints ++ (registry.granted requests).map Registration.hint) :=
  answersBy_of_find? (find?_afterAll registry requests)

end HintRegistry

end ArithCircuit
