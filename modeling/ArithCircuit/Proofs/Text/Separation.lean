import Mathlib.Data.List.Basic

/-!
# Renderings that can be told from what follows them

A number in decimal ends where the digits end. So it is told from a text that starts with it, if no digit
follows, and what follows is told as well.
-/

namespace ArithCircuit.Text

/-- The text does not go on with a digit. -/
def StartsNoDigit (s : List Char) : Prop := ∀ c ∈ s.head?, c.isDigit = false

variable {α : Type} {follows : List Char → Prop} {render : α → String}

/-- What is rendered and what comes after it are told from both together, if what comes after is of a kind. -/
def Separates (follows : List Char → Prop) (render : α → String) : Prop :=
  ∀ ⦃x y s t⦄, follows s → follows t → (render x).toList ++ s = (render y).toList ++ t → x = y ∧ s = t

theorem Separates.injective (separates : Separates follows render) (nothing : follows []) :
    Function.Injective render := fun x y same => (separates nothing nothing (by rw [same])).1

/-- A separator that starts with no digit comes after the rendering. -/
theorem Separates.before (separates : Separates StartsNoDigit render) (separator : String)
    (startsNoDigit : (separator.toList.head?.any fun c => !c.isDigit) = true) {x y : α} {s t : List Char}
    (same : (render x).toList ++ (separator.toList ++ s) = (render y).toList ++ (separator.toList ++ t)) :
    x = y ∧ s = t := by
  have starts (rest : List Char) : StartsNoDigit (separator.toList ++ rest) := by
    cases h : separator.toList with
    | nil => simp [h] at startsNoDigit
    | cons c cs => simpa [StartsNoDigit, h] using startsNoDigit
  obtain ⟨equal, rest⟩ := separates (starts s) (starts t) same
  exact ⟨equal, List.append_cancel_left rest⟩

/-! ## Numbers -/

theorem isDigit_of_mem_toString {n : Nat} {c : Char} (h : c ∈ (toString n).toList) : c.isDigit = true := by
  rw [Nat.toString_eq_repr, Nat.toList_repr] at h
  exact Nat.isDigit_of_mem_toDigits (by decide) (by decide) h

theorem takeWhile_toString (n : Nat) {s : List Char} (hs : StartsNoDigit s) :
    ((toString n).toList ++ s).takeWhile Char.isDigit = (toString n).toList := by
  rw [List.takeWhile_append_of_pos fun c => isDigit_of_mem_toString]
  cases s with
  | nil => simp
  | cons c s => rw [List.takeWhile_cons_of_neg (by simp [hs c rfl]), List.append_nil]

theorem toString_injective : Function.Injective (toString : Nat → String) := by
  have recovered (n : Nat) : Nat.ofDigitChars 10 (toString n).toList 0 = n := by simp
  intro m n same
  rw [← recovered m, same, recovered n]

theorem separates_toString : Separates StartsNoDigit (toString : Nat → String) := by
  intro m n s t hs ht same
  have digits : (toString m).toList = (toString n).toList := by
    rw [← takeWhile_toString m hs, same, takeWhile_toString n ht]
  exact ⟨toString_injective (String.toList_inj.mp digits), List.append_cancel_left (digits ▸ same)⟩

end ArithCircuit.Text
