import Mathlib.Data.List.Basic
import ArithCircuit.Hint.Name

/-!
# Spellings of a hint's name

A name has two spellings if and only if it is that of an anonymous callback, and the legacy spelling is the
canonical one. All other names are their own canonical name, so two different names belong to one hint only
if they are the two spellings of a callback.
-/

namespace ArithCircuit

theorem anonymousMark_eq : anonymousMark = ['i', 'n', 'i', 't', '.', 'f', 'u', 'n', 'c'] := rfl

theorem legacyMark_eq : legacyMark = ['g', 'l', 'o', 'b', '.', '.', 'f', 'u', 'n', 'c'] := rfl

/-! ## The number at the end of a name -/

/-- The digits at the end of a text are the ones that follow its last character that is no digit. -/
theorem trailingDigits {rest digits : List Char} {last : Char} (hlast : Text.isDecimalDigit last = false)
    (hdigits : ∀ c ∈ digits, Text.isDecimalDigit c = true) :
    ((rest ++ [last] ++ digits).reverse.takeWhile Text.isDecimalDigit).reverse = digits ∧
      ((rest ++ [last] ++ digits).reverse.dropWhile Text.isDecimalDigit).reverse = rest ++ [last] := by
  have hreverse : ∀ c ∈ digits.reverse, Text.isDecimalDigit c = true := by simpa using hdigits
  have reversed : (rest ++ [last] ++ digits).reverse = digits.reverse ++ last :: rest.reverse := by simp
  rw [reversed, List.takeWhile_append_of_pos hreverse, List.dropWhile_append_of_pos hreverse,
    List.takeWhile_cons_of_neg (by simp [hlast]), List.dropWhile_cons_of_neg (by simp [hlast])]
  simp

/-- What comes before the number of a callback's name ends in a letter. -/
theorem trailingDigits_of_mark {mark : List Char} (hmark : mark = anonymousMark ∨ mark = legacyMark)
    (stem : List Char) {digits : List Char} (hdigits : ∀ c ∈ digits, Text.isDecimalDigit c = true) :
    ((stem ++ mark ++ digits).reverse.takeWhile Text.isDecimalDigit).reverse = digits ∧
      ((stem ++ mark ++ digits).reverse.dropWhile Text.isDecimalDigit).reverse = stem ++ mark := by
  have letter : Text.isDecimalDigit 'c' = false := by decide
  rcases hmark with rfl | rfl
  · have split : stem ++ anonymousMark = (stem ++ "init.fun".toList) ++ ['c'] := by simp [anonymousMark_eq]
    rw [split]
    exact trailingDigits letter hdigits
  · have split : stem ++ legacyMark = (stem ++ "glob..fun".toList) ++ ['c'] := by simp [legacyMark_eq]
    rw [split]
    exact trailingDigits letter hdigits

/-- The stem and the number of a callback's name are recovered from either spelling. -/
theorem eq_of_append_mark {mark stem stem' digits digits' : List Char}
    (hmark : mark = anonymousMark ∨ mark = legacyMark) (hdigits : ∀ c ∈ digits, Text.isDecimalDigit c = true)
    (hdigits' : ∀ c ∈ digits', Text.isDecimalDigit c = true)
    (same : stem ++ mark ++ digits = stem' ++ mark ++ digits') : stem = stem' ∧ digits = digits' := by
  obtain ⟨number, rest⟩ := trailingDigits_of_mark hmark stem hdigits
  obtain ⟨number', rest'⟩ := trailingDigits_of_mark hmark stem' hdigits'
  have front : stem ++ mark = stem' ++ mark := by rw [← rest, ← rest', same]
  exact ⟨List.append_cancel_right front, by rw [← number, ← number', same]⟩

/-! ## The parts of a callback's name -/

/-- The stem ends in a dot and is on one line, and the number has a digit. -/
structure IsCallback (stem digits : List Char) : Prop where
  dot : stem.getLast? = some '.'
  line : '\n' ∉ stem
  number : digits ≠ []
  decimal : ∀ c ∈ digits, Text.isDecimalDigit c = true

variable {name stem digits : List Char}

theorem anonymousParts?_eq_some : anonymousParts? name = some (stem, digits) ↔
    IsCallback stem digits ∧ name = stem ++ anonymousMark ++ digits := by
  constructor
  · intro h
    unfold anonymousParts? at h
    dsimp only at h
    split at h
    · rename_i found
      obtain ⟨number, suffix, dot, line⟩ := found
      obtain ⟨rfl, rfl⟩ := Prod.mk.inj (Option.some.inj h)
      refine ⟨⟨dot, line, number, fun c hc => ?_⟩, ?_⟩
      · exact List.all_eq_true.mp List.all_takeWhile c (List.mem_reverse.mp hc)
      · rw [List.suffix_iff_eq_append.mp suffix, ← List.reverse_append, List.takeWhile_append_dropWhile,
          List.reverse_reverse]
    · cases h
  · rintro ⟨callback, rfl⟩
    obtain ⟨number, rest⟩ := trailingDigits_of_mark (.inl rfl) stem callback.decimal
    have front : (stem ++ anonymousMark).take ((stem ++ anonymousMark).length - anonymousMark.length) = stem := by
      simp
    unfold anonymousParts?
    dsimp only
    rw [number, rest, front, if_pos ⟨callback.number, List.suffix_append _ _, callback.dot, callback.line⟩]

/-- The legacy spelling is no name of an anonymous callback. -/
theorem anonymousParts?_legacy (stem : List Char) (decimal : ∀ c ∈ digits, Text.isDecimalDigit c = true) :
    anonymousParts? (stem ++ legacyMark ++ digits) = none := by
  have other : ¬ anonymousMark <:+ stem ++ legacyMark := fun h => by
    have within := List.suffix_of_suffix_length_le h (List.suffix_append stem legacyMark)
      (by rw [anonymousMark_eq, legacyMark_eq]; decide)
    rw [anonymousMark_eq, legacyMark_eq] at within
    revert within
    decide
  unfold anonymousParts?
  dsimp only
  rw [(trailingDigits_of_mark (.inr rfl) stem decimal).2, if_neg fun h => other h.2.1]

/-! ## Canonical names -/

@[simp]
theorem canonicalName_canonicalName (name : String) :
    canonicalName (canonicalName name) = canonicalName name := by
  cases h : anonymousParts? name.toList with
  | none => simp [canonicalName, h]
  | some parts =>
      obtain ⟨stem, digits⟩ := parts
      have legacy := anonymousParts?_legacy stem (anonymousParts?_eq_some.mp h).1.decimal
      simp only [canonicalName, h, String.toList_ofList, legacy]

/-- The name of an anonymous callback is `stem`, then `init` or by its legacy spelling `glob.`, then `tail`. -/
structure Callback (stem tail : String) : Prop where
  dot : ∃ package, stem = package ++ "."
  line : '\n' ∉ stem.toList
  number : ∃ digits, tail = ".func" ++ digits ∧ digits ≠ "" ∧ ∀ c ∈ digits.toList, Text.isDecimalDigit c = true

namespace Callback

variable {stem stem' tail tail' : String}

/-- The two spellings in characters. -/
theorem parts (callback : Callback stem tail) : ∃ digits, IsCallback stem.toList digits ∧
    (stem ++ "init" ++ tail).toList = stem.toList ++ anonymousMark ++ digits ∧
    (stem ++ "glob." ++ tail).toList = stem.toList ++ legacyMark ++ digits := by
  obtain ⟨⟨package, rfl⟩, line, digits, rfl, number, decimal⟩ := callback
  refine ⟨digits.toList, ⟨?_, line, ?_, decimal⟩, ?_, ?_⟩
  · simp
  · simpa using number
  · simp [anonymousMark_eq]
  · simp [legacyMark_eq]

theorem canonicalName_init (callback : Callback stem tail) :
    canonicalName (stem ++ "init" ++ tail) = stem ++ "glob." ++ tail := by
  obtain ⟨digits, isCallback, anonymous, legacy⟩ := callback.parts
  rw [canonicalName, anonymousParts?_eq_some.mpr ⟨isCallback, anonymous⟩]
  exact String.toList_inj.mp (by rw [String.toList_ofList, legacy])

theorem canonicalName_glob (callback : Callback stem tail) :
    canonicalName (stem ++ "glob." ++ tail) = stem ++ "glob." ++ tail := by
  rw [← callback.canonicalName_init, canonicalName_canonicalName]

/-- The legacy spelling tells the stem and the tail. -/
theorem glob_inj (callback : Callback stem tail) (callback' : Callback stem' tail')
    (same : stem ++ "glob." ++ tail = stem' ++ "glob." ++ tail') : stem = stem' ∧ tail = tail' := by
  obtain ⟨digits, isCallback, -, legacy⟩ := callback.parts
  obtain ⟨digits', isCallback', -, legacy'⟩ := callback'.parts
  have characters : stem.toList ++ legacyMark ++ digits = stem'.toList ++ legacyMark ++ digits' := by
    rw [← legacy, ← legacy', same]
  have stems : stem = stem' :=
    String.toList_inj.mp (eq_of_append_mark (.inr rfl) isCallback.decimal isCallback'.decimal characters).1
  refine ⟨stems, ?_⟩
  rw [stems] at same
  exact String.append_right_inj _ |>.mp same

end Callback

/-- A name that is not canonical is that of an anonymous callback. -/
theorem callback_of_canonicalName_ne {name : String} (different : canonicalName name ≠ name) :
    ∃ stem tail, Callback stem tail ∧ name = stem ++ "init" ++ tail := by
  cases h : anonymousParts? name.toList with
  | none => exact absurd (by simp [canonicalName, h]) different
  | some parts =>
      obtain ⟨stem, digits⟩ := parts
      obtain ⟨isCallback, split⟩ := anonymousParts?_eq_some.mp h
      obtain ⟨package, rfl⟩ := List.getLast?_eq_some_iff.mp isCallback.dot
      refine ⟨.ofList (package ++ ['.']), ".func" ++ .ofList digits, ⟨⟨.ofList package, ?_⟩, ?_, _, rfl, ?_, ?_⟩, ?_⟩
      · exact String.toList_inj.mp (by simp)
      · simpa using isCallback.line
      · simpa using isCallback.number
      · simpa using isCallback.decimal
      · exact String.toList_inj.mp (by simp [split, anonymousMark_eq])

/-- The two spellings of a callback's name differ. -/
theorem init_ne_glob (stem tail : String) : stem ++ "init" ++ tail ≠ stem ++ "glob." ++ tail := by
  intro same
  have lengths := congrArg String.length same
  simp only [String.length_append] at lengths
  have : "init".length ≠ "glob.".length := by decide
  omega

/-- Two different names of one hint are the two spellings of a callback's name. -/
theorem callback_of_canonicalName_eq {x y : String} (different : x ≠ y) (same : canonicalName x = canonicalName y) :
    ∃ stem tail, Callback stem tail ∧ (x = stem ++ "init" ++ tail ∧ y = stem ++ "glob." ++ tail ∨
      y = stem ++ "init" ++ tail ∧ x = stem ++ "glob." ++ tail) := by
  by_cases hx : canonicalName x = x
  · have hy : canonicalName y ≠ y := fun hy => different (by rw [← hx, same, hy])
    obtain ⟨stem, tail, callback, rfl⟩ := callback_of_canonicalName_ne hy
    refine ⟨stem, tail, callback, .inr ⟨rfl, ?_⟩⟩
    rw [← hx, same, callback.canonicalName_init]
  · obtain ⟨stem, tail, callback, rfl⟩ := callback_of_canonicalName_ne hx
    refine ⟨stem, tail, callback, .inl ⟨rfl, ?_⟩⟩
    rw [callback.canonicalName_init] at same
    by_cases hy : canonicalName y = y
    · rw [← hy, ← same]
    · -- Both would be spelled alike, and the legacy spelling tells which callback it is.
      obtain ⟨stem', tail', callback', rfl⟩ := callback_of_canonicalName_ne hy
      rw [callback'.canonicalName_init] at same
      obtain ⟨rfl, rfl⟩ := callback.glob_inj callback' same
      exact absurd rfl different

/-- Canonical names merge the two spellings of a callback's name and no other names. -/
theorem canonicalName_merges :
    (∀ name, canonicalName (canonicalName name) = canonicalName name) ∧
    (∀ name, canonicalName name ≠ name ↔ ∃ stem tail, Callback stem tail ∧ name = stem ++ "init" ++ tail) ∧
    (∀ stem tail, Callback stem tail → canonicalName (stem ++ "init" ++ tail) = stem ++ "glob." ++ tail) ∧
    ∀ x y, x ≠ y → (canonicalName x = canonicalName y ↔ ∃ stem tail, Callback stem tail ∧
      (x = stem ++ "init" ++ tail ∧ y = stem ++ "glob." ++ tail ∨
        y = stem ++ "init" ++ tail ∧ x = stem ++ "glob." ++ tail)) := by
  refine ⟨canonicalName_canonicalName, fun name => ⟨callback_of_canonicalName_ne, ?renamed⟩,
    fun _ _ => Callback.canonicalName_init, fun x y different => ⟨callback_of_canonicalName_eq different, ?merged⟩⟩
  case renamed =>
    rintro ⟨stem, tail, callback, rfl⟩
    rw [callback.canonicalName_init]
    exact (init_ne_glob stem tail).symm
  case merged =>
    rintro ⟨stem, tail, callback, ⟨rfl, rfl⟩ | ⟨rfl, rfl⟩⟩
    · rw [callback.canonicalName_init, callback.canonicalName_glob]
    · rw [callback.canonicalName_init, callback.canonicalName_glob]

/-- A callback of a package whose name itself looks like that of a callback, with a number in two scripts. -/
theorem canonicalName_nested_callback :
    Callback "a.init.func1.glob..init." ".func2٣" ∧
      canonicalName ("a.init.func1.glob..init." ++ "init" ++ ".func2٣")
        = "a.init.func1.glob..init." ++ "glob." ++ ".func2٣" ∧
      "a.init.func1.glob..init.init.func2٣" ≠ "a.init.func1.glob..init.glob..func2٣" ∧
      canonicalName "a.init.func1.glob..init.init.func2٣" = canonicalName "a.init.func1.glob..init.glob..func2٣" := by
  have callback : Callback "a.init.func1.glob..init." ".func2٣" :=
    ⟨⟨"a.init.func1.glob..init", by decide⟩, by decide, "2٣", by decide, by decide, List.all_eq_true.mp (by decide)⟩
  have different : "a.init.func1.glob..init.init.func2٣" ≠ "a.init.func1.glob..init.glob..func2٣" := by decide
  refine ⟨callback, canonicalName_merges.2.2.1 _ _ callback, different, ?_⟩
  exact (canonicalName_merges.2.2.2 _ _ different).mpr ⟨_, _, callback, .inl ⟨by decide, by decide⟩⟩

end ArithCircuit
