import ArithCircuit.Digest.Blake2s
import ArithCircuit.Text.DecimalDigit

/-!
# Names of hints

A hint is known by its canonical name. The name `stem.init.funcN` of an anonymous callback and its
legacy spelling `stem.glob..funcN` belong to one hint; the legacy spelling is the canonical one.
-/

namespace ArithCircuit

/-- What stands between the stem and the number of an anonymous callback's name. -/
def anonymousMark : List Char := "init.func".toList

/-- What stands there in the legacy spelling. -/
def legacyMark : List Char := "glob..func".toList

/-- The stem, with its final dot, and the number of an anonymous callback's name. -/
def anonymousParts? (name : List Char) : Option (List Char × List Char) :=
  let digits := (name.reverse.takeWhile Text.isDecimalDigit).reverse
  let rest := (name.reverse.dropWhile Text.isDecimalDigit).reverse
  let stem := rest.take (rest.length - anonymousMark.length)
  if digits ≠ [] ∧ anonymousMark <:+ rest ∧ stem.getLast? = some '.' ∧ '\n' ∉ stem then
    some (stem, digits)
  else none

def canonicalName (name : String) : String :=
  match anonymousParts? name.toList with
  | some (stem, digits) => String.ofList (stem ++ legacyMark ++ digits)
  | none => name

/-- The first four bytes, most significant first, of the digest of the canonical name. -/
def hintId (name : String) : Nat :=
  ofBigEndian ((Blake2s.digest (canonicalName name).toUTF8.toList).take 4)

end ArithCircuit
