/-!
# JSON values

The values that records are read from and written to, and the views by which they are read.
-/

namespace ArithCircuit

/-- A number has a value if it is written as a natural number, in digits alone. A text has one
unless some escape in it stands for half a character. -/
inductive Json where
  | null
  | bool (value : Bool)
  | number (value? : Option Nat)
  | text (value? : Option String)
  | array (items : List Json)
  | object (fields : List (Option String × Json))

namespace Json

def ofNat (n : Nat) : Json := .number (some n)

def ofString (s : String) : Json := .text (some s)

def ofFields (fields : List (String × Json)) : Json :=
  .object (fields.map fun (name, value) => (some name, value))

def bool? : Json → Option Bool
  | .bool value => some value
  | _ => none

/-- A natural number of at most so many bits. -/
def nat? (bits : Nat) : Json → Option Nat
  | .number (some n) => if n >>> bits = 0 then some n else none
  | _ => none

def string? : Json → Option String
  | .text value? => value?
  | _ => none

def array? : Json → Option (List Json)
  | .array items => some items
  | _ => none

/-- The items of an array, each read in the same way. -/
def list? {α : Type} (item? : Json → Option α) (json : Json) : Option (List α) := do
  (← json.array?).mapM item?

/-- A case of a choice, with the value that belongs to it. A case alone is written as a text. -/
def case? : Json → Option (String × Json)
  | .text (some name) => some (name, .null)
  | .object [(some name, value)] => some (name, value)
  | _ => none

/-- A case that no value belongs to. -/
def bareCase? (json : Json) : Option String :=
  match json.case? with
  | some (name, .null) => some name
  | _ => none

/-- The only value of a name among fields, and `some none` if there is none. -/
def uniqueField? (fields : List (Option String × Json)) (name : String) : Option (Option Json) :=
  match fields.filter (·.1 = some name) with
  | [] => some none
  | [(_, value)] => some (some value)
  | _ => none

/-- The parts of a record, `none` for those left out. A record is an object, in which other fields
are ignored, or an array of the first few parts. -/
def parts? (names : List String) : Json → Option (List (Option Json))
  | .object fields =>
    if fields.all (·.1.isSome) then names.mapM (uniqueField? fields) else none
  | .array items =>
    if items.length ≤ names.length then some ((List.range names.length).map (items[·]?)) else none
  | _ => none

/-- The parts of a record of which none may be left out. -/
def allParts? (names : List String) (json : Json) : Option (List Json) := do
  (← json.parts? names).mapM id

end Json

end ArithCircuit
