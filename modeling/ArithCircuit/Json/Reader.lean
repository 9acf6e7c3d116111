import ArithCircuit.Json.Basic
import ArithCircuit.Text.Hex

/-!
# Reading JSON text

Each reader takes a value from the front of the characters and gives what follows it. Nothing beyond
the grammar is accepted: no comment, no comma before a closing bracket, no control character in a
text, no zero before other digits.
-/

namespace ArithCircuit.Json

/-- Only these four characters may stand between the parts of a text. -/
def isBlank (c : Char) : Bool := c = ' ' || c = '\t' || c = '\n' || c = '\r'

def skipBlank (cs : List Char) : List Char := cs.dropWhile isBlank

/-! ## Texts -/

/-- What a text is spelled with: whole characters and halves of surrogate pairs. -/
inductive Piece where
  | char (c : Char)
  | high (bits : Nat)
  | low (bits : Nat)

/-- The piece that a number of sixteen bits stands for. -/
def pieceOfUnit (n : Nat) : Piece :=
  if 0xD800 ≤ n ∧ n < 0xDC00 then .high (n - 0xD800)
  else if 0xDC00 ≤ n ∧ n < 0xE000 then .low (n - 0xDC00)
  else .char (Char.ofNat n)

/-- The characters that the pieces spell, if every half has its other half next to it. -/
def joinPieces : List Piece → Option (List Char)
  | [] => some []
  | .char c :: rest => (c :: ·) <$> joinPieces rest
  | .high a :: .low b :: rest => (Char.ofNat (0x10000 + a * 0x400 + b) :: ·) <$> joinPieces rest
  | _ => none

/-- What a character stands for after a backslash. -/
def unescape? : Char → Option Char
  | '"' => some '"'
  | '\\' => some '\\'
  | '/' => some '/'
  | 'b' => some '\x08'
  | 'f' => some '\x0c'
  | 'n' => some '\n'
  | 'r' => some '\r'
  | 't' => some '\t'
  | _ => none

/-- The number of sixteen bits that four digits spell. -/
def unit? (a b c d : Char) : Option Nat := do
  return (((← Text.hexValue? a) * 16 + (← Text.hexValue? b)) * 16 + (← Text.hexValue? c)) * 16
    + (← Text.hexValue? d)

/-- The pieces up to the closing quote. -/
def readPieces : List Char → Option (List Piece × List Char)
  | '"' :: rest => some ([], rest)
  | '\\' :: 'u' :: a :: b :: c :: d :: rest => do
    let piece := pieceOfUnit (← unit? a b c d)
    let (pieces, rest) ← readPieces rest
    return (piece :: pieces, rest)
  | '\\' :: c :: rest => do
    let c ← unescape? c
    let (pieces, rest) ← readPieces rest
    return (.char c :: pieces, rest)
  | c :: rest => do
    guard (' ' ≤ c)
    let (pieces, rest) ← readPieces rest
    return (.char c :: pieces, rest)
  | [] => none

/-- The text after its opening quote. -/
def readText (cs : List Char) : Option (Option String × List Char) := do
  let (pieces, rest) ← readPieces cs
  return (String.ofList <$> joinPieces pieces, rest)

/-! ## Numbers -/

/-- At least one digit. -/
def readDigits (cs : List Char) : Option (List Char × List Char) :=
  match cs.takeWhile Char.isDigit with
  | [] => none
  | digits => some (digits, cs.dropWhile Char.isDigit)

/-- The characters after a fraction, if there is one. -/
def skipFraction : List Char → Option (List Char)
  | '.' :: rest => Prod.snd <$> readDigits rest
  | cs => some cs

/-- The characters after an exponent, if there is one. -/
def skipExponent : List Char → Option (List Char)
  | c :: rest =>
    if c = 'e' ∨ c = 'E' then
      match rest with
      | '+' :: rest | '-' :: rest => Prod.snd <$> readDigits rest
      | rest => Prod.snd <$> readDigits rest
    else some (c :: rest)
  | [] => some []

def natOfDigits (digits : List Char) : Nat :=
  digits.foldl (fun n c => n * 10 + (c.toNat - '0'.toNat)) 0

/-- A number without its sign. It has a value if it is nothing but digits. -/
def readUnsigned (cs : List Char) : Option (Option Nat × List Char) := do
  let (digits, afterDigits) ← readDigits cs
  guard (digits.head? ≠ some '0' ∨ digits.length = 1)
  let rest ← skipExponent (← skipFraction afterDigits)
  let isWhole := afterDigits.head?.all fun c => c ∉ ['.', 'e', 'E']
  return (if isWhole then some (natOfDigits digits) else none, rest)

/-- A number with a minus sign has no value, not even zero. -/
def readNumber : List Char → Option (Option Nat × List Char)
  | '-' :: rest => do return (none, (← readUnsigned rest).2)
  | cs => readUnsigned cs

/-! ## Values -/

mutual

/-- The next value; `fuel` bounds the depth of the recursion. -/
def readValue : (fuel : Nat) → List Char → Option (Json × List Char)
  | 0, _ => none
  | fuel + 1, cs =>
    match skipBlank cs with
    | 'n' :: 'u' :: 'l' :: 'l' :: rest => some (.null, rest)
    | 't' :: 'r' :: 'u' :: 'e' :: rest => some (.bool true, rest)
    | 'f' :: 'a' :: 'l' :: 's' :: 'e' :: rest => some (.bool false, rest)
    | '"' :: rest => do
      let (value?, rest) ← readText rest
      return (.text value?, rest)
    | '[' :: rest =>
      match skipBlank rest with
      | ']' :: rest => some (.array [], rest)
      | rest => do
        let (items, rest) ← readItems fuel rest
        return (.array items, rest)
    | '\x7b' :: rest =>
      match skipBlank rest with
      | '\x7d' :: rest => some (.object [], rest)
      | rest => do
        let (fields, rest) ← readFields fuel rest
        return (.object fields, rest)
    | rest => do
      let (value?, rest) ← readNumber rest
      return (.number value?, rest)

/-- At least one item, and the bracket that closes the array. -/
def readItems : (fuel : Nat) → List Char → Option (List Json × List Char)
  | 0, _ => none
  | fuel + 1, cs => do
    let (item, rest) ← readValue fuel cs
    match skipBlank rest with
    | ',' :: rest =>
      let (items, rest) ← readItems fuel rest
      return (item :: items, rest)
    | ']' :: rest => return ([item], rest)
    | _ => none

/-- At least one field, and the brace that closes the object. -/
def readFields : (fuel : Nat) → List Char → Option (List (Option String × Json) × List Char)
  | 0, _ => none
  | fuel + 1, cs =>
    match skipBlank cs with
    | '"' :: rest => do
      let (name?, rest) ← readText rest
      match skipBlank rest with
      | ':' :: rest =>
        let (value, rest) ← readValue fuel rest
        match skipBlank rest with
        | ',' :: rest =>
          let (fields, rest) ← readFields fuel rest
          return ((name?, value) :: fields, rest)
        | '\x7d' :: rest => return ([(name?, value)], rest)
        | _ => none
      | _ => none
    | _ => none

end

/-- The value that the whole text spells. Each character takes at most two levels of the
recursion. -/
def ofText? (text : String) : Option Json := do
  let cs := text.toList
  let (value, rest) ← readValue (2 * cs.length + 1) cs
  if skipBlank rest = [] then some value else none

end ArithCircuit.Json
