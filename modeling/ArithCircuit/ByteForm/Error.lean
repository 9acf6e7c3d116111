/-!
# Why bytes are no system
-/

namespace ArithCircuit

inductive TagKind where
  | backend
  | role
  | slot
deriving DecidableEq

def TagKind.name : TagKind → String
  | .backend => "backend"
  | .role => "role"
  | .slot => "slot"

inductive TextKind where
  | inputName
  | hintName
deriving DecidableEq

def TextKind.name : TextKind → String
  | .inputName => "input name"
  | .hintName => "hint name"

/-- What refers to a constraint by its index. -/
inductive Referrer where
  | copy
  | hintBinding
deriving DecidableEq

def Referrer.name : Referrer → String
  | .copy => "copy constraint"
  | .hintBinding => "hint binding"

inductive FormatError where
  | shortInput
  | shortBuffer
  | badMagic
  | unsupportedVersion (version : Nat)
  | fieldMismatch
  | invalidElement
  | invalidTag (kind : TagKind) (tag : Nat)
  | invalidText (kind : TextKind)
  | wireOutOfRange (wire count : Nat)
  | constraintOutOfRange (referrer : Referrer) (index count : Nat)
  | trailingBytes
deriving DecidableEq

def FormatError.message : FormatError → String
  | .shortInput => "encountered an I/O error: failed to fill whole buffer"
  | .shortBuffer => "encountered an I/O error: failed to write whole buffer"
  | .badMagic => "not a serialized constraint system"
  | .unsupportedVersion version => s!"unsupported format version {version}"
  | .fieldMismatch => "constraint system was compiled for a different field"
  | .invalidElement => "non-canonical field element"
  | .invalidTag kind tag => "invalid " ++ kind.name ++ s!" tag {tag}"
  | .invalidText kind => "invalid UTF-8 in " ++ kind.name
  | .wireOutOfRange wire count => s!"variable {wire} out of range ({count} variables)"
  | .constraintOutOfRange referrer index count =>
    referrer.name ++ s!" refers to constraint {index} out of range ({count} constraints)"
  | .trailingBytes => "trailing bytes after constraint system"

end ArithCircuit
