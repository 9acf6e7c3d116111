/-!
# Wires

A wire is a variable of a constraint system; the table hands them out in order and remembers how
each one gets its value.
-/

namespace ArithCircuit

structure Wire where
  index : Nat
deriving DecidableEq

/-- How a wire gets its value. -/
inductive Role where
  | publicInput
  | secretInput
  | internal
deriving DecidableEq

def Role.name : Role → String
  | .publicInput => "Public"
  | .secretInput => "Secret"
  | .internal => "Internal"

/-- A declared input with its name. -/
structure Input where
  wire : Wire
  name : String
deriving DecidableEq

/-- The wires allocated so far. -/
structure WireTable where
  roles : Array Role := #[]
  publicInputs : Array Input := #[]
  secretInputs : Array Input := #[]

namespace WireTable

def size (table : WireTable) : Nat := table.roles.size

/-- The next wire, and the table in which it has the given role. -/
def allocate (table : WireTable) (role : Role) : Wire × WireTable :=
  (⟨table.size⟩, { table with roles := table.roles.push role })

/-- Allocates a wire and records its name. An internal wire has no place among the inputs, so its
name is dropped. -/
def allocateInput (table : WireTable) (role : Role) (name : String) : Wire × WireTable :=
  let (wire, table) := table.allocate role
  match role with
  | .publicInput => (wire, { table with publicInputs := table.publicInputs.push ⟨wire, name⟩ })
  | .secretInput => (wire, { table with secretInputs := table.secretInputs.push ⟨wire, name⟩ })
  | .internal => (wire, table)

/-- The role of a wire; `none` if it was never allocated. -/
def role? (table : WireTable) (wire : Wire) : Option Role := table.roles[wire.index]?

end WireTable

end ArithCircuit
