import ArithCircuit.Linear.Wire

/-!
# Hint bindings
-/

namespace ArithCircuit

/-- The outputs get their values by running the named hint on the inputs, after the constraints
before `position` and before the later ones. -/
structure HintBinding where
  name : String
  inputs : List Wire
  outputs : List Wire
  position : Nat
deriving DecidableEq

def HintBinding.wires (binding : HintBinding) : List Wire := binding.inputs ++ binding.outputs

end ArithCircuit
