import ArithCircuit.Constraint.Basic

/-!
# Options of a compilation
-/

namespace ArithCircuit

structure CompileOptions where
  backend : Backend := .rank1
  /-- Folds operations on known constants and shares one wire for each constant. -/
  eliminateConstantWires : Bool := true
  /-- Compiles twice and requires both results to be equal. -/
  checkDeterminism : Bool := false
deriving DecidableEq

/-- The backend that a setting names, in any case of the ASCII letters. -/
def Backend.ofSetting? (setting : String) : Option Backend :=
  match setting.toLower with
  | "rank1" | "r1cs" => some .rank1
  | "gate" | "plonk" | "scs" => some .gate
  | _ => none

/-- The truth value that a setting names, in any case of the ASCII letters. -/
def flagOfSetting? (setting : String) : Option Bool :=
  match setting.toLower with
  | "1" | "true" | "yes" | "on" => some true
  | "0" | "false" | "no" | "off" => some false
  | _ => none

namespace CompileOptions

/-- The default options, overridden by the settings that are present and name a value. -/
def ofSettings (backend? eliminate? determinism? : Option String) : CompileOptions :=
  let base : CompileOptions := {}
  { backend := (backend?.bind Backend.ofSetting?).getD base.backend
    eliminateConstantWires := (eliminate?.bind flagOfSetting?).getD base.eliminateConstantWires
    checkDeterminism := (determinism?.bind flagOfSetting?).getD base.checkDeterminism }

def describe (options : CompileOptions) : String :=
  "CompileOptions \x7b backend: " ++ options.backend.name
    ++ s!", eliminate_constant_wires: {options.eliminateConstantWires}"
    ++ s!", check_determinism: {options.checkDeterminism} \x7d"

end CompileOptions

end ArithCircuit
