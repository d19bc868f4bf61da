import HostScript.Scope

/-! What a running program needs of its host, and what can go wrong in a run. -/

namespace HostScript

/-- How a run fails. Addresses are those of the instruction that fails. -/
inductive RuntimeError where
  | stackUnderflow (address : Nat)
  | divisionByZero (address : Nat)
  | argumentCount (expected actual : Nat)
  | host (reason : String)
  | unboundLabel (label : Nat)
  | typeConfusion (address : Nat) (expected : Ty) (actual : Option Value)
  | missingReturn
  deriving DecidableEq

/-- A value as shown in the message of a type confusion. -/
def Value.shown : Value → String
  | integer n => "Integer(" ++ Decimal.ofInt n.toInt ++ ")"
  | boolean b => "Boolean(" ++ (Value.boolean b).text ++ ")"

namespace RuntimeError

/-- The outcome of a host function as shown in the message of a type confusion. -/
def shownOption : Option Value → String
  | none => "None"
  | some value => "Some(" ++ value.shown ++ ")"

/-- The message of a failed run. -/
def message : RuntimeError → String
  | stackUnderflow address => s!"Stack underflow at instruction {Decimal.ofNat address}"
  | divisionByZero address => s!"Division by zero at instruction {Decimal.ofNat address}"
  | argumentCount expected actual =>
    s!"Argument count mismatch: expected {Decimal.ofNat expected}, got {Decimal.ofNat actual}"
  | host reason => s!"Host error: {reason}"
  | unboundLabel label => s!"Jump to unbound label L{Decimal.ofNat label}"
  | typeConfusion address expected actual =>
    s!"Type confusion at instruction {Decimal.ofNat address}: expected {expected.text}, got {shownOption actual}"
  | missingReturn => "Execution ran past the end of the code without returning"

end RuntimeError

/-- A host with states `σ`: any machine that answers these three requests. -/
structure Host (σ : Type) where
  loadGlobal : GlobalHandle → EStateM RuntimeError σ Int64
  storeGlobal : GlobalHandle → Int64 → EStateM RuntimeError σ Unit
  call : FunctionHandle → List Value → EStateM RuntimeError σ (Option Value)

end HostScript
