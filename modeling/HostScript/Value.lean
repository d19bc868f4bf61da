import HostScript.Text.Decimal

/-! Types and values of the language: 64-bit integers, whose arithmetic wraps, and booleans. A host
function may also give no value; its result type is then `void`. -/

namespace HostScript

/-- The types of the language. -/
inductive Ty where
  | integer
  | boolean
  | void
  deriving DecidableEq

namespace Ty

/-- The type as messages name it. -/
def text : Ty → String
  | integer => "Int"
  | boolean => "Bool"
  | void => "Void"

/-- There are values of every type but `void`. -/
def isValue : Ty → Bool
  | void => false
  | _ => true

end Ty

/-- The values of the language. -/
inductive Value where
  | integer (n : Int64)
  | boolean (b : Bool)
  deriving DecidableEq

/-- The bound of the integers that are not negative. -/
def integerLimit : Nat := 9223372036854775808

namespace Value

/-- The type of a value, which is never `void`. -/
def ty : Value → Ty
  | integer _ => .integer
  | boolean _ => .boolean

/-- The integer of a value, if it is one. -/
def integer? : Value → Option Int64
  | integer n => some n
  | boolean _ => none

/-- The truth value of a value, if it is one. -/
def boolean? : Value → Option Bool
  | integer _ => none
  | boolean b => some b

/-- The value as a literal shows it; a negative integer has no literal of its own. -/
def text : Value → String
  | integer n => Decimal.ofInt n.toInt
  | boolean true => "true"
  | boolean false => "false"

end Value

/-- The type of a host function. -/
structure FunctionType where
  params : List Ty
  result : Ty
  deriving DecidableEq

/-- The type of a function as messages name it. -/
def FunctionType.text (t : FunctionType) : String :=
  "(" ++ ", ".intercalate (t.params.map Ty.text) ++ ") -> " ++ t.result.text

end HostScript
