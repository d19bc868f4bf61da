import HostScript.Value

/-! Operators: their symbols, types, binding strength and meaning.

A strict operator needs both operands. A logical one is decided by its left operand when that is
decisive, so its code jumps; the two kinds are apart from here on. -/

namespace HostScript

/-- Prefix operators. -/
inductive UnaryOp where
  | plus
  | negate
  | not
  deriving DecidableEq

namespace UnaryOp

/-- All prefix operators, in the order in which they are tried on a text. -/
def all : List UnaryOp := [plus, negate, not]

/-- How the operator is written. -/
def symbol : UnaryOp → String
  | plus => "+"
  | negate => "-"
  | not => "!"

/-- The prefix operator that a symbol stands for. -/
def ofSymbol? (symbol : String) : Option UnaryOp := all.find? (·.symbol == symbol)

/-- The type of the operand, which is also that of the result. -/
def ty : UnaryOp → Ty
  | plus | negate => .integer
  | not => .boolean

/-- The result for an operand; none if that has another type than the operator takes. -/
def result? : UnaryOp → Value → Option Value
  | plus, .integer n => some (.integer n)
  | negate, .integer n => some (.integer (-n))
  | not, .boolean b => some (.boolean (!b))
  | _, _ => none

end UnaryOp

/-- Binary operators that need both operands. -/
inductive StrictOp where
  | mul
  | div
  | add
  | sub
  | lt
  | le
  | gt
  | ge
  | eq
  | ne
  deriving DecidableEq

namespace StrictOp

/-- The type of the result; the operands are integers. -/
def ty : StrictOp → Ty
  | mul | div | add | sub => .integer
  | lt | le | gt | ge | eq | ne => .boolean

/-- Arithmetic wraps and division truncates; there is no result for a division by zero. -/
def result? : StrictOp → Int64 → Int64 → Option Value
  | mul, a, b => some (.integer (a * b))
  | div, a, b => if b = 0 then none else some (.integer (a / b))
  | add, a, b => some (.integer (a + b))
  | sub, a, b => some (.integer (a - b))
  | lt, a, b => some (.boolean (a < b))
  | le, a, b => some (.boolean (a ≤ b))
  | gt, a, b => some (.boolean (b < a))
  | ge, a, b => some (.boolean (b ≤ a))
  | eq, a, b => some (.boolean (a = b))
  | ne, a, b => some (.boolean (a ≠ b))

end StrictOp

/-- Binary operators that may need only the left operand. -/
inductive LogicalOp where
  | and
  | or
  deriving DecidableEq

namespace LogicalOp

/-- The operand value that settles the result, and is it. -/
def decisive : LogicalOp → Bool
  | and => false
  | or => true

/-- The result if both operands are known. -/
def result : LogicalOp → Bool → Bool → Bool
  | and, a, b => a && b
  | or, a, b => a || b

end LogicalOp

/-- All binary operators. -/
inductive BinaryOp where
  | strict (op : StrictOp)
  | logical (op : LogicalOp)
  deriving DecidableEq

namespace BinaryOp

/-- All binary operators, in the order in which they are tried on a text: one whose symbol begins
    another symbol comes after that. -/
def all : List BinaryOp :=
  [.strict .add, .strict .sub, .strict .div, .strict .mul, .logical .and, .logical .or,
    .strict .ge, .strict .le, .strict .gt, .strict .lt, .strict .eq, .strict .ne]

/-- How the operator is written. -/
def symbol : BinaryOp → String
  | strict .mul => "*"
  | strict .div => "/"
  | strict .add => "+"
  | strict .sub => "-"
  | strict .lt => "<"
  | strict .le => "<="
  | strict .gt => ">"
  | strict .ge => ">="
  | strict .eq => "=="
  | strict .ne => "!="
  | logical .and => "&&"
  | logical .or => "||"

/-- The binary operator that a symbol stands for. -/
def ofSymbol? (symbol : String) : Option BinaryOp := all.find? (·.symbol == symbol)

/-- An operator with a smaller priority binds tighter. -/
def priority : BinaryOp → Nat
  | strict .mul | strict .div => 1
  | strict .add | strict .sub => 2
  | strict .lt | strict .le | strict .gt | strict .ge => 3
  | strict .eq | strict .ne => 4
  | logical .and => 5
  | logical .or => 6

/-- A bound above all priorities. -/
def loosest : Nat := 7

/-- The type of both operands. -/
def operandTy : BinaryOp → Ty
  | strict _ => .integer
  | logical _ => .boolean

end BinaryOp
end HostScript
