import HostScript.Operator
import HostScript.Scope

/-! Expressions.

The builders check the types of the parts, so that every expression made by them is well typed; the
type of an expression is read off its form. `fold` finds the value that an expression has whatever
the variables and the host give: a decisive operand settles a logical operator on either side. -/

namespace HostScript

/-- Expressions. A call has the name for messages and the handle for the host. -/
inductive Expr where
  | const (value : Value)
  | var (target : Variable)
  | unary (op : UnaryOp) (operand : Expr)
  | strict (op : StrictOp) (left right : Expr)
  | logical (op : LogicalOp) (left right : Expr)
  | call (name : String) (function : FunctionHandle) (returns : Ty) (args : List Expr)

namespace Expr

/-- The type of an expression, read off its form. -/
def ty : Expr → Ty
  | const value => value.ty
  | var target => target.ty
  | unary op _ => op.ty
  | strict op _ _ => op.ty
  | logical _ _ _ => .boolean
  | call _ _ returns _ => returns

/-- Check the type of one operand of a construct. -/
def check (construct : String) (argument : Nat) (expected : Ty) (operand : Expr) : Except SemanticError Unit :=
  if operand.ty = expected then .ok ()
  else .error (.typeMismatch construct (some argument) expected operand.ty)

/-- Apply a prefix operator. -/
def mkUnary (op : UnaryOp) (operand : Expr) : Except SemanticError Expr := do
  check ("operator '" ++ op.symbol ++ "'") 0 op.ty operand
  return .unary op operand

/-- Apply a binary operator. The left operand is checked first. -/
def mkBinary (op : BinaryOp) (left right : Expr) : Except SemanticError Expr := do
  let construct := "operator '" ++ op.symbol ++ "'"
  check construct 0 op.operandTy left
  check construct 1 op.operandTy right
  return match op with
    | .strict op => .strict op left right
    | .logical op => .logical op left right

/-- Check arguments against parameter types, the first of them having the given index. -/
def checkArgs (construct : String) : Nat → List Ty → List Expr → Except SemanticError Unit
  | index, ty :: types, arg :: args => do
    check construct index ty arg
    checkArgs construct (index + 1) types args
  | _, _, _ => .ok ()

/-- Call a function. The number of arguments is checked before their types. -/
def mkCall (name : String) (function : FunctionHandle) (type : FunctionType) (args : List Expr) :
    Except SemanticError Expr := do
  let construct := "function '" ++ name ++ "'"
  if args.length = type.params.length then
    checkArgs construct 0 type.params args
    return .call name function type.result args
  else throw (.argumentCount construct type.params.length args.length)

/-- The value of a logical operator whose operands have the given values, as far as known. -/
def foldLogical (op : LogicalOp) : Option Bool → Option Bool → Option Bool
  | some a, some b => some (op.result a b)
  | some a, none => if a = op.decisive then some a else none
  | none, some b => if b = op.decisive then some b else none
  | none, none => none

/-- The value that the expression has whatever the variables and the host give, if it can be told. -/
def fold : Expr → Option Value
  | const value => some value
  | var _ => none
  | unary op operand => operand.fold.bind op.result?
  | strict op left right =>
    match left.fold.bind Value.integer?, right.fold.bind Value.integer? with
    | some a, some b => op.result? a b
    | _, _ => none
  | logical op left right =>
    (foldLogical op (left.fold.bind Value.boolean?) (right.fold.bind Value.boolean?)).map .boolean
  | call .. => none

end Expr
end HostScript
