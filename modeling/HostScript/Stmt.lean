import HostScript.Expr

/-! Statements and programs. A branch remembers whether its condition was decided when it was built;
the branch not taken is then dead. -/

namespace HostScript

/-- Statements. A declaration is one only while a text is read; a program keeps its names. -/
inductive Stmt where
  | declare (names : List String)
  | assign (target : Variable) (value : Expr)
  | ret (value : Expr)
  | expr (value : Expr)
  | empty
  | block (body : List Stmt)
  | branch (condition : Expr) (decided : Option Bool) (thenBranch : Stmt) (elseBranch : Option Stmt)

namespace Stmt

/-- Assign to a variable of the same type. -/
def mkAssign (target : Variable) (value : Expr) : Except SemanticError Stmt :=
  if value.ty = target.ty then .ok (.assign target value)
  else .error (.typeMismatch ("assignment to variable '" ++ target.name ++ "'") none target.ty value.ty)

/-- Return an integer. -/
def mkRet (value : Expr) : Except SemanticError Stmt :=
  if value.ty = .integer then .ok (.ret value)
  else .error (.typeMismatch "return statement" none .integer value.ty)

/-- Branch on a boolean, which may be decided already. -/
def mkBranch (condition : Expr) (thenBranch : Stmt) (elseBranch : Option Stmt) : Except SemanticError Stmt :=
  if condition.ty = .boolean then
    .ok (.branch condition (condition.fold.bind Value.boolean?) thenBranch elseBranch)
  else .error (.typeMismatch "if condition" none .boolean condition.ty)

mutual

/-- Whether the statement cannot be passed without a return. -/
def returns : Stmt → Bool
  | ret _ => true
  | block body => anyReturns body
  | branch _ (some true) thenBranch _ => thenBranch.returns
  | branch _ (some false) _ elseBranch => optionReturns elseBranch
  | branch _ none thenBranch elseBranch => thenBranch.returns && optionReturns elseBranch
  | declare _ | assign _ _ | expr _ | empty => false

/-- Whether one of the statements cannot be passed without a return. -/
def anyReturns : List Stmt → Bool
  | [] => false
  | s :: body => s.returns || anyReturns body

/-- Whether there is a branch and it cannot be passed without a return. -/
def optionReturns : Option Stmt → Bool
  | none => false
  | some s => s.returns

end

end Stmt

/-- A program: the names of its locals and its statements. -/
structure Program where
  locals : List String
  body : List Stmt

end HostScript
