import HostScript.Code.Chunk
import HostScript.Stmt

/-! The code of trees. A tree is visited in the order of its text; each visit writes behind the code
that a chunk has already. A jump needs its label before its target is known, so the label is made
first and marked when the code has come to the target. -/

namespace HostScript

namespace Variable

/-- The instruction that pushes a variable. -/
def load (v : Variable) : Instr :=
  match v.binding with
  | .parameter index => .loadParam index
  | .localSlot slot => .loadLocal slot
  | .global handle => .loadGlobal handle

/-- The instruction that pops into a variable. -/
def store (v : Variable) : Instr :=
  match v.binding with
  | .parameter index => .storeParam index
  | .localSlot slot => .storeLocal slot
  | .global handle => .storeGlobal handle

end Variable

/-- The sign `+` does nothing. -/
def UnaryOp.code : UnaryOp → List Instr
  | plus => []
  | negate => [.neg]
  | not => [.not]

/-- Write instructions one behind another. -/
def Chunk.writeAll (chunk : Chunk) (code : List Instr) : Chunk := code.foldl write chunk

namespace Expr

mutual

/-- Write the code of an expression. The right operand of a logical operator runs only if the left one
    does not settle the result. -/
def emit : Expr → Chunk → Chunk
  | const value, chunk => chunk.write (.push value)
  | var target, chunk => chunk.write target.load
  | unary op operand, chunk => (operand.emit chunk).writeAll op.code
  | strict op left right, chunk => (right.emit (left.emit chunk)).write (.strict op)
  | logical .or left right, chunk =>
    let (short, chunk) := chunk.newLabel
    let (exit, chunk) := chunk.newLabel
    let chunk := (left.emit chunk).writeAll [.jumpUnless short, .push (.boolean true), .jump exit]
    (right.emit (chunk.mark short)).mark exit
  | logical .and left right, chunk =>
    let (short, chunk) := chunk.newLabel
    let (exit, chunk) := chunk.newLabel
    let chunk := (left.emit chunk).write (.jumpUnless short)
    let chunk := (right.emit chunk).write (.jump exit)
    ((chunk.mark short).write (.push (.boolean false))).mark exit
  | call _ function returns args, chunk => (emitAll args chunk).write (.call function args.length returns)

/-- Write the code of expressions, one behind another. -/
def emitAll : List Expr → Chunk → Chunk
  | [], chunk => chunk
  | e :: es, chunk => emitAll es (e.emit chunk)

end

end Expr

namespace Stmt

mutual

/-- Write the code of a statement. Of a branch that is decided only the live part has code. -/
def emit : Stmt → Chunk → Chunk
  | declare _, chunk | empty, chunk => chunk
  | assign target value, chunk => (value.emit chunk).write target.store
  | ret value, chunk => (value.emit chunk).write .ret
  | expr value, chunk =>
    let chunk := value.emit chunk
    if value.ty.isValue then chunk.write .pop else chunk
  | block body, chunk => emitAll body chunk
  | branch _ (some true) thenBranch _, chunk => thenBranch.emit chunk
  | branch _ (some false) _ elseBranch, chunk => emitOption elseBranch chunk
  | branch condition none thenBranch none, chunk =>
    let (otherwise, chunk) := chunk.newLabel
    let chunk := (condition.emit chunk).write (.jumpUnless otherwise)
    (thenBranch.emit chunk).mark otherwise
  | branch condition none thenBranch (some elseBranch), chunk =>
    let (otherwise, chunk) := chunk.newLabel
    let chunk := (condition.emit chunk).write (.jumpUnless otherwise)
    let (exit, chunk) := (thenBranch.emit chunk).newLabel
    let chunk := (chunk.write (.jump exit)).mark otherwise
    (elseBranch.emit chunk).mark exit

/-- Write the code of statements, one behind another. -/
def emitAll : List Stmt → Chunk → Chunk
  | [], chunk => chunk
  | s :: body, chunk => emitAll body (s.emit chunk)

/-- Write the code of a statement that may be missing. -/
def emitOption : Option Stmt → Chunk → Chunk
  | none, chunk => chunk
  | some s, chunk => s.emit chunk

end

/-- The statement is a return. -/
def isRet : Stmt → Bool
  | ret _ => true
  | _ => false

end Stmt

namespace Program

/-- What stands behind the statements: nothing if the last one is a return, else the code that
    returns zero. -/
def tail (body : List Stmt) : List Instr :=
  if body.getLast?.any Stmt.isRet then [] else [.push (.integer 0), .ret]

/-- The code of a program. -/
def chunk (p : Program) : Chunk := (Stmt.emitAll p.body {}).writeAll (tail p.body)

end Program
end HostScript
