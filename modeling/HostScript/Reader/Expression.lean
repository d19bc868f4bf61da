import HostScript.Grammar.Tables
import HostScript.Reader.Basic

/-! Expressions are read by precedence: `subexpression n ceiling` reads an operand and then, from left
to right, the operators of a priority below `ceiling` with their right operands. The first argument
is a budget of steps; `expression` gives one that grows with the text. -/

namespace HostScript
namespace Reader

open Grammar (ExprState)

/-- The binary operator that comes next, if one does. -/
def nextBinary (ctx : Context) : Reader ExprState (Option BinaryOp) := do
  match ← peek ctx with
  | some token => return if token.kind = .binaryOperator then token.payload.binary? else none
  | none => return none

/-- A literal stands for its value. -/
def constant (token : Token) : Reader ExprState Expr :=
  match token.payload.constant? with
  | some value => return .const value
  | none => fail (malformed token token.kind)

/-- A token in front of an operand stands for its operator. -/
def prefixOp (token : Token) : Reader ExprState UnaryOp :=
  match token.payload.unary? with
  | some op => return op
  | none => fail (malformed token token.kind)

mutual

/-- An operand and the operators of a priority below the ceiling behind it. -/
def subexpression (ctx : Context) : Nat → Nat → Reader ExprState Expr
  | 0, _ => throw .exhausted
  | n + 1, ceiling => do
    let left ← operand ctx n
    operators ctx n ceiling left

/-- The operators of a priority below the ceiling that follow the left operand. -/
def operators (ctx : Context) : Nat → Nat → Expr → Reader ExprState Expr
  | 0, _, _ => throw .exhausted
  | n + 1, ceiling, left => do
    match ← nextBinary ctx with
    | none => return left
    | some op =>
      if ceiling ≤ op.priority then return left
      else
        match ← accept ctx [.binaryOperator] .pre with
        | none => return left
        | some token =>
          let right ← subexpression ctx n op.priority
          let tree ← locate token.position (Expr.mkBinary op left right)
          operators ctx n ceiling tree

/-- A parenthesised expression, a call, a variable, an operand with an operator in front, or a
    literal. -/
def operand (ctx : Context) : Nat → Reader ExprState Expr
  | 0 => throw .exhausted
  | n + 1 => do
    match ← accept ctx [.leftPar] .pre with
    | some _ =>
      let inner ← subexpression ctx n BinaryOp.loosest
      let _ ← expect ctx [.rightPar] .post
      return inner
    | none =>
      match ← accept ctx [.name] .pre with
      | some name =>
        match ← accept ctx [.leftPar] .post with
        | some _ =>
          let args ← callArgs ctx n
          let function ← resolveFunction ctx name
          locate name.position (Expr.mkCall name.text function.handle function.type args)
        | none =>
          setState .post
          return .var (← resolveVariable ctx name)
      | none =>
        match ← accept ctx [.unaryOperator] .pre with
        | some token =>
          let op ← prefixOp token
          let inner ← subexpression ctx n 0
          locate token.position (Expr.mkUnary op inner)
        | none =>
          let token ← expect ctx [.leftPar, .name, .unaryOperator, .literal] .post
          constant token

/-- The arguments of a call behind its opening parenthesis, up to the closing one. -/
def callArgs (ctx : Context) : Nat → Reader ExprState (List Expr)
  | 0 => throw .exhausted
  | n + 1 => do
    match ← accept ctx [.rightPar] .post with
    | some _ => return []
    | none =>
      setState .pre
      moreArgs ctx n

/-- One argument or more. -/
def moreArgs (ctx : Context) : Nat → Reader ExprState (List Expr)
  | 0 => throw .exhausted
  | n + 1 => do
    let arg ← subexpression ctx n BinaryOp.loosest
    match ← accept ctx [.rightPar] .post with
    | some _ => return [arg]
    | none =>
      let _ ← expect ctx [.comma] .pre
      let args ← moreArgs ctx n
      return arg :: args

end

/-- Steps enough for every expression at the front of the text: a character pays for four. -/
def budget (cursor : Cursor) : Nat := 4 * cursor.rest.length + 4

/-- Read the longest expression. -/
def expression (ctx : Context) (cursor : Cursor) : Except Stop (Expr × Cursor) :=
  (subexpression ctx (budget cursor) BinaryOp.loosest).run Grammar.expression cursor

end Reader
end HostScript
