import HostScript.Grammar.Tables
import HostScript.Reader.Basic

/-! The statements, one reader for each form. A loop gets a budget of turns; every turn consumes text,
so the length of the text is enough. -/

namespace HostScript
namespace Reader

open Grammar (DeclarationState BlockState IfState)

/-- The names behind `var`, each once, in order of first occurrence; `known` are those before. -/
def declaredNames (ctx : Context) : Nat → List String → Reader DeclarationState (List String)
  | 0, _ => throw .exhausted
  | n + 1, known => do
    let name ← expect ctx [.name] .post
    if isKeyword name.text then fail (.unsupportedIdentifier name.position name.text)
    else
      let known := if known.contains name.text then known else known ++ [name.text]
      match ← accept ctx [.semicolon] .done with
      | some _ => return known
      | none =>
        let _ ← expect ctx [.comma] .pre
        declaredNames ctx n known

/-- The declaration of a program. -/
def declaration (ctx : Context) (cursor : Cursor) : Except Stop (Stmt × Cursor) :=
  run (do
    let _ ← expect ctx [.varWord] .pre
    return .declare (← declaredNames ctx (cursor.rest.length + 1) [])) Grammar.declaration cursor

/-- An assignment. The target is looked up before the value is read, and the types are compared last. -/
def assignment (ctx : Context) (cursor : Cursor) : Except Stop (Stmt × Cursor) :=
  run (do
    let name ← expect ctx [.name] .preAssign
    let _ ← expect ctx [.assign] .postAssign
    let target ← resolveVariable ctx name
    let (value, position) ← expectExpression ctx .postExpr
    let _ ← expect ctx [.semicolon] .done
    locate position (Stmt.mkAssign target value)) Grammar.assignment cursor

/-- A return. -/
def returnStatement (ctx : Context) (cursor : Cursor) : Except Stop (Stmt × Cursor) :=
  run (do
    let _ ← expect ctx [.returnWord] .preExpr
    let (value, position) ← expectExpression ctx .postExpr
    let _ ← expect ctx [.semicolon] .done
    locate position (Stmt.mkRet value)) Grammar.returnStatement cursor

/-- The statements of a block up to its closing brace, which is consumed. -/
def blockBody (ctx : Context) : Nat → Reader BlockState (List Stmt)
  | 0 => throw .exhausted
  | n + 1 => do
    if ← test ctx [.rightBrace] then
      let _ ← expect ctx [.rightBrace] .done
      return []
    else
      let first ← expectStatement ctx [.statement] .inBlock
      return first :: (← blockBody ctx n)

/-- A block, a lone semicolon or an expression for its effect. -/
def blockStatement (ctx : Context) (cursor : Cursor) : Except Stop (Stmt × Cursor) :=
  run (do
    match ← accept ctx [.leftBrace] .inBlock with
    | some _ => return .block (← blockBody ctx (cursor.rest.length + 1))
    | none =>
      match ← accept ctx [.semicolon] .done with
      | some _ => return .empty
      | none =>
        let (value, _) ← expectExpression ctx .inExpr
        let _ ← expect ctx [.semicolon] .done
        return .expr value) Grammar.blockStatement cursor

/-- The branch behind an `else`, if one comes next. It belongs to the nearest `if` before it. -/
def elseBranch (ctx : Context) : Reader IfState (Option Stmt) := do
  match ← accept ctx [.elseWord] .postElse with
  | some _ => return some (← expectStatement ctx [.statement] .done)
  | none =>
    setState .done
    return none

/-- A branch. The type of the condition is checked when both branches have been read. -/
def ifStatement (ctx : Context) (cursor : Cursor) : Except Stop (Stmt × Cursor) :=
  run (do
    let _ ← expect ctx [.ifWord] .preLeftPar
    let _ ← expect ctx [.leftPar] .preExpr
    let (condition, position) ← expectExpression ctx .postExpr
    let _ ← expect ctx [.rightPar] .preBlock
    let thenBranch ← expectStatement ctx [.statement] .postBlock
    locate position (Stmt.mkBranch condition thenBranch (← elseBranch ctx))) Grammar.ifStatement cursor

/-- The kinds of the forms of a statement. -/
def statementForms : List TokenKind := [.assignment, .ifStatement, .returnStatement, .blockStatement]

/-- A statement of any form. -/
def statement (ctx : Context) (cursor : Cursor) : Except Stop (Stmt × Cursor) :=
  run (expectStatement ctx statementForms .done) Grammar.statement cursor

end Reader
end HostScript
