import HostScript.Reader.Rule

/-! Programs: at most one declaration of locals, then statements up to the end of the text, of which
at least one returns for certain. -/

namespace HostScript

open Grammar (ProgramState)

namespace Reader

/-- The declared names, if the program starts with a declaration. -/
def programLocals (ctx : Context) : Reader ProgramState (List String) := do
  match ← accept ctx [.declaration] .body with
  | some token =>
    match token.payload with
    | .stmt (.declare names) => return names
    | _ => fail (malformed token .declaration)
  | none => return []

/-- The statements up to the end of the text. -/
def programBody (ctx : Context) : Nat → Reader ProgramState (List Stmt)
  | 0 => throw .exhausted
  | n + 1 => do
    if ← atEnd then return []
    else
      let first ← expectStatement ctx [.statement] .body
      return first :: (← programBody ctx n)

end Reader

namespace Program

/-- Read a whole text in a scope; the scope comes back with the declared locals. -/
def read (scope : Scope) (text : String) : Except Stop (Program × Scope) := do
  let (locals, cursor) ← (Reader.programLocals scope.context).run Grammar.program (.ofString text)
  let scope := scope.declareAll locals
  let (body, _) ← Reader.run (do
    Reader.setState .body
    Reader.programBody scope.context (cursor.rest.length + 1)) Grammar.program cursor
  if Stmt.anyReturns body then return (⟨locals, body⟩, scope)
  else throw (.error .unreachableReturn)

end Program
end HostScript
