import HostScript.Reader.Expression
import HostScript.Reader.Statement

/-! The rules, tied together. `Rule.body` reads a rule when it is told how to read the rules inside
it; `Rule.readWithin` lets rules nest to a given depth, and `Rule.read` to a depth that no text of
that length reaches: a statement holds at most a block or an `if` around an expression before a
character is consumed. -/

namespace HostScript
namespace Rule

/-- Make a tree the payload of a token. -/
def wrap {α : Type} (make : α → Payload) : Except Stop (α × Cursor) → Except Stop (Payload × Cursor)
  | .ok (tree, cursor) => .ok (make tree, cursor)
  | .error reason => .error reason

/-- Read one rule, the rules inside it by the context. -/
def body (rule : Rule) (ctx : Context) (cursor : Cursor) : Except Stop (Payload × Cursor) :=
  match rule with
  | expression => wrap .expr (Reader.expression ctx cursor)
  | statement => wrap .stmt (Reader.statement ctx cursor)
  | declaration => wrap .stmt (Reader.declaration ctx cursor)
  | assignment => wrap .stmt (Reader.assignment ctx cursor)
  | returnStatement => wrap .stmt (Reader.returnStatement ctx cursor)
  | ifStatement => wrap .stmt (Reader.ifStatement ctx cursor)
  | blockStatement => wrap .stmt (Reader.blockStatement ctx cursor)

/-- Read one rule, with rules inside it down to the given depth. -/
def readWithin (scope : Scope) : Nat → RuleReader
  | 0 => fun _ _ => .error .exhausted
  | depth + 1 => fun rule cursor => rule.body ⟨scope, readWithin scope depth⟩ cursor

/-- The deepest nesting of rules that the text behind the cursor allows. -/
def depth (cursor : Cursor) : Nat := 3 * cursor.rest.length + 3

/-- Read one rule from the front of the text. -/
def read (scope : Scope) : RuleReader := fun rule cursor => readWithin scope (depth cursor) rule cursor

end Rule

/-- The context of a scope. -/
def Scope.context (scope : Scope) : Context := ⟨scope, Rule.read scope⟩

end HostScript
