import HostScript.Stmt

/-! Trees as source text. The words of a tree stand in the order of the text, and only the
parentheses are written that its shape needs: an operand that binds looser than its operator, a right
operand that binds as loosely, and any binary operand of a prefix operator. -/

namespace HostScript
namespace Expr

/-- The priority of the outermost operator; anything without a binary operator there binds tightest. -/
def priority : Expr → Nat
  | strict op _ _ => (BinaryOp.strict op).priority
  | logical op _ _ => (BinaryOp.logical op).priority
  | _ => 0

/-- Put parentheses around an operand that needs them. -/
def parenthesised (needed : Bool) (words : List String) : List String :=
  if needed then "(" :: words ++ [")"] else words

mutual

/-- The words of an expression. -/
def words : Expr → List String
  | const value => [value.text]
  | var target => [target.name]
  | unary op operand => op.symbol :: parenthesised (0 < operand.priority) operand.words
  | strict op left right =>
    parenthesised ((BinaryOp.strict op).priority < left.priority) left.words ++
      (BinaryOp.strict op).symbol ::
        parenthesised ((BinaryOp.strict op).priority ≤ right.priority) right.words
  | logical op left right =>
    parenthesised ((BinaryOp.logical op).priority < left.priority) left.words ++
      (BinaryOp.logical op).symbol ::
        parenthesised ((BinaryOp.logical op).priority ≤ right.priority) right.words
  | call name _ _ args => name :: "(" :: argWords args ++ [")"]

/-- Arguments with commas between them. -/
def argWords : List Expr → List String
  | [] => []
  | e :: es => e.words ++ moreArgWords es

/-- The arguments behind the first, each with its comma. -/
def moreArgWords : List Expr → List String
  | [] => []
  | e :: es => "," :: e.words ++ moreArgWords es

end

end Expr

/-- Names with commas between them. -/
def nameWords (names : List String) : List String := names.intersperse ","

namespace Stmt

mutual

/-- The words of a statement; whether a condition was decided does not show. -/
def words : Stmt → List String
  | declare names => "var" :: nameWords names ++ [";"]
  | assign target value => target.name :: "=" :: value.words ++ [";"]
  | ret value => "return" :: value.words ++ [";"]
  | expr value => value.words ++ [";"]
  | empty => [";"]
  | block body => "\x7b" :: allWords body ++ ["\x7d"]
  | branch condition _ thenBranch elseBranch =>
    "if" :: "(" :: condition.words ++ ")" :: thenBranch.words ++ elseWords elseBranch

/-- The words of statements in a row. -/
def allWords : List Stmt → List String
  | [] => []
  | s :: body => s.words ++ allWords body

/-- The words of the branch that may be missing, with its `else`. -/
def elseWords : Option Stmt → List String
  | none => []
  | some s => "else" :: s.words

end

end Stmt

namespace Program

/-- The declaration of the locals, if there are any, and the statements. -/
def words (p : Program) : List String :=
  (if p.locals.isEmpty then [] else (Stmt.declare p.locals).words) ++ Stmt.allWords p.body

/-- The program as text, with one blank between words. -/
def source (p : Program) : String := " ".intercalate p.words

end Program
end HostScript
