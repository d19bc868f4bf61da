import HostScript.Host.Basic
import HostScript.Stmt

/-! The meaning of programs, without code: trees are evaluated directly against a host.

Operands and arguments are evaluated from left to right. The right operand of a logical operator is
evaluated only if the left one is not decisive. A branch whose condition was decided beforehand runs
without evaluating it. The first return that is reached ends the program. -/

namespace HostScript

/-- Why an evaluation ends without a value. A tree is stuck if it is not well typed or names a
    variable that has no slot. -/
inductive Fault where
  | divisionByZero
  | wrongResult (expected : Ty) (actual : Option Value)
  | host (error : RuntimeError)
  | stuck
  deriving DecidableEq

/-- The variables of a program and the state of its host. -/
structure Store (σ : Type) where
  params : Array Value
  locals : Array Value
  host : σ

/-- Evaluations, which change the store and may end in a fault. A fault keeps the store it arose in. -/
abbrev Eval (σ : Type) := EStateM Fault (Store σ)

namespace Eval

variable {σ : Type}

/-- Let the host act on its own state. -/
def onHost {α : Type} (act : EStateM RuntimeError σ α) : Eval σ α := fun s =>
  match act s.host with
  | .ok a host => .ok a { s with host := host }
  | .error e host => .error (.host e) { s with host := host }

/-- The value, if there is one; a tree without one is stuck. -/
def orStuck {α : Type} : Option α → Eval σ α
  | some a => pure a
  | none => throw .stuck

/-- The value of a variable. -/
def load (host : Host σ) (v : Variable) : Eval σ Value :=
  match v.binding with
  | .parameter index => do orStuck (← get).params[index]?
  | .localSlot slot => do orStuck (← get).locals[slot]?
  | .global handle => do return .integer (← onHost (host.loadGlobal handle))

/-- Assign to a variable. The host takes integers only. -/
def store (host : Host σ) (v : Variable) (value : Value) : Eval σ Unit :=
  match v.binding with
  | .parameter index => fun s =>
    if index < s.params.size then .ok () { s with params := s.params.setIfInBounds index value }
    else .error .stuck s
  | .localSlot slot => fun s =>
    if slot < s.locals.size then .ok () { s with locals := s.locals.setIfInBounds slot value }
    else .error .stuck s
  | .global handle => do
    let n ← orStuck value.integer?
    onHost (host.storeGlobal handle n)

/-- What a host function gives where a result of the given type is declared. -/
def checkResult : Ty → Option Value → Eval σ (Option Value)
  | .void, _ => return none
  | expected, some value =>
    if value.ty = expected then return some value else throw (.wrongResult expected (some value))
  | expected, none => throw (.wrongResult expected none)

end Eval

namespace Expr

open Eval

variable {σ : Type}

mutual

/-- The value of an expression; the call of a `void` function has none. -/
def eval (host : Host σ) : Expr → Eval σ (Option Value)
  | const value => return some value
  | var target => return some (← load host target)
  | unary op operand => do
    let a ← orStuck (← operand.eval host)
    return some (← orStuck (op.result? a))
  | strict op left right => do
    let a ← orStuck ((← left.eval host).bind Value.integer?)
    let b ← orStuck ((← right.eval host).bind Value.integer?)
    match op.result? a b with
    | some value => return some value
    | none => throw .divisionByZero
  | logical op left right => do
    let a ← orStuck ((← left.eval host).bind Value.boolean?)
    if a = op.decisive then return some (.boolean a)
    else
      let b ← orStuck ((← right.eval host).bind Value.boolean?)
      return some (.boolean b)
  | call _ function returns args => do
    let values ← evalArgs host args
    checkResult returns (← onHost (host.call function values))

/-- The values of arguments, each of which must have one. -/
def evalArgs (host : Host σ) : List Expr → Eval σ (List Value)
  | [] => return []
  | e :: es => do
    let first ← orStuck (← e.eval host)
    return first :: (← evalArgs host es)

end

end Expr

namespace Stmt

open Eval

variable {σ : Type}

mutual

/-- Run a statement; the value of a return that was reached. -/
def exec (host : Host σ) : Stmt → Eval σ (Option Int64)
  | declare _ | empty => return none
  | assign target value => do
    let a ← orStuck (← value.eval host)
    store host target a
    return none
  | ret value => do return some (← orStuck ((← value.eval host).bind Value.integer?))
  | expr value => do
    let _ ← value.eval host
    return none
  | block body => execAll host body
  | branch _ (some true) thenBranch _ => thenBranch.exec host
  | branch _ (some false) _ elseBranch => execOption host elseBranch
  | branch condition none thenBranch elseBranch => do
    let b ← orStuck ((← condition.eval host).bind Value.boolean?)
    if b then thenBranch.exec host else execOption host elseBranch

/-- Run statements up to the first return. -/
def execAll (host : Host σ) : List Stmt → Eval σ (Option Int64)
  | [] => return none
  | s :: body => do
    match ← s.exec host with
    | some n => return some n
    | none => execAll host body

/-- Run a branch that may be missing. -/
def execOption (host : Host σ) : Option Stmt → Eval σ (Option Int64)
  | none => return none
  | some s => s.exec host

end

end Stmt

namespace Program

variable {σ : Type}

/-- The result of a program with the given number of locals, which start at zero. Without a return it
    is zero. -/
def eval (host : Host σ) (p : Program) (localCount : Nat) (args : List Int64) (world : σ) :
    EStateM.Result Fault σ Int64 :=
  match Stmt.execAll host p.body ⟨(args.map .integer).toArray, Array.replicate localCount (.integer 0), world⟩ with
  | .ok result s => .ok (result.getD 0) s.host
  | .error fault s => .error fault s.host

end Program
end HostScript
