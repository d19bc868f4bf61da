import HostScript.Proofs.Results
import HostScript.Stmt

/-! Well-typed trees.

Every part of a typed tree has the type that its place asks for, and every name in it stands for what
the scope holds under it. The builders of `Expr` and `Stmt` make typed trees from typed parts, so the
typing is never checked again. Whether a branch remembers the value of its condition is said apart
(`Settled`): the code of a tree does not depend on it. -/

namespace HostScript

namespace Expr

/-- The operands have the types that the builders ask for, and every name means what the tree says. -/
inductive Typed (scope : Scope) : Expr → Prop
  | const (value : Value) : Typed scope (.const value)
  | var {target : Variable} (found : scope.variableNamed? target.name = some target) : Typed scope (.var target)
  | unary {op : UnaryOp} {operand : Expr} (ty : operand.ty = op.ty) (typed : operand.Typed scope) :
      Typed scope (.unary op operand)
  | strict {op : StrictOp} {left right : Expr} (leftTy : left.ty = .integer) (rightTy : right.ty = .integer)
      (leftTyped : left.Typed scope) (rightTyped : right.Typed scope) : Typed scope (.strict op left right)
  | logical {op : LogicalOp} {left right : Expr} (leftTy : left.ty = .boolean) (rightTy : right.ty = .boolean)
      (leftTyped : left.Typed scope) (rightTyped : right.Typed scope) : Typed scope (.logical op left right)
  | call {name : String} {function : HostFunction} {args : List Expr}
      (found : scope.functionNamed? name = some function) (types : args.map Expr.ty = function.type.params)
      (typed : ∀ e ∈ args, e.Typed scope) :
      Typed scope (.call name function.handle function.type.result args)

variable {scope : Scope}

theorem check_eq_ok {construct : String} {index : Nat} {expected : Ty} {e : Expr} {u : Unit} :
    check construct index expected e = .ok u ↔ e.ty = expected := by
  unfold check
  split <;> simp_all

theorem typed_of_mkUnary {op : UnaryOp} {operand e : Expr} (h : mkUnary op operand = .ok e)
    (typed : operand.Typed scope) : e.Typed scope := by
  obtain ⟨_, hc, he⟩ := Except.ok_of_bind h
  cases he
  exact .unary (check_eq_ok.mp hc) typed

theorem typed_of_mkBinary {op : BinaryOp} {left right e : Expr} (h : mkBinary op left right = .ok e)
    (leftTyped : left.Typed scope) (rightTyped : right.Typed scope) : e.Typed scope := by
  obtain ⟨_, hl, h⟩ := Except.ok_of_bind h
  obtain ⟨_, hr, he⟩ := Except.ok_of_bind h
  cases op with
  | strict op =>
    cases he
    exact .strict (check_eq_ok.mp hl) (check_eq_ok.mp hr) leftTyped rightTyped
  | logical op =>
    cases he
    exact .logical (check_eq_ok.mp hl) (check_eq_ok.mp hr) leftTyped rightTyped

/-- Arguments that pass the check have the types of the parameters. -/
theorem types_of_checkArgs {construct : String} {u : Unit} : ∀ {index : Nat} {types : List Ty} {args : List Expr},
    checkArgs construct index types args = .ok u → args.length = types.length → args.map ty = types
  | _, [], [], _, _ => rfl
  | index, type :: types, arg :: args, h, hlen => by
    obtain ⟨_, hc, h⟩ := Except.ok_of_bind h
    rw [List.map_cons, check_eq_ok.mp hc, types_of_checkArgs h (Nat.succ.inj hlen)]

theorem typed_of_mkCall {name : String} {function : HostFunction} {args : List Expr} {e : Expr}
    (h : mkCall name function.handle function.type args = .ok e)
    (found : scope.functionNamed? name = some function) (typed : ∀ a ∈ args, a.Typed scope) : e.Typed scope := by
  unfold mkCall at h
  split at h
  · obtain ⟨_, hc, he⟩ := Except.ok_of_bind h
    cases he
    exact .call found (types_of_checkArgs hc ‹_›) typed
  · cases h

/-! The builders refuse no parts of the right types. -/

theorem check_of_ty {construct : String} {index : Nat} {expected : Ty} {e : Expr} (h : e.ty = expected) :
    check construct index expected e = .ok () := if_pos h

theorem mkUnary_of_ty {op : UnaryOp} {operand : Expr} (h : operand.ty = op.ty) :
    mkUnary op operand = .ok (.unary op operand) := by
  rw [mkUnary, check_of_ty h]
  rfl

theorem checkArgs_of_types {construct : String} : ∀ {index : Nat} {types : List Ty} {args : List Expr},
    args.map ty = types → checkArgs construct index types args = .ok ()
  | _, _, [], rfl => rfl
  | index, _, arg :: args, rfl => by
    rw [List.map_cons, checkArgs, check_of_ty rfl]
    exact checkArgs_of_types rfl

theorem mkCall_of_types {name : String} {function : FunctionHandle} {type : FunctionType} {args : List Expr}
    (h : args.map ty = type.params) : mkCall name function type args = .ok (.call name function type.result args) := by
  have hlen : args.length = type.params.length := by rw [← h, List.length_map]
  unfold mkCall
  simp only [hlen, if_true, checkArgs_of_types h]
  rfl

/-- No argument of a typed call is without a value. -/
theorem isValue_of_mem_args {function : HostFunction} {args : List Expr} {e : Expr}
    (types : args.map ty = function.type.params) (h : e ∈ args) : e.ty.isValue :=
  function.valued e.ty (types ▸ List.mem_map_of_mem h)

end Expr

namespace Stmt

/-- The expressions are typed and have the types that their places ask for. A declaration is not among the
    statements of a program. -/
inductive Typed (scope : Scope) : Stmt → Prop
  | assign {target : Variable} {value : Expr} (found : scope.variableNamed? target.name = some target)
      (ty : value.ty = target.ty) (typed : value.Typed scope) : Typed scope (.assign target value)
  | ret {value : Expr} (ty : value.ty = .integer) (typed : value.Typed scope) : Typed scope (.ret value)
  | expr {value : Expr} (typed : value.Typed scope) : Typed scope (.expr value)
  | empty : Typed scope .empty
  | block {body : List Stmt} (typed : ∀ s ∈ body, s.Typed scope) : Typed scope (.block body)
  | branch {condition : Expr} {decided : Option Bool} {thenBranch : Stmt} {elseBranch : Option Stmt}
      (ty : condition.ty = .boolean) (typed : condition.Typed scope) (thenTyped : thenBranch.Typed scope)
      (elseTyped : ∀ s ∈ elseBranch, s.Typed scope) :
      Typed scope (.branch condition decided thenBranch elseBranch)

/-- Every branch remembers what its condition folds to. -/
inductive Settled : Stmt → Prop
  | declare (names : List String) : Settled (.declare names)
  | assign (target : Variable) (value : Expr) : Settled (.assign target value)
  | ret (value : Expr) : Settled (.ret value)
  | expr (value : Expr) : Settled (.expr value)
  | empty : Settled .empty
  | block {body : List Stmt} (settled : ∀ s ∈ body, s.Settled) : Settled (.block body)
  | branch {condition : Expr} {thenBranch : Stmt} {elseBranch : Option Stmt}
      (thenSettled : thenBranch.Settled) (elseSettled : ∀ s ∈ elseBranch, s.Settled) :
      Settled (.branch condition (condition.fold.bind Value.boolean?) thenBranch elseBranch)

variable {scope : Scope}

theorem mkAssign_eq_ok {target : Variable} {value : Expr} {s : Stmt} :
    mkAssign target value = .ok s ↔ value.ty = target.ty ∧ s = .assign target value := by
  unfold mkAssign
  split <;> simp_all [eq_comm]

theorem mkRet_eq_ok {value : Expr} {s : Stmt} :
    mkRet value = .ok s ↔ value.ty = .integer ∧ s = .ret value := by
  unfold mkRet
  split <;> simp_all [eq_comm]

theorem mkBranch_eq_ok {condition : Expr} {thenBranch s : Stmt} {elseBranch : Option Stmt} :
    mkBranch condition thenBranch elseBranch = .ok s ↔
      condition.ty = .boolean ∧
        s = .branch condition (condition.fold.bind Value.boolean?) thenBranch elseBranch := by
  unfold mkBranch
  split <;> simp_all [eq_comm]

end Stmt

/-- Every statement of the program is typed in the scope. -/
def Program.Typed (scope : Scope) (p : Program) : Prop := ∀ s ∈ p.body, s.Typed scope

/-- Every branch of the program remembers what its condition folds to. -/
def Program.Settled (p : Program) : Prop := ∀ s ∈ p.body, s.Settled

end HostScript
