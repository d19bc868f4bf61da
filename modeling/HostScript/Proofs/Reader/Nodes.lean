import HostScript.Proofs.Folding
import HostScript.Proofs.Reader.Typed

/-! What stands at each node of a tree that was read.

The typing of `Proofs/Typing.lean` is a property of whole trees. Here it is taken apart: the nodes of a
tree are the tree itself and everything inside it, and each of them is held against what its own form
asks for (`Fits`), with the types written out operator by operator. A declaration fits nowhere, so none
stands inside another statement. -/

namespace HostScript

/-! ### Expressions -/

namespace Expr

/-- The expressions directly inside. -/
def operands : Expr → List Expr
  | const _ | var _ => []
  | unary _ operand => [operand]
  | strict _ left right | logical _ left right => [left, right]
  | call _ _ _ args => args

/-- The expression and all that stand inside it. -/
inductive Node (e : Expr) : Expr → Prop
  | self : Node e e
  | inside {n o : Expr} (node : Node e n) (mem : o ∈ n.operands) : Node e o

/-- The form of the expression gives it the type, its operands have the types that the form asks for, and
    its name stands for what the scope holds under it. -/
inductive Fits (scope : Scope) : Expr → Ty → Prop
  | const (value : Value) : Fits scope (.const value) value.ty
  | var {target : Variable} (found : scope.variableNamed? target.name = some target) :
      Fits scope (.var target) target.ty
  | sign {op : UnaryOp} {operand : Expr} (isSign : op = .plus ∨ op = .negate) (ty : operand.ty = .integer) :
      Fits scope (.unary op operand) .integer
  | not {operand : Expr} (ty : operand.ty = .boolean) : Fits scope (.unary .not operand) .boolean
  | arithmetic {op : StrictOp} {left right : Expr} (mem : op ∈ [StrictOp.mul, .div, .add, .sub])
      (leftTy : left.ty = .integer) (rightTy : right.ty = .integer) : Fits scope (.strict op left right) .integer
  | comparison {op : StrictOp} {left right : Expr} (mem : op ∈ [StrictOp.lt, .le, .gt, .ge, .eq, .ne])
      (leftTy : left.ty = .integer) (rightTy : right.ty = .integer) : Fits scope (.strict op left right) .boolean
  | logical {op : LogicalOp} {left right : Expr} (leftTy : left.ty = .boolean) (rightTy : right.ty = .boolean) :
      Fits scope (.logical op left right) .boolean
  | call {name : String} {function : HostFunction} {args : List Expr}
      (found : scope.functionNamed? name = some function) (types : args.map Expr.ty = function.type.params) :
      Fits scope (.call name function.handle function.type.result args) function.type.result

/-- Every node has the type that its form gives it, and no operand or argument is without a value. -/
def Sound (scope : Scope) (e : Expr) : Prop :=
  ∀ n, e.Node n → n.Fits scope n.ty ∧ ∀ o ∈ n.operands, o.ty ≠ .void

namespace Typed

variable {scope : Scope} {e n o : Expr}

theorem operand (h : e.Typed scope) (ho : o ∈ e.operands) : o.Typed scope := by
  cases h with
  | const value => cases ho
  | var found => cases ho
  | unary ty typed =>
    cases List.mem_singleton.mp ho
    exact typed
  | strict leftTy rightTy leftTyped rightTyped =>
    simp only [operands, List.mem_cons, List.not_mem_nil, or_false] at ho
    rcases ho with rfl | rfl
    · exact leftTyped
    · exact rightTyped
  | logical leftTy rightTy leftTyped rightTyped =>
    simp only [operands, List.mem_cons, List.not_mem_nil, or_false] at ho
    rcases ho with rfl | rfl
    · exact leftTyped
    · exact rightTyped
  | call found types typed => exact typed o ho

theorem node (h : e.Typed scope) (hn : e.Node n) : n.Typed scope := by
  induction hn with
  | self => exact h
  | inside _ mem ih => exact ih.operand mem

theorem fits (h : e.Typed scope) : e.Fits scope e.ty := by
  cases h with
  | const value => exact .const value
  | var found => exact .var found
  | @unary op operand ty typed =>
    cases op with
    | plus => exact .sign (.inl rfl) ty
    | negate => exact .sign (.inr rfl) ty
    | not => exact .not ty
  | @strict op left right leftTy rightTy =>
    rw [Expr.ty]
    cases hop : op.ty with
    | integer => exact .arithmetic (by cases op <;> simp_all [StrictOp.ty]) leftTy rightTy
    | boolean => exact .comparison (by cases op <;> simp_all [StrictOp.ty]) leftTy rightTy
    | void => cases op <;> cases hop
  | logical leftTy rightTy => exact .logical leftTy rightTy
  | call found types => exact .call found types

theorem operand_ty (h : e.Typed scope) (ho : o ∈ e.operands) : o.ty ≠ .void := by
  intro hvoid
  cases h with
  | const value => cases ho
  | var found => cases ho
  | @unary op operand ty typed =>
    cases List.mem_singleton.mp ho
    rw [hvoid] at ty
    cases op <;> cases ty
  | strict leftTy rightTy =>
    simp only [operands, List.mem_cons, List.not_mem_nil, or_false] at ho
    rcases ho with rfl | rfl
    · cases hvoid.symm.trans leftTy
    · cases hvoid.symm.trans rightTy
  | logical leftTy rightTy =>
    simp only [operands, List.mem_cons, List.not_mem_nil, or_false] at ho
    rcases ho with rfl | rfl
    · cases hvoid.symm.trans leftTy
    · cases hvoid.symm.trans rightTy
  | call found types =>
    have hvalue := isValue_of_mem_args types ho
    rw [hvoid] at hvalue
    cases hvalue

theorem sound (h : e.Typed scope) : e.Sound scope :=
  fun _ hn => ⟨(h.node hn).fits, fun _ ho => (h.node hn).operand_ty ho⟩

end Typed
end Expr

/-! ### Statements -/

namespace Stmt

/-- The statements directly inside. -/
def parts : Stmt → List Stmt
  | block body => body
  | branch _ _ thenBranch elseBranch => thenBranch :: elseBranch.toList
  | declare _ | assign _ _ | ret _ | expr _ | empty => []

/-- The expressions directly inside. -/
def exprs : Stmt → List Expr
  | assign _ value | ret value | expr value => [value]
  | branch condition .. => [condition]
  | declare _ | empty | block _ => []

/-- The statement and all that stand inside it. -/
inductive Node (s : Stmt) : Stmt → Prop
  | self : Node s s
  | inside {n o : Stmt} (node : Node s n) (mem : o ∈ n.parts) : Node s o

/-- The form of the statement allows its expressions, and a branch remembers what its condition folds to.
    There is no case for a declaration. -/
inductive Fits (scope : Scope) : Stmt → Prop
  | assign {target : Variable} {value : Expr} (found : scope.variableNamed? target.name = some target)
      (ty : value.ty = target.ty) : Fits scope (.assign target value)
  | ret {value : Expr} (ty : value.ty = .integer) : Fits scope (.ret value)
  | expr (value : Expr) : Fits scope (.expr value)
  | empty : Fits scope .empty
  | block (body : List Stmt) : Fits scope (.block body)
  | branch {condition : Expr} {decided : Option Bool} {thenBranch : Stmt} {elseBranch : Option Stmt}
      (ty : condition.ty = .boolean) (folded : condition.fold = decided.map Value.boolean) :
      Fits scope (.branch condition decided thenBranch elseBranch)

/-- An expression without a value stands alone or is assigned to a variable without one. -/
def VoidsUnused (s : Stmt) : Prop :=
  ∀ e ∈ s.exprs, e.ty = .void → s = .expr e ∨ ∃ target, s = .assign target e ∧ target.ty = .void

/-- Every statement in the tree fits, and so does every expression in those. -/
def Sound (scope : Scope) (s : Stmt) : Prop :=
  ∀ n, s.Node n → n.Fits scope ∧ n.VoidsUnused ∧ ∀ e ∈ n.exprs, e.Sound scope

variable {scope : Scope} {s n o : Stmt}

theorem Typed.part (h : s.Typed scope) (ho : o ∈ s.parts) : o.Typed scope := by
  cases h with
  | assign => cases ho
  | ret => cases ho
  | expr => cases ho
  | empty => cases ho
  | block typed => exact typed o ho
  | branch ty typed thenTyped elseTyped =>
    rcases List.mem_cons.mp ho with rfl | ho
    · exact thenTyped
    · exact elseTyped o (Option.mem_toList.mp ho)

theorem Settled.part (h : s.Settled) (ho : o ∈ s.parts) : o.Settled := by
  cases h with
  | declare => cases ho
  | assign => cases ho
  | ret => cases ho
  | expr => cases ho
  | empty => cases ho
  | block settled => exact settled o ho
  | branch thenSettled elseSettled =>
    rcases List.mem_cons.mp ho with rfl | ho
    · exact thenSettled
    · exact elseSettled o (Option.mem_toList.mp ho)

theorem Node.typed (hn : s.Node n) (h : s.Typed scope ∧ s.Settled) : n.Typed scope ∧ n.Settled := by
  induction hn with
  | self => exact h
  | inside _ mem ih => exact ⟨ih.1.part mem, ih.2.part mem⟩

/-- A condition folds to the boolean that its branch remembers, or to nothing. -/
theorem fold_eq_decided {condition : Expr} (ty : condition.ty = .boolean) (typed : condition.Typed scope) :
    condition.fold = (condition.fold.bind Value.boolean?).map Value.boolean := by
  cases hfold : condition.fold with
  | none => rfl
  | some v =>
    have hty := (Expr.ty_of_fold typed.wellTyped hfold).trans ty
    cases v with
    | integer n => cases hty
    | boolean b => rfl

theorem Typed.fits (h : s.Typed scope) (settled : s.Settled) : s.Fits scope := by
  cases h with
  | assign found ty typed => exact .assign found ty
  | ret ty typed => exact .ret ty
  | expr typed => exact .expr _
  | empty => exact .empty
  | block typed => exact .block _
  | branch ty typed thenTyped elseTyped =>
    cases settled with
    | branch _ _ => exact .branch ty (fold_eq_decided ty typed)

theorem Typed.voidsUnused (h : s.Typed scope) : s.VoidsUnused := by
  intro e he hvoid
  cases h with
  | assign found ty typed =>
    cases List.mem_singleton.mp he
    exact .inr ⟨_, rfl, ty.symm.trans hvoid⟩
  | ret ty typed =>
    cases List.mem_singleton.mp he
    cases hvoid.symm.trans ty
  | expr typed =>
    cases List.mem_singleton.mp he
    exact .inl rfl
  | empty => cases he
  | block typed => cases he
  | branch ty typed thenTyped elseTyped =>
    cases List.mem_singleton.mp he
    cases hvoid.symm.trans ty

theorem Typed.expr_sound (h : s.Typed scope) : ∀ e ∈ s.exprs, e.Sound scope := by
  intro e he
  cases h with
  | assign found ty typed => exact List.mem_singleton.mp he ▸ typed.sound
  | ret ty typed => exact List.mem_singleton.mp he ▸ typed.sound
  | expr typed => exact List.mem_singleton.mp he ▸ typed.sound
  | empty => cases he
  | block typed => cases he
  | branch ty typed thenTyped elseTyped => exact List.mem_singleton.mp he ▸ typed.sound

theorem Typed.sound (h : s.Typed scope) (settled : s.Settled) : s.Sound scope := by
  intro n hn
  obtain ⟨typed, settled⟩ := hn.typed ⟨h, settled⟩
  exact ⟨typed.fits settled, typed.voidsUnused, typed.expr_sound⟩

end Stmt

/-! ### What the rules give -/

namespace Rule

variable {scope : Scope}

/-- The rule for expressions gives a sound expression, the one for declarations a declaration, and every
    other rule a sound statement. -/
def Gives (scope : Scope) (payload : Payload) : Rule → Prop
  | expression => ∃ e, payload = .expr e ∧ e.Sound scope
  | declaration => ∃ names, payload = .stmt (.declare names)
  | statement | assignment | returnStatement | ifStatement | blockStatement =>
    ∃ s, payload = .stmt s ∧ s.Sound scope

theorem sound_of_wrap {kind : TokenKind} {r : Except Stop (Stmt × Cursor)} {payload : Payload} {behind : Cursor}
    (h : wrap .stmt r = .ok (payload, behind)) (typed : payload.Typed scope kind) (hk : kind ≠ .declaration) :
    ∃ s, payload = .stmt s ∧ s.Sound scope := by
  obtain ⟨s, -, rfl⟩ := wrap_eq_ok h
  obtain ⟨typed, settled⟩ := typed.stmt s rfl hk
  exact ⟨s, rfl, typed.sound settled⟩

theorem gives_of_read {rule : Rule} {cursor behind : Cursor} {payload : Payload}
    (h : read scope rule cursor = .ok (payload, behind)) : rule.Gives scope payload := by
  have typed := typed_read rule cursor payload behind h
  cases rule with
  | expression =>
    obtain ⟨e, -, rfl⟩ := wrap_eq_ok h
    exact ⟨e, rfl, (typed.expr e rfl).sound⟩
  | declaration =>
    obtain ⟨s, hread, rfl⟩ := wrap_eq_ok h
    obtain ⟨_, hread, -⟩ := Reader.run_eq_ok hread
    obtain ⟨_, _, -, hread⟩ := EStateM.ok_of_bind hread
    obtain ⟨names, _, -, hread⟩ := EStateM.ok_of_bind hread
    cases hread
    exact ⟨names, rfl⟩
  | statement => exact sound_of_wrap h typed (by decide)
  | assignment => exact sound_of_wrap h typed (by decide)
  | returnStatement => exact sound_of_wrap h typed (by decide)
  | ifStatement => exact sound_of_wrap h typed (by decide)
  | blockStatement => exact sound_of_wrap h typed (by decide)

/-- Whatever the scope and the text are, every node of a tree that a rule or a whole program is read as
    fits its place. -/
theorem read_sound (scope : Scope) :
    (∀ rule cursor payload behind, read scope rule cursor = .ok (payload, behind) → rule.Gives scope payload) ∧
    ∀ text p scope', Program.read scope text = .ok (p, scope') →
      scope' = scope.declareAll p.locals ∧ ∀ s ∈ p.body, s.Sound scope' := by
  refine ⟨fun _ _ _ _ h => gives_of_read h, fun text p scope' h => ⟨(Program.read_eq_ok h).1, fun s hs => ?_⟩⟩
  obtain ⟨typed, settled⟩ := Program.typed_of_read h
  exact (typed s hs).sound (settled s hs)

/-- With a parameter and a function that have no values, what has no value is assigned and stands alone. -/
theorem read_sound_void :
    let log : HostFunction := ⟨⟨0⟩, ⟨[.boolean], .void⟩, by decide⟩
    let scope := Scope.bind ⟨[⟨"v", .void⟩, ⟨"b", .boolean⟩], .void⟩ ⟨[], [("log", log)]⟩
    ∃ s behind, read scope .ifStatement (.ofString "if (b && 1 < 2) v = log(!b); else log(b);") = .ok (.stmt s, behind) ∧
      (s.exprs ++ s.parts.flatMap Stmt.exprs).map Expr.ty = [.boolean, .void, .void] ∧ s.Sound scope := by
  intro log scope
  have htypes : ((read scope .ifStatement (.ofString "if (b && 1 < 2) v = log(!b); else log(b);")).toOption.bind
      (·.1.stmt?)).map (fun s => (s.exprs ++ s.parts.flatMap Stmt.exprs).map Expr.ty) = some [.boolean, .void, .void] := by
    decide +kernel
  obtain ⟨s, hs, htypes⟩ := Option.map_eq_some_iff.mp htypes
  obtain ⟨⟨payload, behind⟩, hread, hs⟩ := Option.bind_eq_some_iff.mp hs
  have hread := Except.eq_ok_of_toOption hread
  obtain ⟨t, rfl, sound⟩ := (read_sound scope).1 _ _ _ _ hread
  cases hs
  exact ⟨s, behind, hread, htypes, sound⟩

end Rule
end HostScript
