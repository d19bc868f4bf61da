import HostScript.Reader.Program

/-! Readers are composed of moves.

A relation between readers that the moves have and that composition keeps (`Congruence`) holds between
the readers of every construct. The two readers may differ in how they read the rules inside them, and in
the steps they may take: the first of them never has more. -/

namespace HostScript

open Grammar (ExprState DeclarationState BlockState IfState)

/-! ### Constructs -/

/-- The constructs of the language that have a grammar. -/
inductive Construct where
  | rule (rule : Rule)
  | program

namespace Construct

/-- The states of a construct's grammar. -/
def State : Construct → Type
  | rule .expression => ExprState
  | rule .statement => Grammar.StatementState
  | rule .declaration => DeclarationState
  | rule .assignment => Grammar.AssignState
  | rule .returnStatement => Grammar.ReturnState
  | rule .ifStatement => IfState
  | rule .blockStatement => BlockState
  | program => Grammar.ProgramState

instance : (construct : Construct) → DecidableEq construct.State
  | rule .expression => inferInstanceAs (DecidableEq ExprState)
  | rule .statement => inferInstanceAs (DecidableEq Grammar.StatementState)
  | rule .declaration => inferInstanceAs (DecidableEq DeclarationState)
  | rule .assignment => inferInstanceAs (DecidableEq Grammar.AssignState)
  | rule .returnStatement => inferInstanceAs (DecidableEq Grammar.ReturnState)
  | rule .ifStatement => inferInstanceAs (DecidableEq IfState)
  | rule .blockStatement => inferInstanceAs (DecidableEq BlockState)
  | program => inferInstanceAs (DecidableEq Grammar.ProgramState)

/-- The grammar that the construct is read by. -/
def grammar : (construct : Construct) → Grammar construct.State
  | rule .expression => Grammar.expression
  | rule .statement => Grammar.statement
  | rule .declaration => Grammar.declaration
  | rule .assignment => Grammar.assignment
  | rule .returnStatement => Grammar.returnStatement
  | rule .ifStatement => Grammar.ifStatement
  | rule .blockStatement => Grammar.blockStatement
  | program => Grammar.program

end Construct

/-! ### Moves -/

namespace Reader

/-- A relation that the moves have in both contexts and that composition keeps. A reader without steps is
    related to any other. -/
structure Congruence (scope : Scope) (rules rules' : RuleReader)
    (R : (S α : Type) → [DecidableEq S] → Reader S α → Reader S α → Prop) : Prop where
  pure : ∀ {S α : Type} [DecidableEq S] (a : α), R S α (pure a) (pure a)
  exhausted : ∀ {S α : Type} [DecidableEq S] (y : Reader S α), R S α (throw .exhausted) y
  throw : ∀ {S α : Type} [DecidableEq S] (reason : Stop), R S α (throw reason) (throw reason)
  bind : ∀ {S α β : Type} [DecidableEq S] {x y : Reader S α} {f g : α → Reader S β},
    R S α x y → (∀ a, R S β (f a) (g a)) → R S β (x >>= f) (y >>= g)
  get : ∀ {S : Type} [DecidableEq S], R S (TokenStream S) get get
  peek : ∀ {S : Type} [DecidableEq S], R S (Option Token) (peek ⟨scope, rules⟩) (peek ⟨scope, rules'⟩)
  commit : ∀ {S : Type} [DecidableEq S], R S (Option Token) (modifyGet (·.commit)) (modifyGet (·.commit))
  setState : ∀ {S : Type} [DecidableEq S] (state : S), R S Unit (setState state) (setState state)

/-- The relation holds between the readers of expressions with a budget of `n` and of `m` steps. -/
structure ExpressionsRelated (scope : Scope) (rules rules' : RuleReader)
    (R : (S α : Type) → [DecidableEq S] → Reader S α → Reader S α → Prop) (n m : Nat) : Prop where
  subexpression : ∀ ceiling,
    R ExprState Expr (subexpression ⟨scope, rules⟩ n ceiling) (subexpression ⟨scope, rules'⟩ m ceiling)
  operators : ∀ ceiling left,
    R ExprState Expr (operators ⟨scope, rules⟩ n ceiling left) (operators ⟨scope, rules'⟩ m ceiling left)
  operand : R ExprState Expr (operand ⟨scope, rules⟩ n) (operand ⟨scope, rules'⟩ m)
  callArgs : R ExprState (List Expr) (callArgs ⟨scope, rules⟩ n) (callArgs ⟨scope, rules'⟩ m)
  moreArgs : R ExprState (List Expr) (moreArgs ⟨scope, rules⟩ n) (moreArgs ⟨scope, rules'⟩ m)

namespace Congruence

variable {scope : Scope} {rules rules' : RuleReader}
  {R : (S α : Type) → [DecidableEq S] → Reader S α → Reader S α → Prop} (hR : Congruence scope rules rules' R)
  {S α : Type} [DecidableEq S] {kinds : List TokenKind} {next : S}
include hR

theorem test : R S Bool (Reader.test ⟨scope, rules⟩ kinds) (Reader.test ⟨scope, rules'⟩ kinds) := by
  refine hR.bind hR.peek fun found => ?_
  cases found <;> exact hR.pure _

theorem accept :
    R S (Option Token) (Reader.accept ⟨scope, rules⟩ kinds next) (Reader.accept ⟨scope, rules'⟩ kinds next) := by
  refine hR.bind hR.test fun found => ?_
  cases found with
  | true => exact hR.bind hR.commit fun token => hR.bind (hR.setState next) fun _ => hR.pure token
  | false => exact hR.pure none

theorem expect : R S Token (Reader.expect ⟨scope, rules⟩ kinds next) (Reader.expect ⟨scope, rules'⟩ kinds next) := by
  refine hR.bind hR.accept fun found => ?_
  cases found with
  | some token => exact hR.pure token
  | none => exact hR.bind hR.get fun s => hR.throw _

theorem expectExpression :
    R S (Expr × Position) (Reader.expectExpression ⟨scope, rules⟩ next) (Reader.expectExpression ⟨scope, rules'⟩ next) := by
  refine hR.bind hR.expect fun token => ?_
  cases token.payload.expr? with
  | some tree => exact hR.pure _
  | none => exact hR.throw _

theorem expectStatement :
    R S Stmt (Reader.expectStatement ⟨scope, rules⟩ kinds next) (Reader.expectStatement ⟨scope, rules'⟩ kinds next) := by
  refine hR.bind hR.accept fun found => ?_
  cases found with
  | some token =>
    dsimp only
    cases token.payload.stmt? with
    | some tree => exact hR.pure tree
    | none => exact hR.throw _
  | none => exact hR.bind hR.get fun s => hR.throw _

theorem locate {position : Position} (r : Except SemanticError α) :
    R S α (Reader.locate position r) (Reader.locate position r) := by
  cases r with
  | ok a => exact hR.pure a
  | error e => exact hR.throw _

theorem resolveVariable {name : Token} :
    R S Variable (Reader.resolveVariable ⟨scope, rules⟩ name) (Reader.resolveVariable ⟨scope, rules'⟩ name) := by
  unfold Reader.resolveVariable
  dsimp only
  cases scope.resolveVariable name.text name.position with
  | ok target => exact hR.pure target
  | error cause => exact hR.throw _

theorem resolveFunction {name : Token} :
    R S HostFunction (Reader.resolveFunction ⟨scope, rules⟩ name) (Reader.resolveFunction ⟨scope, rules'⟩ name) := by
  unfold Reader.resolveFunction
  dsimp only
  cases scope.resolveFunction name.text name.position with
  | ok function => exact hR.pure function
  | error cause => exact hR.throw _

/-! ### Expressions -/

theorem nextBinary :
    R ExprState (Option BinaryOp) (Reader.nextBinary ⟨scope, rules⟩) (Reader.nextBinary ⟨scope, rules'⟩) := by
  refine hR.bind hR.peek fun found => ?_
  cases found <;> exact hR.pure _

theorem constant {token : Token} : R ExprState Expr (Reader.constant token) (Reader.constant token) := by
  unfold Reader.constant
  cases token.payload.constant? with
  | some value => exact hR.pure _
  | none => exact hR.throw _

theorem prefixOp {token : Token} : R ExprState UnaryOp (Reader.prefixOp token) (Reader.prefixOp token) := by
  unfold Reader.prefixOp
  cases token.payload.unary? with
  | some op => exact hR.pure op
  | none => exact hR.throw _

section
variable {n m ceiling : Nat} (ih : ExpressionsRelated scope rules rules' R n m)
include ih

theorem subexpression_succ : R ExprState Expr (Reader.subexpression ⟨scope, rules⟩ (n + 1) ceiling)
    (Reader.subexpression ⟨scope, rules'⟩ (m + 1) ceiling) :=
  hR.bind ih.operand fun left => ih.operators ceiling left

theorem operators_succ {left : Expr} : R ExprState Expr (Reader.operators ⟨scope, rules⟩ (n + 1) ceiling left)
    (Reader.operators ⟨scope, rules'⟩ (m + 1) ceiling left) := by
  refine hR.bind hR.nextBinary fun op => ?_
  cases op with
  | none => exact hR.pure left
  | some op =>
    dsimp only
    split
    · exact hR.pure left
    refine hR.bind hR.accept fun found => ?_
    cases found with
    | none => exact hR.pure left
    | some token =>
      refine hR.bind (ih.subexpression op.priority) fun right => ?_
      exact hR.bind (hR.locate _) fun tree => ih.operators ceiling tree

theorem operand_succ :
    R ExprState Expr (Reader.operand ⟨scope, rules⟩ (n + 1)) (Reader.operand ⟨scope, rules'⟩ (m + 1)) := by
  refine hR.bind hR.accept fun par => ?_
  cases par with
  | some _ => exact hR.bind (ih.subexpression _) fun inner => hR.bind hR.expect fun _ => hR.pure inner
  | none =>
    refine hR.bind hR.accept fun name => ?_
    cases name with
    | some name =>
      refine hR.bind hR.accept fun par => ?_
      cases par with
      | some _ => exact hR.bind ih.callArgs fun args => hR.bind hR.resolveFunction fun function => hR.locate _
      | none => exact hR.bind (hR.setState _) fun _ => hR.bind hR.resolveVariable fun target => hR.pure _
    | none =>
      refine hR.bind hR.accept fun sign => ?_
      cases sign with
      | some token => exact hR.bind hR.prefixOp fun op => hR.bind (ih.subexpression 0) fun inner => hR.locate _
      | none => exact hR.bind hR.expect fun token => hR.constant

theorem callArgs_succ :
    R ExprState (List Expr) (Reader.callArgs ⟨scope, rules⟩ (n + 1)) (Reader.callArgs ⟨scope, rules'⟩ (m + 1)) := by
  refine hR.bind hR.accept fun par => ?_
  cases par with
  | some _ => exact hR.pure []
  | none => exact hR.bind (hR.setState _) fun _ => ih.moreArgs

theorem moreArgs_succ :
    R ExprState (List Expr) (Reader.moreArgs ⟨scope, rules⟩ (n + 1)) (Reader.moreArgs ⟨scope, rules'⟩ (m + 1)) := by
  refine hR.bind (ih.subexpression _) fun arg => hR.bind hR.accept fun par => ?_
  cases par with
  | some _ => exact hR.pure [arg]
  | none => exact hR.bind hR.expect fun _ => hR.bind ih.moreArgs fun args => hR.pure (arg :: args)

end

theorem expressions : ∀ {n m : Nat}, n ≤ m → ExpressionsRelated scope rules rules' R n m
  | 0, _, _ => ⟨fun _ => hR.exhausted _, fun _ _ => hR.exhausted _, hR.exhausted _, hR.exhausted _, hR.exhausted _⟩
  | _ + 1, _ + 1, h =>
    have ih := expressions (Nat.le_of_succ_le_succ h)
    ⟨fun _ => hR.subexpression_succ ih, fun _ _ => hR.operators_succ ih, hR.operand_succ ih, hR.callArgs_succ ih,
      hR.moreArgs_succ ih⟩

/-! ### Statements -/

theorem declaredNames {n m : Nat} (h : n ≤ m) (known : List String) :
    R DeclarationState (List String) (Reader.declaredNames ⟨scope, rules⟩ n known)
      (Reader.declaredNames ⟨scope, rules'⟩ m known) := by
  induction n generalizing m known with
  | zero => exact hR.exhausted _
  | succ n ih =>
    obtain ⟨m, rfl⟩ := Nat.exists_eq_add_of_le' h
    refine hR.bind hR.expect fun name => ?_
    split
    · exact hR.throw _
    refine hR.bind hR.accept fun found => ?_
    cases found with
    | some _ => exact hR.pure _
    | none => exact hR.bind hR.expect fun _ => ih (Nat.le_add_left n m) _

theorem blockBody {n m : Nat} (h : n ≤ m) :
    R BlockState (List Stmt) (Reader.blockBody ⟨scope, rules⟩ n) (Reader.blockBody ⟨scope, rules'⟩ m) := by
  induction n generalizing m with
  | zero => exact hR.exhausted _
  | succ n ih =>
    obtain ⟨m, rfl⟩ := Nat.exists_eq_add_of_le' h
    refine hR.bind hR.test fun closes => ?_
    cases closes with
    | true => exact hR.bind hR.expect fun _ => hR.pure []
    | false =>
      refine hR.bind hR.expectStatement fun first => ?_
      exact hR.bind (ih (Nat.le_add_left n m)) fun others => hR.pure (first :: others)

theorem elseBranch :
    R IfState (Option Stmt) (Reader.elseBranch ⟨scope, rules⟩) (Reader.elseBranch ⟨scope, rules'⟩) := by
  refine hR.bind hR.accept fun found => ?_
  cases found with
  | some _ => exact hR.bind hR.expectStatement fun branch => hR.pure (some branch)
  | none => exact hR.bind (hR.setState _) fun _ => hR.pure none

/-- A rule is read in both contexts by readers that are related, and what they give is wrapped alike. -/
theorem body (rule : Rule) (cursor : Cursor) : ∃ (α : Type) (make : α → Payload) (x y : Reader (Construct.rule rule).State α),
    R _ α x y ∧ rule.body ⟨scope, rules⟩ cursor = Rule.wrap make (x.run (Construct.rule rule).grammar cursor) ∧
      rule.body ⟨scope, rules'⟩ cursor = Rule.wrap make (y.run (Construct.rule rule).grammar cursor) := by
  cases rule with
  | expression => exact ⟨_, _, _, _, (hR.expressions (Nat.le_refl _)).subexpression _, rfl, rfl⟩
  | statement => exact ⟨_, _, _, _, hR.expectStatement, rfl, rfl⟩
  | declaration =>
    refine ⟨_, _, _, _, ?_, rfl, rfl⟩
    exact hR.bind hR.expect fun _ => hR.bind (hR.declaredNames (Nat.le_refl _) _) fun names => hR.pure _
  | assignment =>
    refine ⟨_, _, _, _, ?_, rfl, rfl⟩
    refine hR.bind hR.expect fun name => hR.bind hR.expect fun _ => hR.bind hR.resolveVariable fun target => ?_
    exact hR.bind hR.expectExpression fun value => hR.bind hR.expect fun _ => hR.locate _
  | returnStatement =>
    refine ⟨_, _, _, _, ?_, rfl, rfl⟩
    exact hR.bind hR.expect fun _ => hR.bind hR.expectExpression fun value => hR.bind hR.expect fun _ => hR.locate _
  | ifStatement =>
    refine ⟨_, _, _, _, ?_, rfl, rfl⟩
    refine hR.bind hR.expect fun _ => hR.bind hR.expect fun _ => hR.bind hR.expectExpression fun condition => ?_
    refine hR.bind hR.expect fun _ => hR.bind hR.expectStatement fun thenBranch => ?_
    exact hR.bind hR.elseBranch fun elseBranch => hR.locate _
  | blockStatement =>
    refine ⟨_, _, _, _, ?_, rfl, rfl⟩
    refine hR.bind hR.accept fun found => ?_
    cases found with
    | some _ => exact hR.bind (hR.blockBody (Nat.le_refl _)) fun body => hR.pure _
    | none =>
      refine hR.bind hR.accept fun found => ?_
      cases found with
      | some _ => exact hR.pure _
      | none => exact hR.bind hR.expectExpression fun value => hR.bind hR.expect fun _ => hR.pure _

end Congruence
end Reader
end HostScript
