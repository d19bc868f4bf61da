import HostScript.Proofs.Reader.Composition

/-! Two reads side by side.

The reads may be of different texts in different contexts, so what they give is related rather than
equal: a token of the one read corresponds to a token of the other (`T`), an error to an error (`E`). A
relation that the moves have and that composition keeps (`Parallel`) holds between the readers of every
construct, and the trees that they give are the same. A read that runs out of steps is related to any
other, so the two may have different budgets. -/

namespace HostScript

open Grammar (ExprState DeclarationState BlockState IfState ProgramState)

/-! ### Outcomes -/

/-- What comes of two reads side by side: values that are related, or reasons to stop that are. A read that
    runs out of steps says nothing. -/
inductive SideBySide (E : Stop → Stop → Prop) {α β : Type} (V : α → β → Prop) : Except Stop α → Except Stop β → Prop
  | exhausted (r : Except Stop β) : SideBySide E V (.error .exhausted) r
  | exhausted' (r : Except Stop α) : SideBySide E V r (.error .exhausted)
  | ok {a : α} {b : β} (value : V a b) : SideBySide E V (.ok a) (.ok b)
  | error {reason reason' : Stop} (stops : E reason reason') : SideBySide E V (.error reason) (.error reason')

namespace SideBySide

variable {E : Stop → Stop → Prop} {α β γ δ : Type}

theorem bind {V : α → β → Prop} {W : γ → δ → Prop} {r : Except Stop α} {r' : Except Stop β} {f : α → Except Stop γ}
    {f' : β → Except Stop δ} (h : SideBySide E V r r') (hf : ∀ a b, V a b → SideBySide E W (f a) (f' b)) :
    SideBySide E W (r >>= f) (r' >>= f') := by
  cases h with
  | exhausted => exact .exhausted _
  | exhausted' => exact .exhausted' _
  | ok value => exact hf _ _ value
  | error stops => exact .error stops

theorem wrap {V : α × Cursor → β × Cursor → Prop} {W : Payload × Cursor → Payload × Cursor → Prop} {make : α → Payload}
    {make' : β → Payload} {r : Except Stop (α × Cursor)} {r' : Except Stop (β × Cursor)} (h : SideBySide E V r r')
    (hw : ∀ a b, V a b → W (make a.1, a.2) (make' b.1, b.2)) :
    SideBySide E W (Rule.wrap make r) (Rule.wrap make' r') := by
  cases h with
  | exhausted => exact .exhausted _
  | exhausted' => exact .exhausted' _
  | ok value => exact .ok (hw _ _ value)
  | error stops => exact .error stops

end SideBySide

/-! ### Readers -/

namespace Reader

/-- A relation between the readers of two reads. What it says of the values is its argument. -/
structure Parallel (ctx ctx' : Context) (T : Token → Token → Prop) (E : CompileError → CompileError → Prop)
    (R : (S α β : Type) → [DecidableEq S] → (α → β → Prop) → Reader S α → Reader S β → Prop) : Prop where
  pure : ∀ {S α β : Type} [DecidableEq S] {V : α → β → Prop} {a : α} {b : β}, V a b → R S α β V (pure a) (pure b)
  exhausted : ∀ {S α β : Type} [DecidableEq S] {V : α → β → Prop} (y : Reader S β), R S α β V (throw .exhausted) y
  exhausted' : ∀ {S α β : Type} [DecidableEq S] {V : α → β → Prop} (x : Reader S α), R S α β V x (throw .exhausted)
  fail : ∀ {S α β : Type} [DecidableEq S] {V : α → β → Prop} {c d : CompileError}, E c d → R S α β V (fail c) (fail d)
  bind : ∀ {S α β γ δ : Type} [DecidableEq S] {V : α → β → Prop} {W : γ → δ → Prop} {x : Reader S α} {y : Reader S β}
    {f : α → Reader S γ} {g : β → Reader S δ}, R S α β V x y → (∀ a b, V a b → R S γ δ W (f a) (g b)) →
      R S γ δ W (x >>= f) (y >>= g)
  atEnd : ∀ {S : Type} [DecidableEq S], R S Bool Bool Eq atEnd atEnd
  peek : ∀ {S : Type} [DecidableEq S], R S _ _ (Option.Rel T) (peek ctx) (peek ctx')
  accept : ∀ {S : Type} [DecidableEq S] (kinds : List TokenKind) (next : S),
    R S _ _ (Option.Rel fun t t' => T t t' ∧ t.kind ∈ kinds) (accept ctx kinds next) (accept ctx' kinds next)
  setState : ∀ {S : Type} [DecidableEq S] (state : S), R S Unit Unit Eq (setState state) (setState state)
  error : ∀ {S α β : Type} [DecidableEq S] {V : α → β → Prop} (kinds : List TokenKind),
    R S α β V (do Reader.fail ((← get).error kinds)) (do Reader.fail ((← get).error kinds))
  statementError : ∀ {S α β : Type} [DecidableEq S] {V : α → β → Prop} (kinds : List TokenKind),
    R S α β V (do Reader.fail ((← get).statementError kinds)) (do Reader.fail ((← get).statementError kinds))
  kind : ∀ {t t' : Token}, T t t' → t'.kind = t.kind
  payload : ∀ {t t' : Token}, T t t' → t'.payload = t.payload
  located : ∀ {t t' : Token}, T t t' → ∀ e : SemanticError,
    E (e.locate (.source t.position)) (e.locate (.source t'.position))
  malformed : ∀ {t t' : Token}, T t t' → ∀ kind, E (malformed t kind) (malformed t' kind)
  text : ∀ {t t' : Token}, T t t' → t.kind = .name → t'.text = t.text
  unsupported : ∀ {t t' : Token}, T t t' → t.kind = .name →
    E (.unsupportedIdentifier t.position t.text) (.unsupportedIdentifier t'.position t'.text)
  resolveVariable : ∀ {S : Type} [DecidableEq S] {t t' : Token}, T t t' → t.kind = .name →
    R S Variable Variable Eq (resolveVariable ctx t) (resolveVariable ctx' t')
  resolveFunction : ∀ {S : Type} [DecidableEq S] {t t' : Token}, T t t' → t.kind = .name →
    R S HostFunction HostFunction Eq (resolveFunction ctx t) (resolveFunction ctx' t')

/-- Errors at the two positions correspond. -/
def Corresponding (E : CompileError → CompileError → Prop) (position position' : Position) : Prop :=
  ∀ e : SemanticError, E (e.locate (.source position)) (e.locate (.source position'))

/-- The relation holds between the readers of expressions with budgets of `n` and of `m` steps. -/
structure ExpressionsParallel (ctx ctx' : Context)
    (R : (S α β : Type) → [DecidableEq S] → (α → β → Prop) → Reader S α → Reader S β → Prop) (n m : Nat) : Prop where
  subexpression : ∀ ceiling, R ExprState Expr Expr Eq (subexpression ctx n ceiling) (subexpression ctx' m ceiling)
  operators : ∀ ceiling left,
    R ExprState Expr Expr Eq (operators ctx n ceiling left) (operators ctx' m ceiling left)
  operand : R ExprState Expr Expr Eq (operand ctx n) (operand ctx' m)
  callArgs : R ExprState (List Expr) (List Expr) Eq (callArgs ctx n) (callArgs ctx' m)
  moreArgs : R ExprState (List Expr) (List Expr) Eq (moreArgs ctx n) (moreArgs ctx' m)

namespace Parallel

variable {ctx ctx' : Context} {T : Token → Token → Prop} {E : CompileError → CompileError → Prop}
  {R : (S α β : Type) → [DecidableEq S] → (α → β → Prop) → Reader S α → Reader S β → Prop}
  (hR : Parallel ctx ctx' T E R) {S α : Type} [DecidableEq S] {kinds : List TokenKind} {next : S}
include hR

/-! ### Moves -/

/-- What follows a value that is the same in both reads. -/
theorem bind_eq {β γ δ : Type} {W : γ → δ → Prop} {x : Reader S β} {y : Reader S β} {f : β → Reader S γ}
    {g : β → Reader S δ} (hx : R S β β Eq x y) (hf : ∀ b, R S γ δ W (f b) (g b)) : R S γ δ W (x >>= f) (y >>= g) :=
  hR.bind hx fun a _ h => h ▸ hf a

/-- What follows an optional token. -/
theorem accept_bind {γ δ : Type} {W : γ → δ → Prop} {f : Option Token → Reader S γ} {g : Option Token → Reader S δ}
    (hsome : ∀ t t', T t t' → t.kind ∈ kinds → R S γ δ W (f (some t)) (g (some t'))) (hnone : R S γ δ W (f none) (g none)) :
    R S γ δ W (Reader.accept ctx kinds next >>= f) (Reader.accept ctx' kinds next >>= g) := by
  refine hR.bind (hR.accept kinds next) fun found found' h => ?_
  cases h with
  | none => exact hnone
  | some h => exact hsome _ _ h.1 h.2

theorem test : R S Bool Bool Eq (Reader.test ctx kinds) (Reader.test ctx' kinds) := by
  refine hR.bind hR.peek fun found found' h => ?_
  cases h with
  | none => exact hR.pure rfl
  | some h => exact hR.pure (by rw [hR.kind h])

theorem expect :
    R S Token Token (fun t t' => T t t' ∧ t.kind ∈ kinds) (Reader.expect ctx kinds next) (Reader.expect ctx' kinds next) :=
  hR.accept_bind (fun _ _ h hk => hR.pure ⟨h, hk⟩) (hR.error kinds)

/-- What follows a token that must come. -/
theorem expect_bind {γ δ : Type} {W : γ → δ → Prop} {f : Token → Reader S γ} {g : Token → Reader S δ}
    (hf : ∀ t t', T t t' → t.kind ∈ kinds → R S γ δ W (f t) (g t')) :
    R S γ δ W (Reader.expect ctx kinds next >>= f) (Reader.expect ctx' kinds next >>= g) :=
  hR.bind hR.expect fun t t' h => hf t t' h.1 h.2

theorem expectExpression :
    R S (Expr × Position) (Expr × Position) (fun a b => a.1 = b.1 ∧ Corresponding E a.2 b.2)
      (Reader.expectExpression ctx next) (Reader.expectExpression ctx' next) := by
  refine hR.expect_bind fun t t' h _ => ?_
  rw [hR.payload h]
  cases t.payload.expr? with
  | some tree => exact hR.pure ⟨rfl, hR.located h⟩
  | none => exact hR.fail (hR.malformed h _)

/-- What follows an expression. -/
theorem expectExpression_bind {γ δ : Type} {W : γ → δ → Prop} {f : Expr × Position → Reader S γ}
    {g : Expr × Position → Reader S δ}
    (hf : ∀ tree position position', Corresponding E position position' → R S γ δ W (f (tree, position)) (g (tree, position'))) :
    R S γ δ W (Reader.expectExpression ctx next >>= f) (Reader.expectExpression ctx' next >>= g) := by
  refine hR.bind hR.expectExpression ?_
  rintro ⟨tree, position⟩ ⟨_, position'⟩ ⟨rfl, h⟩
  exact hf tree position position' h

theorem expectStatement :
    R S Stmt Stmt Eq (Reader.expectStatement ctx kinds next) (Reader.expectStatement ctx' kinds next) := by
  refine hR.accept_bind (fun t t' h _ => ?_) (hR.statementError kinds)
  dsimp only
  rw [hR.payload h]
  cases t.payload.stmt? with
  | some tree => exact hR.pure rfl
  | none => exact hR.fail (hR.malformed h _)

theorem locate {position position' : Position} (h : Corresponding E position position') (r : Except SemanticError α) :
    R S α α Eq (Reader.locate position r) (Reader.locate position' r) := by
  cases r with
  | ok a => exact hR.pure rfl
  | error e => exact hR.fail (h e)

/-! ### Expressions -/

theorem nextBinary : R ExprState _ _ Eq (Reader.nextBinary ctx) (Reader.nextBinary ctx') := by
  refine hR.bind hR.peek fun found found' h => ?_
  cases h with
  | none => exact hR.pure rfl
  | some h => exact hR.pure (by rw [hR.kind h, hR.payload h])

theorem constant {t t' : Token} (h : T t t') : R ExprState Expr Expr Eq (Reader.constant t) (Reader.constant t') := by
  unfold Reader.constant
  rw [hR.payload h, hR.kind h]
  cases t.payload.constant? with
  | some value => exact hR.pure rfl
  | none => exact hR.fail (hR.malformed h _)

theorem prefixOp {t t' : Token} (h : T t t') : R ExprState UnaryOp UnaryOp Eq (Reader.prefixOp t) (Reader.prefixOp t') := by
  unfold Reader.prefixOp
  rw [hR.payload h, hR.kind h]
  cases t.payload.unary? with
  | some op => exact hR.pure rfl
  | none => exact hR.fail (hR.malformed h _)

section
variable {n m ceiling : Nat} (ih : ExpressionsParallel ctx ctx' R n m)
include ih

theorem subexpression_succ :
    R ExprState Expr Expr Eq (Reader.subexpression ctx (n + 1) ceiling) (Reader.subexpression ctx' (m + 1) ceiling) :=
  hR.bind_eq ih.operand fun left => ih.operators ceiling left

theorem operators_succ {left : Expr} : R ExprState Expr Expr Eq (Reader.operators ctx (n + 1) ceiling left)
    (Reader.operators ctx' (m + 1) ceiling left) := by
  refine hR.bind_eq hR.nextBinary fun op => ?_
  cases op with
  | none => exact hR.pure rfl
  | some op =>
    dsimp only
    split
    · exact hR.pure rfl
    refine hR.accept_bind (fun t t' h _ => ?_) (hR.pure rfl)
    refine hR.bind_eq (ih.subexpression op.priority) fun right => ?_
    exact hR.bind_eq (hR.locate (hR.located h) _) fun tree => ih.operators ceiling tree

/-- Behind a name that opens a call, or that stands for a variable. -/
theorem named_succ {name name' : Token} (h : T name name') (hk : name.kind = .name) :
    R ExprState Expr Expr Eq
      (do
        match ← Reader.accept ctx [.leftPar] .post with
        | some _ =>
          let args ← Reader.callArgs ctx n
          let function ← Reader.resolveFunction ctx name
          Reader.locate name.position (Expr.mkCall name.text function.handle function.type args)
        | none =>
          Reader.setState .post
          return .var (← Reader.resolveVariable ctx name))
      (do
        match ← Reader.accept ctx' [.leftPar] .post with
        | some _ =>
          let args ← Reader.callArgs ctx' m
          let function ← Reader.resolveFunction ctx' name'
          Reader.locate name'.position (Expr.mkCall name'.text function.handle function.type args)
        | none =>
          Reader.setState .post
          return .var (← Reader.resolveVariable ctx' name')) := by
  refine hR.accept_bind (fun _ _ _ _ => ?_) ?_
  · refine hR.bind_eq ih.callArgs fun args => hR.bind_eq (hR.resolveFunction h hk) fun function => ?_
    rw [hR.text h hk]
    exact hR.locate (hR.located h) _
  · exact hR.bind_eq (hR.setState _) fun _ => hR.bind_eq (hR.resolveVariable h hk) fun _ => hR.pure rfl

theorem operand_succ : R ExprState Expr Expr Eq (Reader.operand ctx (n + 1)) (Reader.operand ctx' (m + 1)) := by
  refine hR.accept_bind (fun _ _ _ _ => ?_) ?_
  · exact hR.bind_eq (ih.subexpression _) fun inner => hR.expect_bind fun _ _ _ _ => hR.pure rfl
  refine hR.accept_bind (fun name name' h hk => ?_) ?_
  · exact hR.named_succ ih h (List.mem_singleton.mp hk)
  refine hR.accept_bind (fun t t' h _ => ?_) ?_
  · refine hR.bind_eq (hR.prefixOp h) fun op => hR.bind_eq (ih.subexpression 0) fun inner => ?_
    exact hR.locate (hR.located h) _
  · exact hR.expect_bind fun t t' h _ => hR.constant h

theorem callArgs_succ : R ExprState (List Expr) (List Expr) Eq (Reader.callArgs ctx (n + 1)) (Reader.callArgs ctx' (m + 1)) :=
  hR.accept_bind (fun _ _ _ _ => hR.pure rfl) (hR.bind_eq (hR.setState _) fun _ => ih.moreArgs)

theorem moreArgs_succ : R ExprState (List Expr) (List Expr) Eq (Reader.moreArgs ctx (n + 1)) (Reader.moreArgs ctx' (m + 1)) := by
  refine hR.bind_eq (ih.subexpression _) fun arg => hR.accept_bind (fun _ _ _ _ => hR.pure rfl) ?_
  exact hR.expect_bind fun _ _ _ _ => hR.bind_eq ih.moreArgs fun args => hR.pure rfl

end

theorem expressions : ∀ n m, ExpressionsParallel ctx ctx' R n m
  | 0, _ => ⟨fun _ => hR.exhausted _, fun _ _ => hR.exhausted _, hR.exhausted _, hR.exhausted _, hR.exhausted _⟩
  | _ + 1, 0 => ⟨fun _ => hR.exhausted' _, fun _ _ => hR.exhausted' _, hR.exhausted' _, hR.exhausted' _, hR.exhausted' _⟩
  | n + 1, m + 1 =>
    have ih := expressions n m
    ⟨fun _ => hR.subexpression_succ ih, fun _ _ => hR.operators_succ ih, hR.operand_succ ih, hR.callArgs_succ ih,
      hR.moreArgs_succ ih⟩

/-! ### Statements -/

theorem declaredNames : ∀ (n m : Nat) (known : List String),
    R DeclarationState _ _ Eq (Reader.declaredNames ctx n known) (Reader.declaredNames ctx' m known)
  | 0, _, _ => hR.exhausted _
  | _ + 1, 0, _ => hR.exhausted' _
  | n + 1, m + 1, known => by
    refine hR.expect_bind fun name name' h hk => ?_
    have hname := List.mem_singleton.mp hk
    rw [hR.text h hname]
    split
    · have herror := hR.unsupported h hname
      rw [hR.text h hname] at herror
      exact hR.fail herror
    refine hR.accept_bind (fun _ _ _ _ => hR.pure rfl) ?_
    exact hR.expect_bind fun _ _ _ _ => declaredNames n m _

theorem blockBody : ∀ n m : Nat, R BlockState _ _ Eq (Reader.blockBody ctx n) (Reader.blockBody ctx' m)
  | 0, _ => hR.exhausted _
  | _ + 1, 0 => hR.exhausted' _
  | n + 1, m + 1 => by
    refine hR.bind_eq hR.test fun closes => ?_
    cases closes with
    | true => exact hR.expect_bind fun _ _ _ _ => hR.pure rfl
    | false => exact hR.bind_eq hR.expectStatement fun first => hR.bind_eq (blockBody n m) fun _ => hR.pure rfl

theorem elseBranch : R IfState _ _ Eq (Reader.elseBranch ctx) (Reader.elseBranch ctx') := by
  refine hR.accept_bind (fun _ _ _ _ => ?_) ?_
  · exact hR.bind_eq hR.expectStatement fun branch => hR.pure rfl
  · exact hR.bind_eq (hR.setState _) fun _ => hR.pure rfl

/-- A rule is read in both contexts by readers that are related, and what they give is wrapped alike. -/
theorem body (rule : Rule) (cursor cursor' : Cursor) :
    ∃ (α : Type) (make : α → Payload) (x y : Reader (Construct.rule rule).State α), R _ α α Eq x y ∧
      rule.body ctx cursor = Rule.wrap make (x.run (Construct.rule rule).grammar cursor) ∧
      rule.body ctx' cursor' = Rule.wrap make (y.run (Construct.rule rule).grammar cursor') := by
  cases rule with
  | expression => exact ⟨_, _, _, _, (hR.expressions _ _).subexpression _, rfl, rfl⟩
  | statement => exact ⟨_, _, _, _, hR.expectStatement, rfl, rfl⟩
  | declaration =>
    refine ⟨_, _, _, _, ?_, rfl, rfl⟩
    exact hR.expect_bind fun _ _ _ _ => hR.bind_eq (hR.declaredNames _ _ _) fun names => hR.pure rfl
  | assignment =>
    refine ⟨_, _, _, _, ?_, rfl, rfl⟩
    refine hR.expect_bind fun name name' h hk => hR.expect_bind fun _ _ _ _ => ?_
    refine hR.bind_eq (hR.resolveVariable h (List.mem_singleton.mp hk)) fun target => ?_
    exact hR.expectExpression_bind fun value _ _ hp => hR.expect_bind fun _ _ _ _ => hR.locate hp _
  | returnStatement =>
    refine ⟨_, _, _, _, ?_, rfl, rfl⟩
    refine hR.expect_bind fun _ _ _ _ => ?_
    exact hR.expectExpression_bind fun value _ _ hp => hR.expect_bind fun _ _ _ _ => hR.locate hp _
  | ifStatement =>
    refine ⟨_, _, _, _, ?_, rfl, rfl⟩
    refine hR.expect_bind fun _ _ _ _ => hR.expect_bind fun _ _ _ _ => hR.expectExpression_bind fun condition _ _ hp => ?_
    refine hR.expect_bind fun _ _ _ _ => hR.bind_eq hR.expectStatement fun thenBranch => ?_
    exact hR.bind_eq hR.elseBranch fun elseBranch => hR.locate hp _
  | blockStatement =>
    refine ⟨_, _, _, _, ?_, rfl, rfl⟩
    refine hR.accept_bind (fun _ _ _ _ => hR.bind_eq (hR.blockBody _ _) fun body => hR.pure rfl) ?_
    refine hR.accept_bind (fun _ _ _ _ => hR.pure rfl) ?_
    exact hR.expectExpression_bind fun value _ _ _ => hR.expect_bind fun _ _ _ _ => hR.pure rfl

/-! ### Programs -/

theorem programLocals : R ProgramState _ _ Eq (Reader.programLocals ctx) (Reader.programLocals ctx') := by
  refine hR.accept_bind (fun t t' h _ => ?_) (hR.pure rfl)
  dsimp only
  rw [hR.payload h]
  split
  · exact hR.pure rfl
  · exact hR.fail (hR.malformed h _)

theorem programBody : ∀ n m : Nat, R ProgramState _ _ Eq (Reader.programBody ctx n) (Reader.programBody ctx' m)
  | 0, _ => hR.exhausted _
  | _ + 1, 0 => hR.exhausted' _
  | n + 1, m + 1 => by
    refine hR.bind_eq hR.atEnd fun ended => ?_
    cases ended with
    | true => exact hR.pure rfl
    | false => exact hR.bind_eq hR.expectStatement fun first => hR.bind_eq (programBody n m) fun _ => hR.pure rfl

end Parallel
end Reader
end HostScript
