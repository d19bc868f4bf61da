import HostScript.Proofs.Reader.Proceeding
import HostScript.Proofs.Reader.Typed

/-! Every read gives a result or an error in the text.

A turn of a loop consumes text, so its budget is enough. A rule inside a rule is tried where less text is
left or nests less deeply itself (`Rule.need`), so a depth that grows with the text is enough for all of
them. -/

namespace HostScript

variable {S : Type}

/-! ### Nesting -/

/-- The depth to which rules nest inside the rule, itself included, in a text of `n` characters. A block
    consumes a character before it reads a statement. -/
def Rule.need (n : Nat) : Rule → Nat
  | expression | declaration => 1
  | assignment | returnStatement => 2
  | ifStatement | blockStatement => 2 * n + 2
  | statement => 2 * n + 3

theorem Rule.need_mono {n m : Nat} (h : n ≤ m) (rule : Rule) : rule.need n ≤ rule.need m := by
  cases rule <;> simp only [need] <;> omega

/-- The rules that nest no deeper than `depth` arrive. -/
def Context.Covers (ctx : Context) (depth : Nat) : Prop :=
  ∀ rule p, Rule.need p.rest.length rule ≤ depth → HostScript.Arrives p (ctx.rules rule (.ofPlace p))

theorem Context.Covers.ready {ctx : Context} {depth : Nat} (hctx : ctx.Covers depth) {g : Grammar S} (hg : g.Proper)
    {state : S} {p : Place} (rules : List Rule) (hrules : g.rulesIn state = rules)
    (hneed : ∀ rule ∈ rules, rule.need p.rest.length ≤ depth) : ctx.Ready g state p := by
  refine hg.ready fun rule hmem => hctx rule p.skip ?_
  rw [hrules] at hmem
  exact Nat.le_trans (rule.need_mono p.reaches_skip.length_le) (hneed rule hmem)

namespace Reader

open Grammar (ExprState DeclarationState)

variable {ctx : Context} {origin p : Place}

/-! ### Expressions -/

/-- No rule is tried inside an expression. -/
theorem ready_expression {ctx : Context} {state : ExprState} {p : Place} : ctx.Ready .expression state p :=
  (Construct.proper (.rule .expression)).ready_of_words (by cases state <;> rfl)

/-- The readers of expressions proceed with `n` steps wherever the text is short enough. An operator pays
    with its own text for the steps of its operands. -/
structure ExpressionsProceed (ctx : Context) (origin : Place) (n : Nat) : Prop where
  subexpression : ∀ {ceiling : Nat} {state : ExprState} {p : Place}, origin.Reaches p → 2 * p.rest.length + 2 ≤ n →
    Proceeds ctx .expression origin (subexpression ctx n ceiling) state p fun _ _ q => q.rest.length < p.rest.length
  operators : ∀ {ceiling : Nat} {left : Expr} {state : ExprState} {p : Place}, origin.Reaches p →
    2 * p.rest.length + 1 ≤ n → Proceeds ctx .expression origin (operators ctx n ceiling left) state p fun _ _ _ => True
  operand : ∀ {state : ExprState} {p : Place}, origin.Reaches p → 2 * p.rest.length + 1 ≤ n →
    Proceeds ctx .expression origin (operand ctx n) state p fun _ _ q => q.rest.length < p.rest.length
  callArgs : ∀ {state : ExprState} {p : Place}, origin.Reaches p → 2 * p.rest.length + 4 ≤ n →
    Proceeds ctx .expression origin (callArgs ctx n) state p fun _ _ _ => True
  moreArgs : ∀ {state : ExprState} {p : Place}, origin.Reaches p → 2 * p.rest.length + 3 ≤ n →
    Proceeds ctx .expression origin (moreArgs ctx n) state p fun _ _ _ => True

namespace ExpressionsProceed

variable {n ceiling : Nat} {state : ExprState}

theorem zero : ExpressionsProceed ctx origin 0 where
  subexpression _ h := by omega
  operators _ h := by omega
  operand _ h := by omega
  callArgs _ h := by omega
  moreArgs _ h := by omega

theorem subexpression_succ (ih : ExpressionsProceed ctx origin n) (ho : origin.Reaches p)
    (hn : 2 * p.rest.length + 2 ≤ n + 1) :
    Proceeds ctx .expression origin (Reader.subexpression ctx (n + 1) ceiling) state p
      fun _ _ q => q.rest.length < p.rest.length := by
  refine .bind (ih.operand ho (by omega)) fun left state₁ q hpq hlt => ?_
  exact .behind hlt (ih.operators (ho.trans hpq) (by omega))

theorem nextBinary (ho : origin.Reaches p) :
    Proceeds ctx .expression origin (Reader.nextBinary ctx) state p (Proceeds.Unmoved state p) := by
  refine .unmoved_bind (.peek ho ready_expression) fun found => ?_
  cases found <;> exact .pure ⟨rfl, rfl⟩

theorem operators_succ (ih : ExpressionsProceed ctx origin n) {left : Expr} (ho : origin.Reaches p)
    (hn : 2 * p.rest.length + 1 ≤ n + 1) :
    Proceeds ctx .expression origin (Reader.operators ctx (n + 1) ceiling left) state p fun _ _ _ => True := by
  refine .unmoved_bind (nextBinary ho) fun op => ?_
  cases op with
  | none => exact .pure trivial
  | some op =>
    dsimp only
    split
    · exact .pure trivial
    refine .accept_bind ho ready_expression (fun token q ho hq => ?_) (.pure trivial)
    have hlt := hq.shorter
    refine .bind (ih.subexpression ho (by omega)) fun right state₁ r hqr hlt' => ?_
    refine .unmoved_bind (.locate hq.meets) fun tree => ?_
    exact ih.operators (ho.trans hqr) (by omega)

theorem constant {token : Token} (ho : origin.Meets token.position) :
    Proceeds ctx .expression origin (Reader.constant token) state p (Proceeds.Unmoved state p) := by
  unfold Reader.constant
  split
  · exact .pure ⟨rfl, rfl⟩
  · exact .fail rfl ho

theorem prefixOp {token : Token} (ho : origin.Meets token.position) :
    Proceeds ctx .expression origin (Reader.prefixOp token) state p (Proceeds.Unmoved state p) := by
  unfold Reader.prefixOp
  split
  · exact .pure ⟨rfl, rfl⟩
  · exact .fail rfl ho

theorem operand_succ (ih : ExpressionsProceed ctx origin n) (ho : origin.Reaches p)
    (hn : 2 * p.rest.length + 1 ≤ n + 1) :
    Proceeds ctx .expression origin (Reader.operand ctx (n + 1)) state p fun _ _ q => q.rest.length < p.rest.length := by
  -- whatever form the operand has, its first token is consumed before anything else is read
  refine .accept_bind ho ready_expression (fun _ q hoq hq => ?_) ?_
  · have hlt := hq.shorter
    refine .bind (ih.subexpression hoq (by omega)) fun inner state₁ r hqr hlt' => ?_
    refine .expect_bind (hoq.trans hqr) ready_expression fun _ r' _ hr' => .pure ?_
    have hlt'' := hr'.shorter
    omega
  refine .accept_bind ho ready_expression (fun name q hoq hq => ?_) ?_
  · have hlt := hq.shorter
    refine .accept_bind hoq ready_expression (fun _ r hor hr => ?_) ?_
    · have hlt' := hr.shorter
      refine .bind (ih.callArgs hor (by omega)) fun args state₁ r' hrr' _ => ?_
      have hle := hrr'.length_le
      refine .unmoved_bind (.resolveFunction hq.meets) fun function => ?_
      exact .unmoved (.locate hq.meets) fun _ => by omega
    · refine .setState_bind fun _ => .unmoved_bind (.resolveVariable hq.meets) fun target => ?_
      exact .pure hlt
  refine .accept_bind ho ready_expression (fun token q hoq hq => ?_) ?_
  · have hlt := hq.shorter
    refine .unmoved_bind (prefixOp hq.meets) fun op => ?_
    refine .bind (ih.subexpression hoq (by omega)) fun inner state₁ r _ hlt' => ?_
    exact .unmoved (.locate hq.meets) fun _ => by omega
  · refine .expect_bind ho ready_expression fun token q _ hq => ?_
    exact .unmoved (constant hq.meets) fun _ => hq.shorter

theorem callArgs_succ (ih : ExpressionsProceed ctx origin n) (ho : origin.Reaches p)
    (hn : 2 * p.rest.length + 4 ≤ n + 1) :
    Proceeds ctx .expression origin (Reader.callArgs ctx (n + 1)) state p fun _ _ _ => True := by
  refine .accept_bind ho ready_expression (fun _ _ _ _ => .pure trivial) ?_
  exact .setState_bind fun _ => ih.moreArgs ho (by omega)

theorem moreArgs_succ (ih : ExpressionsProceed ctx origin n) (ho : origin.Reaches p)
    (hn : 2 * p.rest.length + 3 ≤ n + 1) :
    Proceeds ctx .expression origin (Reader.moreArgs ctx (n + 1)) state p fun _ _ _ => True := by
  refine .bind (ih.subexpression ho (by omega)) fun arg state₁ q hpq hlt => ?_
  refine .accept_bind (ho.trans hpq) ready_expression (fun _ _ _ _ => .pure trivial) ?_
  refine .expect_bind (ho.trans hpq) ready_expression fun _ r hor hr => ?_
  have hlt' := hr.shorter
  exact .bind (ih.moreArgs hor (by omega)) fun _ _ _ _ _ => .pure trivial

end ExpressionsProceed

theorem expressionsProceed (ctx : Context) (origin : Place) : ∀ n, ExpressionsProceed ctx origin n
  | 0 => .zero
  | n + 1 =>
    have ih := expressionsProceed ctx origin n
    ⟨ih.subexpression_succ, ih.operators_succ, ih.operand_succ, ih.callArgs_succ, ih.moreArgs_succ⟩

theorem arrives_expression (ctx : Context) (p : Place) : Arrives p (expression ctx (.ofPlace p)) := by
  refine Proceeds.arrives ((expressionsProceed ctx p _).subexpression (.refl p) ?_)
  simp only [budget, Cursor.rest, Cursor.ofPlace]
  omega

/-! ### Statements -/

theorem ready_declaration {ctx : Context} {state : DeclarationState} {p : Place} : ctx.Ready .declaration state p :=
  (Construct.proper (.rule .declaration)).ready_of_words (by cases state <;> rfl)

theorem proceeds_declaredNames {n : Nat} {known : List String} {state : DeclarationState} (ho : origin.Reaches p)
    (hn : p.rest.length < n) :
    Proceeds ctx .declaration origin (declaredNames ctx n known) state p fun _ _ _ => True := by
  induction n generalizing known state p with
  | zero => omega
  | succ n ih =>
    refine .expect_bind ho ready_declaration fun name q hoq hq => ?_
    have hlt := hq.shorter
    split
    · exact .fail rfl hq.meets
    refine .accept_bind hoq ready_declaration (fun _ _ _ _ => .pure trivial) ?_
    refine .expect_bind hoq ready_declaration fun _ r hor hr => ih hor ?_
    have hlt' := hr.shorter
    omega

theorem arrives_declaration (ctx : Context) (p : Place) : Arrives p (declaration ctx (.ofPlace p)) := by
  refine Proceeds.arrives (.expect_bind (.refl p) ready_declaration fun _ q ho hq => .behind hq.shorter ?_)
  have hlt := hq.shorter
  refine .bind (proceeds_declaredNames ho ?_) fun _ _ _ _ _ => .pure trivial
  simp only [Cursor.rest, Cursor.ofPlace]
  omega

section
variable {S : Type} {g : Grammar S} {state : S} {depth : Nat}

/-- An expression is tried wherever rules may nest at all. -/
theorem ready_value (hctx : ctx.Covers depth) (hg : g.Proper) (hrules : g.rulesIn state = [.expression])
    (hd : 1 ≤ depth) : ctx.Ready g state p :=
  hctx.ready hg [.expression] hrules (by simpa [Rule.need])

/-- A statement is tried where it needs no more than the depth. -/
theorem ready_statement (hctx : ctx.Covers depth) (hg : g.Proper) (hrules : g.rulesIn state = [.statement])
    (hd : 2 * p.rest.length + 3 ≤ depth) : ctx.Ready g state p :=
  hctx.ready hg [.statement] hrules (by simpa [Rule.need])

end

variable {depth : Nat}

theorem arrives_assignment (hctx : ctx.Covers depth) (hd : 1 ≤ depth) (p : Place) :
    Arrives p (assignment ctx (.ofPlace p)) := by
  have hword {state q} (h : Grammar.assignment.rulesIn state = []) : ctx.Ready .assignment state q :=
    (Construct.proper (.rule .assignment)).ready_of_words h
  have hvalue {q} : ctx.Ready .assignment .postAssign q :=
    ready_value hctx (Construct.proper (.rule .assignment)) rfl hd
  refine Proceeds.arrives (.expect_bind (.refl p) (hword rfl) fun name q ho hq => .behind hq.shorter ?_)
  refine .expect_bind ho (hword rfl) fun _ q₁ ho₁ _ => ?_
  refine .unmoved_bind (.resolveVariable hq.meets) fun target => ?_
  refine .expectExpression_bind ho₁ hvalue fun value position q₂ ho₂ _ hmeets => ?_
  exact .expect_bind ho₂ (hword rfl) fun _ _ _ _ => .unmoved (.locate hmeets) fun _ => trivial

theorem arrives_returnStatement (hctx : ctx.Covers depth) (hd : 1 ≤ depth) (p : Place) :
    Arrives p (returnStatement ctx (.ofPlace p)) := by
  have hword {state q} (h : Grammar.returnStatement.rulesIn state = []) : ctx.Ready .returnStatement state q :=
    (Construct.proper (.rule .returnStatement)).ready_of_words h
  have hvalue {q} : ctx.Ready .returnStatement .preExpr q :=
    ready_value hctx (Construct.proper (.rule .returnStatement)) rfl hd
  refine Proceeds.arrives (.expect_bind (.refl p) (hword rfl) fun _ q ho hq => .behind hq.shorter ?_)
  refine .expectExpression_bind ho hvalue fun value position q₁ ho₁ _ hmeets => ?_
  exact .expect_bind ho₁ (hword rfl) fun _ _ _ _ => .unmoved (.locate hmeets) fun _ => trivial

theorem proceeds_blockBody (hctx : ctx.Covers depth) {n : Nat} (ho : origin.Reaches p) (hn : p.rest.length < n)
    (hd : 2 * p.rest.length + 3 ≤ depth) :
    Proceeds ctx .blockStatement origin (blockBody ctx n) .inBlock p fun _ _ _ => True := by
  induction n generalizing p with
  | zero => omega
  | succ n ih =>
    have hready : ctx.Ready .blockStatement .inBlock p :=
      ready_statement hctx (Construct.proper (.rule .blockStatement)) rfl hd
    refine .unmoved_bind (.test ho hready) fun closes => ?_
    cases closes with
    | true => exact .expect_bind ho hready fun _ _ _ _ => .pure trivial
    | false =>
      refine .expectStatement_bind ho hready fun first q ho hlt => ?_
      exact .bind (ih ho (by omega) (by omega)) fun _ _ _ _ _ => .pure trivial

theorem arrives_blockStatement (hctx : ctx.Covers depth) (p : Place) (hd : 2 * p.rest.length + 1 ≤ depth) :
    Arrives p (blockStatement ctx (.ofPlace p)) := by
  have hbegin : ctx.Ready .blockStatement .begin p :=
    ready_value hctx (Construct.proper (.rule .blockStatement)) rfl (by omega)
  refine Proceeds.arrives (.accept_bind (.refl p) hbegin (fun _ q ho hq => .behind hq.shorter ?_) ?_)
  · have hlt := hq.shorter
    refine .bind (proceeds_blockBody hctx ho ?_ (by omega)) fun _ _ _ _ _ => .pure trivial
    simp only [Cursor.rest, Cursor.ofPlace]
    omega
  refine .accept_bind (.refl p) hbegin (fun _ q _ hq => .pure hq.shorter) ?_
  refine .expectExpression_bind (.refl p) hbegin fun value _ q ho hlt _ => .behind hlt ?_
  exact .expect_bind ho ((Construct.proper (.rule .blockStatement)).ready_of_words rfl) fun _ _ _ _ => .pure trivial

theorem proceeds_elseBranch (hctx : ctx.Covers depth) (ho : origin.Reaches p) (hd : 2 * p.rest.length + 3 ≤ depth) :
    Proceeds ctx .ifStatement origin (elseBranch ctx) .postBlock p fun _ _ _ => True := by
  refine .accept_bind ho ((Construct.proper (.rule .ifStatement)).ready_of_words rfl) (fun _ q hoq hq => ?_)
    (.setState_bind fun _ => .pure trivial)
  have hlt := hq.shorter
  have hready : ctx.Ready .ifStatement .postElse q :=
    ready_statement hctx (Construct.proper (.rule .ifStatement)) rfl (by omega)
  exact .expectStatement_bind hoq hready fun _ _ _ _ => .pure trivial

theorem arrives_ifStatement (hctx : ctx.Covers depth) (p : Place) (hd : 2 * p.rest.length + 1 ≤ depth) :
    Arrives p (ifStatement ctx (.ofPlace p)) := by
  have hword {state q} (h : Grammar.ifStatement.rulesIn state = []) : ctx.Ready .ifStatement state q :=
    (Construct.proper (.rule .ifStatement)).ready_of_words h
  have hcondition {q} : ctx.Ready .ifStatement .preExpr q :=
    ready_value hctx (Construct.proper (.rule .ifStatement)) rfl (by omega)
  refine Proceeds.arrives (.expect_bind (.refl p) (hword rfl) fun _ q ho hq => .behind hq.shorter ?_)
  have hlt := hq.shorter
  refine .expect_bind ho (hword rfl) fun _ q₁ ho₁ hq₁ => ?_
  have hlt₁ := hq₁.shorter
  refine .expectExpression_bind ho₁ hcondition fun condition position q₂ ho₂ hlt₂ hmeets => ?_
  refine .expect_bind ho₂ (hword rfl) fun _ q₃ ho₃ hq₃ => ?_
  have hlt₃ := hq₃.shorter
  have hbranch : ctx.Ready .ifStatement .preBlock q₃ :=
    ready_statement hctx (Construct.proper (.rule .ifStatement)) rfl (by omega)
  refine .expectStatement_bind ho₃ hbranch fun thenBranch q₄ ho₄ hlt₄ => ?_
  refine .bind (proceeds_elseBranch hctx ho₄ (by omega)) fun _ _ _ _ _ => ?_
  exact .unmoved (.locate hmeets) fun _ => trivial

theorem arrives_statement (hctx : ctx.Covers depth) (p : Place) (hd : 2 * p.rest.length + 2 ≤ depth) :
    Arrives p (statement ctx (.ofPlace p)) := by
  refine Proceeds.arrives ((Proceeds.expectStatement (.refl p) ?_).mono fun _ _ _ _ h => h.2)
  refine hctx.ready (Construct.proper (.rule .statement)) [.assignment, .ifStatement, .returnStatement, .blockStatement] rfl ?_
  simp only [List.forall_mem_cons, List.not_mem_nil, false_implies, implies_true, and_true, Rule.need]
  omega

end Reader

/-! ### Rules -/

namespace Rule

theorem arrives_wrap {α : Type} {p : Place} {make : α → Payload} {r : Except Stop (α × Cursor)} (h : Arrives p r) :
    Arrives p (wrap make r) where
  ok hr := by
    obtain ⟨tree, hr, -⟩ := wrap_eq_ok hr
    exact h.ok hr
  error hr := by
    cases r with
    | ok found => cases hr
    | error reason =>
      cases hr
      exact h.error rfl

/-- A rule arrives if the rules do that nest in it. -/
theorem arrives_body {ctx : Context} {depth : Nat} (hctx : ctx.Covers depth) (rule : Rule) (p : Place)
    (hd : rule.need p.rest.length ≤ depth + 1) : Arrives p (rule.body ctx (.ofPlace p)) := by
  cases rule <;> simp only [need] at hd
  case expression => exact arrives_wrap (Reader.arrives_expression ctx p)
  case statement => exact arrives_wrap (Reader.arrives_statement hctx p (by omega))
  case declaration => exact arrives_wrap (Reader.arrives_declaration ctx p)
  case assignment => exact arrives_wrap (Reader.arrives_assignment hctx (by omega) p)
  case returnStatement => exact arrives_wrap (Reader.arrives_returnStatement hctx (by omega) p)
  case ifStatement => exact arrives_wrap (Reader.arrives_ifStatement hctx p (by omega))
  case blockStatement => exact arrives_wrap (Reader.arrives_blockStatement hctx p (by omega))

theorem covers_readWithin (scope : Scope) : ∀ depth, Context.Covers ⟨scope, readWithin scope depth⟩ depth
  | 0 => fun rule p h => by cases rule <;> simp [need] at h
  | depth + 1 => fun rule p h => arrives_body (covers_readWithin scope depth) rule p h

theorem need_le_depth (rule : Rule) (p : Place) : rule.need p.rest.length ≤ depth (.ofPlace p) := by
  simp only [depth, Cursor.rest, Cursor.ofPlace]
  cases rule <;> simp only [need] <;> omega

/-- Every rule arrives, wherever it is read. -/
theorem arrives_read (scope : Scope) (rule : Rule) (p : Place) : Arrives p (read scope rule (.ofPlace p)) :=
  covers_readWithin scope _ rule p (need_le_depth rule p)

theorem covers_context (scope : Scope) (depth : Nat) : scope.context.Covers depth :=
  fun rule p _ => arrives_read scope rule p

end Rule

/-- In the context of a scope all forms of a proper grammar arrive everywhere. -/
theorem Grammar.Proper.ready_context {g : Grammar S} (hg : g.Proper) {scope : Scope} {state : S} {p : Place} :
    scope.context.Ready g state p :=
  hg.ready fun rule _ => Rule.arrives_read scope rule p.skip

/-! ### Programs -/

namespace Reader

open Grammar (ProgramState)

variable {scope : Scope} {origin p : Place} {state : ProgramState}

theorem proceeds_programLocals (ho : origin.Reaches p) :
    Proceeds scope.context .program origin (programLocals scope.context) state p fun _ _ _ => True := by
  refine .accept_bind ho (Construct.proper .program).ready_context (fun token q _ hq => ?_) (.pure trivial)
  dsimp only
  split
  · exact .pure trivial
  · exact .fail rfl hq.meets

theorem proceeds_programBody {n : Nat} (ho : origin.Reaches p) (hn : p.rest.length < n) :
    Proceeds scope.context .program origin (programBody scope.context n) state p fun _ _ _ => True := by
  induction n generalizing p state with
  | zero => omega
  | succ n ih =>
    refine .bind .atEnd fun ended state₁ q hpq hq => ?_
    obtain ⟨rfl, rfl⟩ := hq
    have hle := hpq.length_le
    cases ended with
    | true => exact .pure trivial
    | false =>
      refine .expectStatement_bind (ho.trans hpq) (Construct.proper .program).ready_context fun _ q ho hlt => ?_
      exact .bind (ih ho (by omega)) fun _ _ _ _ _ => .pure trivial

end Reader

/-- A whole text gives a program or an error in it. -/
theorem Program.foundFrom_of_read {scope : Scope} {text : String} {reason : Stop}
    (h : read scope text = .error reason) : reason.FoundFrom (.start text.toList) := by
  have hlocals : Reader.Proceeds scope.context .program (.start text.toList) (Reader.programLocals scope.context) .begin
      (.start text.toList) fun _ _ _ => True := Reader.proceeds_programLocals (.refl _)
  rcases Except.error_of_bind h with hrun | ⟨⟨locals, cursor⟩, hrun, h⟩
  · exact hlocals.foundFrom_of_run hrun
  obtain ⟨-, q, rfl, hreaches, -⟩ := hlocals.of_run hrun
  have hbody : Reader.Proceeds (scope.declareAll locals).context .program (.start text.toList)
      (Reader.setState .body >>= fun _ => Reader.programBody (scope.declareAll locals).context (q.rest.length + 1)) .begin q
      fun _ _ _ => True := .setState_bind fun _ => Reader.proceeds_programBody hreaches (Nat.lt_succ_self _)
  rcases Except.error_of_bind h with hrun | ⟨⟨body, behind⟩, -, h⟩
  · exact hbody.foundFrom_of_run hrun
  · dsimp only at h
    split at h <;> cases h
    intro position hposition
    cases hposition

end HostScript
