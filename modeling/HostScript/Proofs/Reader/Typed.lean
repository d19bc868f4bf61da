import HostScript.Proofs.Reader.Moves
import HostScript.Proofs.Typing
import HostScript.Reader.Program

/-! Every tree that is read is typed in the scope it is read in, whatever the text.

Trees travel as payloads of tokens, so a stream is typed if the token it looks ahead at is. A reader
keeps the stream typed and gives typed trees, provided that the rules inside it do; the rules are then
typed at every depth. -/

namespace HostScript

/-- The tree that a token of the given kind carries is typed. Only the rule for declarations gives a
    declaration. -/
structure Payload.Typed (scope : Scope) (kind : TokenKind) (payload : Payload) : Prop where
  expr : ∀ e, payload = .expr e → e.Typed scope
  stmt : ∀ s, payload = .stmt s → kind ≠ .declaration → s.Typed scope ∧ s.Settled

/-- The rules give typed trees. -/
def RuleReader.Typed (scope : Scope) (read : RuleReader) : Prop :=
  ∀ rule cursor payload behind, read rule cursor = .ok (payload, behind) → payload.Typed scope rule.kind

/-- The token that the stream looks ahead at carries a typed tree. -/
def TokenStream.Typed {S : Type} (scope : Scope) (s : TokenStream S) : Prop :=
  ∀ token, s.lookahead = some (some token) → token.payload.Typed scope token.kind

/-! ### Tokens -/

variable {scope : Scope} {rules : RuleReader}

theorem Terminal.payload_typed {form : Terminal} {text : List Char} {payload : Payload} {kind : TokenKind}
    (h : form.read text = .ok payload) : payload.Typed scope kind := by
  have hne : (∀ e, payload ≠ .expr e) ∧ ∀ s, payload ≠ .stmt s := by
    unfold Terminal.read at h
    split at h
    all_goals try split at h
    all_goals cases h
    all_goals simp
  exact ⟨fun e he => absurd he (hne.1 e), fun s hs => absurd hs (hne.2 s)⟩

theorem Matcher.attempt_typed (hr : rules.Typed scope) {form : Matcher} {cursor behind : Cursor} {token : Token}
    (h : form.attempt rules cursor = .token token behind) : token.payload.Typed scope token.kind := by
  cases form with
  | terminal form =>
    simp only [Matcher.attempt, Terminal.attempt] at h
    split at h
    · cases h
    · split at h
      · cases h
      next hp =>
        cases h
        exact Terminal.payload_typed hp
  | rule form =>
    simp only [Matcher.attempt, Rule.attempt] at h
    split at h
    next payload behind hread =>
      split at h
      · cases h
        exact hr _ _ _ _ hread
      · cases h
    · split at h <;> cases h
    · cases h

theorem Matcher.scan_typed (hr : rules.Typed scope) {cursor behind : Cursor} {token : Token} :
    ∀ {forms : List Matcher} {failures : List Failure},
      Matcher.scan rules cursor forms = (.ok (some (token, behind)), failures) →
        token.payload.Typed scope token.kind
  | form :: forms, failures, h => by
    unfold Matcher.scan at h
    split at h
    next ha =>
      cases h
      exact Matcher.attempt_typed hr ha
    next => cases h
    next =>
      cases hs : Matcher.scan rules cursor forms with
      | mk found failures =>
        rw [hs] at h
        cases h
        exact Matcher.scan_typed hr hs

/-! ### Moves -/

namespace TokenStream

variable {S : Type} {s s' : TokenStream S}

theorem typed_ofCursor (grammar : Grammar S) (cursor : Cursor) : (ofCursor grammar cursor).Typed scope :=
  fun _ h => by cases h

theorem typed_setState (state : S) : (s.setState state).Typed scope := fun _ h => by cases h

theorem typed_peek [DecidableEq S] (hr : rules.Typed scope) (hs : s.Typed scope) {found : Option Token}
    (h : s.peek rules = (.ok found, s')) :
    s'.Typed scope ∧ ∀ token ∈ found, token.payload.Typed scope token.kind := by
  have hfound : ∀ token ∈ found, token.payload.Typed scope token.kind := by
    rintro token rfl
    unfold peek at h
    split at h
    next hl =>
      cases h
      exact hs _ hl
    next =>
      dsimp only at h
      split at h
      · cases h
      · split at h
        next hscan =>
          cases h
          exact Matcher.scan_typed hr hscan
        next => cases h
        next => cases h
  refine ⟨fun token hl => hfound token ?_, hfound⟩
  rw [lookahead_of_peek h] at hl
  cases hl
  rfl

end TokenStream

namespace Reader

variable {S α : Type} [DecidableEq S] {ctx : Context} {kinds : List TokenKind} {next : S} {s s' : TokenStream S}

theorem typed_accept (hr : ctx.rules.Typed scope) (hs : s.Typed scope) {found : Option Token}
    (h : accept ctx kinds next s = .ok found s') :
    s'.Typed scope ∧ ∀ token ∈ found, token.payload.Typed scope token.kind ∧ token.kind ∈ kinds := by
  rcases accept_eq_ok h with ⟨token, s₁, rfl, hp, hk, rfl⟩ | ⟨rfl, seen, hp, -⟩
  · refine ⟨TokenStream.typed_setState next, fun t ht => ?_⟩
    cases ht
    exact ⟨(TokenStream.typed_peek hr hs hp).2 _ rfl, hk⟩
  · exact ⟨(TokenStream.typed_peek hr hs hp).1, fun t ht => by cases ht⟩

theorem typed_expect (hr : ctx.rules.Typed scope) (hs : s.Typed scope) {token : Token}
    (h : expect ctx kinds next s = .ok token s') : s'.Typed scope :=
  (typed_accept hr hs (expect_eq_ok h)).1

theorem typed_expectExpression (hr : ctx.rules.Typed scope) (hs : s.Typed scope) {e : Expr} {position : Position}
    (h : expectExpression ctx next s = .ok (e, position) s') : s'.Typed scope ∧ e.Typed scope := by
  obtain ⟨token, ha, hp⟩ := expectExpression_eq_ok h
  obtain ⟨hs', ht⟩ := typed_accept hr hs ha
  exact ⟨hs', (ht token rfl).1.expr e hp⟩

theorem typed_expectStatement (hr : ctx.rules.Typed scope) (hs : s.Typed scope) (hk : .declaration ∉ kinds)
    {t : Stmt} (h : expectStatement ctx kinds next s = .ok t s') :
    s'.Typed scope ∧ t.Typed scope ∧ t.Settled := by
  obtain ⟨token, ha, hp⟩ := expectStatement_eq_ok h
  obtain ⟨hs', ht⟩ := typed_accept hr hs ha
  obtain ⟨htyped, hmem⟩ := ht token rfl
  exact ⟨hs', htyped.stmt t hp fun hd => hk (hd ▸ hmem)⟩

/-! ### Expressions -/

open Grammar (ExprState)

theorem name_of_variableNamed? {name : String} {target : Variable} (h : scope.variableNamed? name = some target) :
    scope.variableNamed? target.name = some target := by
  have hname : target.name = name := by simpa using List.find?_some h
  rw [hname]
  exact h

theorem typed_nextBinary (hr : ctx.rules.Typed scope) {s s' : TokenStream ExprState} (hs : s.Typed scope)
    {op : Option BinaryOp} (h : nextBinary ctx s = .ok op s') : s'.Typed scope := by
  obtain ⟨found, s₁, hp, h⟩ := EStateM.ok_of_bind h
  have hs₁ := (TokenStream.typed_peek hr hs (peek_eq_ok hp)).1
  cases found <;> cases h <;> exact hs₁

theorem constant_eq_ok {token : Token} {s s' : TokenStream ExprState} {e : Expr}
    (h : constant token s = .ok e s') : ∃ value, token.payload = .constant value ∧ e = .const value ∧ s' = s := by
  unfold constant at h
  cases hp : token.payload with
  | constant value =>
    simp only [hp, Payload.constant?] at h
    cases h
    exact ⟨value, rfl, rfl, rfl⟩
  | _ =>
    simp only [hp, Payload.constant?] at h
    cases h

theorem prefixOp_eq_ok {token : Token} {s s' : TokenStream ExprState} {op : UnaryOp}
    (h : prefixOp token s = .ok op s') : token.payload = .unary op ∧ s' = s := by
  unfold prefixOp at h
  cases hp : token.payload with
  | unary op =>
    simp only [hp, Payload.unary?] at h
    cases h
    exact ⟨rfl, rfl⟩
  | _ =>
    simp only [hp, Payload.unary?] at h
    cases h

/-- What the readers of expressions give with a budget of `n` steps is typed. -/
structure ExpressionsTyped (ctx : Context) (n : Nat) : Prop where
  subexpression : ∀ {ceiling : Nat} {s s' : TokenStream ExprState} {e : Expr}, s.Typed ctx.scope →
    subexpression ctx n ceiling s = .ok e s' → s'.Typed ctx.scope ∧ e.Typed ctx.scope
  operators : ∀ {ceiling : Nat} {left : Expr} {s s' : TokenStream ExprState} {e : Expr}, s.Typed ctx.scope →
    left.Typed ctx.scope → operators ctx n ceiling left s = .ok e s' → s'.Typed ctx.scope ∧ e.Typed ctx.scope
  operand : ∀ {s s' : TokenStream ExprState} {e : Expr}, s.Typed ctx.scope →
    operand ctx n s = .ok e s' → s'.Typed ctx.scope ∧ e.Typed ctx.scope
  callArgs : ∀ {s s' : TokenStream ExprState} {es : List Expr}, s.Typed ctx.scope →
    callArgs ctx n s = .ok es s' → s'.Typed ctx.scope ∧ ∀ e ∈ es, e.Typed ctx.scope
  moreArgs : ∀ {s s' : TokenStream ExprState} {es : List Expr}, s.Typed ctx.scope →
    moreArgs ctx n s = .ok es s' → s'.Typed ctx.scope ∧ ∀ e ∈ es, e.Typed ctx.scope

namespace ExpressionsTyped

variable {n : Nat} {s s' : TokenStream ExprState}

theorem zero : ExpressionsTyped ctx 0 where
  subexpression _ h := by cases h
  operators _ _ h := by cases h
  operand _ h := by cases h
  callArgs _ h := by cases h
  moreArgs _ h := by cases h

theorem subexpression_succ (ih : ExpressionsTyped ctx n) {ceiling : Nat} {e : Expr} (hs : s.Typed ctx.scope)
    (h : Reader.subexpression ctx (n + 1) ceiling s = .ok e s') : s'.Typed ctx.scope ∧ e.Typed ctx.scope := by
  obtain ⟨left, s₁, hl, h⟩ := EStateM.ok_of_bind h
  obtain ⟨hs₁, hleft⟩ := ih.operand hs hl
  exact ih.operators hs₁ hleft h

theorem operators_succ (hr : ctx.rules.Typed ctx.scope) (ih : ExpressionsTyped ctx n) {ceiling : Nat} {left e : Expr}
    (hs : s.Typed ctx.scope) (hleft : left.Typed ctx.scope)
    (h : Reader.operators ctx (n + 1) ceiling left s = .ok e s') : s'.Typed ctx.scope ∧ e.Typed ctx.scope := by
  obtain ⟨op, s₁, hop, h⟩ := EStateM.ok_of_bind h
  have hs₁ := typed_nextBinary hr hs hop
  cases op with
  | none =>
    cases h
    exact ⟨hs₁, hleft⟩
  | some op =>
    dsimp only at h
    split at h
    · cases h
      exact ⟨hs₁, hleft⟩
    · obtain ⟨found, s₂, ha, h⟩ := EStateM.ok_of_bind h
      have hs₂ := (typed_accept hr hs₁ ha).1
      cases found with
      | none =>
        cases h
        exact ⟨hs₂, hleft⟩
      | some token =>
        obtain ⟨right, s₃, hread, h⟩ := EStateM.ok_of_bind h
        obtain ⟨hs₃, hright⟩ := ih.subexpression hs₂ hread
        obtain ⟨tree, s₄, hl, h⟩ := EStateM.ok_of_bind h
        obtain ⟨hmk, hs₄⟩ := locate_eq_ok hl
        rw [hs₄] at h
        exact ih.operators hs₃ (Expr.typed_of_mkBinary hmk hleft hright) h

theorem operand_succ (hr : ctx.rules.Typed ctx.scope) (ih : ExpressionsTyped ctx n) {e : Expr}
    (hs : s.Typed ctx.scope) (h : Reader.operand ctx (n + 1) s = .ok e s') :
    s'.Typed ctx.scope ∧ e.Typed ctx.scope := by
  obtain ⟨par, s₁, ha, h⟩ := EStateM.ok_of_bind h
  have hs₁ := (typed_accept hr hs ha).1
  cases par with
  | some _ =>
    obtain ⟨inner, s₂, hi, h⟩ := EStateM.ok_of_bind h
    obtain ⟨hs₂, hinner⟩ := ih.subexpression hs₁ hi
    obtain ⟨_, s₃, he, h⟩ := EStateM.ok_of_bind h
    cases h
    exact ⟨typed_expect hr hs₂ he, hinner⟩
  | none =>
    obtain ⟨name, s₂, ha, h⟩ := EStateM.ok_of_bind h
    have hs₂ := (typed_accept hr hs₁ ha).1
    cases name with
    | some name =>
      obtain ⟨par, s₃, ha, h⟩ := EStateM.ok_of_bind h
      have hs₃ := (typed_accept hr hs₂ ha).1
      cases par with
      | some _ =>
        obtain ⟨args, s₄, hread, h⟩ := EStateM.ok_of_bind h
        obtain ⟨hs₄, hargs⟩ := ih.callArgs hs₃ hread
        obtain ⟨function, s₅, hres, h⟩ := EStateM.ok_of_bind h
        obtain ⟨hf, hs₅⟩ := resolveFunction_eq_ok hres
        obtain ⟨hmk, hs'⟩ := locate_eq_ok h
        rw [hs', hs₅]
        exact ⟨hs₄, Expr.typed_of_mkCall hmk hf hargs⟩
      | none =>
        obtain ⟨_, s₄, hset, h⟩ := EStateM.ok_of_bind h
        obtain ⟨target, s₅, hres, hpure⟩ := EStateM.ok_of_bind h
        obtain ⟨hv, hs₅⟩ := resolveVariable_eq_ok hres
        cases hpure
        cases hset
        rw [hs₅]
        exact ⟨TokenStream.typed_setState _, .var (name_of_variableNamed? hv)⟩
    | none =>
      obtain ⟨sign, s₃, ha, h⟩ := EStateM.ok_of_bind h
      have hs₃ := (typed_accept hr hs₂ ha).1
      cases sign with
      | some token =>
        obtain ⟨op, s₄, hop, h⟩ := EStateM.ok_of_bind h
        obtain ⟨inner, s₅, hi, h⟩ := EStateM.ok_of_bind h
        rw [(prefixOp_eq_ok hop).2] at hi
        obtain ⟨hs₅, hinner⟩ := ih.subexpression hs₃ hi
        obtain ⟨hmk, hs'⟩ := locate_eq_ok h
        rw [hs']
        exact ⟨hs₅, Expr.typed_of_mkUnary hmk hinner⟩
      | none =>
        obtain ⟨token, s₄, he, h⟩ := EStateM.ok_of_bind h
        have hs₄ := typed_expect hr hs₃ he
        obtain ⟨value, -, rfl, hs'⟩ := constant_eq_ok h
        rw [hs']
        exact ⟨hs₄, .const value⟩

theorem callArgs_succ (hr : ctx.rules.Typed ctx.scope) (ih : ExpressionsTyped ctx n) {es : List Expr}
    (hs : s.Typed ctx.scope) (h : Reader.callArgs ctx (n + 1) s = .ok es s') :
    s'.Typed ctx.scope ∧ ∀ e ∈ es, e.Typed ctx.scope := by
  obtain ⟨par, s₁, ha, h⟩ := EStateM.ok_of_bind h
  have hs₁ := (typed_accept hr hs ha).1
  cases par with
  | some _ =>
    cases h
    exact ⟨hs₁, by simp⟩
  | none =>
    obtain ⟨_, s₂, hset, h⟩ := EStateM.ok_of_bind h
    cases hset
    exact ih.moreArgs (TokenStream.typed_setState _) h

theorem moreArgs_succ (hr : ctx.rules.Typed ctx.scope) (ih : ExpressionsTyped ctx n) {es : List Expr}
    (hs : s.Typed ctx.scope) (h : Reader.moreArgs ctx (n + 1) s = .ok es s') :
    s'.Typed ctx.scope ∧ ∀ e ∈ es, e.Typed ctx.scope := by
  obtain ⟨arg, s₁, harg, h⟩ := EStateM.ok_of_bind h
  obtain ⟨hs₁, harg⟩ := ih.subexpression hs harg
  obtain ⟨par, s₂, ha, h⟩ := EStateM.ok_of_bind h
  have hs₂ := (typed_accept hr hs₁ ha).1
  cases par with
  | some _ =>
    cases h
    exact ⟨hs₂, by simpa using harg⟩
  | none =>
    obtain ⟨_, s₃, he, h⟩ := EStateM.ok_of_bind h
    obtain ⟨args, s₄, hm, h⟩ := EStateM.ok_of_bind h
    obtain ⟨hs₄, hargs⟩ := ih.moreArgs (typed_expect hr hs₂ he) hm
    cases h
    exact ⟨hs₄, List.forall_mem_cons.mpr ⟨harg, hargs⟩⟩

theorem all (hr : ctx.rules.Typed ctx.scope) : ∀ n, ExpressionsTyped ctx n
  | 0 => zero
  | n + 1 =>
    have ih := all hr n
    { subexpression := ih.subexpression_succ
      operators := ih.operators_succ hr
      operand := ih.operand_succ hr
      callArgs := ih.callArgs_succ hr
      moreArgs := ih.moreArgs_succ hr }

end ExpressionsTyped

theorem typed_expression (hr : ctx.rules.Typed ctx.scope) {cursor behind : Cursor} {e : Expr}
    (h : expression ctx cursor = .ok (e, behind)) : e.Typed ctx.scope := by
  obtain ⟨s', h, -⟩ := run_eq_ok h
  exact ((ExpressionsTyped.all hr _).subexpression (TokenStream.typed_ofCursor _ _) h).2

/-! ### Statements -/

open Grammar (BlockState)

theorem typed_assignment (hr : ctx.rules.Typed ctx.scope) {cursor behind : Cursor} {t : Stmt}
    (h : assignment ctx cursor = .ok (t, behind)) : t.Typed ctx.scope ∧ t.Settled := by
  obtain ⟨_, h, -⟩ := run_eq_ok h
  obtain ⟨name, s₁, hname, h⟩ := EStateM.ok_of_bind h
  have hs₁ := typed_expect hr (TokenStream.typed_ofCursor _ _) hname
  obtain ⟨_, s₂, hsign, h⟩ := EStateM.ok_of_bind h
  have hs₂ := typed_expect hr hs₁ hsign
  obtain ⟨target, s₃, hres, h⟩ := EStateM.ok_of_bind h
  obtain ⟨hfound, hs₃⟩ := resolveVariable_eq_ok hres
  rw [hs₃] at h
  obtain ⟨⟨value, position⟩, s₄, hread, h⟩ := EStateM.ok_of_bind h
  have hvalue := (typed_expectExpression hr hs₂ hread).2
  obtain ⟨_, s₅, -, h⟩ := EStateM.ok_of_bind h
  obtain ⟨hty, rfl⟩ := Stmt.mkAssign_eq_ok.mp (locate_eq_ok h).1
  exact ⟨.assign (name_of_variableNamed? hfound) hty hvalue, .assign _ _⟩

theorem typed_returnStatement (hr : ctx.rules.Typed ctx.scope) {cursor behind : Cursor} {t : Stmt}
    (h : returnStatement ctx cursor = .ok (t, behind)) : t.Typed ctx.scope ∧ t.Settled := by
  obtain ⟨_, h, -⟩ := run_eq_ok h
  obtain ⟨_, s₁, hword, h⟩ := EStateM.ok_of_bind h
  have hs₁ := typed_expect hr (TokenStream.typed_ofCursor _ _) hword
  obtain ⟨⟨value, position⟩, s₂, hread, h⟩ := EStateM.ok_of_bind h
  have hvalue := (typed_expectExpression hr hs₁ hread).2
  obtain ⟨_, s₃, -, h⟩ := EStateM.ok_of_bind h
  obtain ⟨hty, rfl⟩ := Stmt.mkRet_eq_ok.mp (locate_eq_ok h).1
  exact ⟨.ret hty hvalue, .ret _⟩

theorem typed_blockBody (hr : ctx.rules.Typed ctx.scope) : ∀ {n : Nat} {s s' : TokenStream BlockState}
    {body : List Stmt}, s.Typed ctx.scope → blockBody ctx n s = .ok body s' →
      ∀ t ∈ body, t.Typed ctx.scope ∧ t.Settled
  | 0, _, _, _, _, h => by cases h
  | n + 1, s, s', body, hs, h => by
    obtain ⟨closed, s₁, htest, h⟩ := EStateM.ok_of_bind h
    obtain ⟨found, hp, -⟩ := test_eq_ok htest
    have hs₁ := (TokenStream.typed_peek hr hs hp).1
    split at h
    · obtain ⟨_, s₂, -, h⟩ := EStateM.ok_of_bind h
      cases h
      simp
    · obtain ⟨first, s₂, hfirst, h⟩ := EStateM.ok_of_bind h
      obtain ⟨hs₂, hfirst⟩ := typed_expectStatement hr hs₁ (by simp) hfirst
      obtain ⟨rest, s₃, hrest, h⟩ := EStateM.ok_of_bind h
      cases h
      exact List.forall_mem_cons.mpr ⟨hfirst, typed_blockBody hr hs₂ hrest⟩

theorem typed_blockStatement (hr : ctx.rules.Typed ctx.scope) {cursor behind : Cursor} {t : Stmt}
    (h : blockStatement ctx cursor = .ok (t, behind)) : t.Typed ctx.scope ∧ t.Settled := by
  obtain ⟨_, h, -⟩ := run_eq_ok h
  obtain ⟨brace, s₁, hbrace, h⟩ := EStateM.ok_of_bind h
  have hs₁ := (typed_accept hr (TokenStream.typed_ofCursor _ _) hbrace).1
  cases brace with
  | some _ =>
    obtain ⟨body, s₂, hread, h⟩ := EStateM.ok_of_bind h
    have hbody := typed_blockBody hr hs₁ hread
    cases h
    exact ⟨.block fun t ht => (hbody t ht).1, .block fun t ht => (hbody t ht).2⟩
  | none =>
    obtain ⟨semicolon, s₂, hsemi, h⟩ := EStateM.ok_of_bind h
    have hs₂ := (typed_accept hr hs₁ hsemi).1
    cases semicolon with
    | some _ =>
      cases h
      exact ⟨.empty, .empty⟩
    | none =>
      obtain ⟨⟨value, position⟩, s₃, hread, h⟩ := EStateM.ok_of_bind h
      have hvalue := (typed_expectExpression hr hs₂ hread).2
      obtain ⟨_, s₄, -, h⟩ := EStateM.ok_of_bind h
      cases h
      exact ⟨.expr hvalue, .expr _⟩

theorem typed_elseBranch (hr : ctx.rules.Typed ctx.scope) {s s' : TokenStream Grammar.IfState} {found : Option Stmt}
    (hs : s.Typed ctx.scope) (h : elseBranch ctx s = .ok found s') : ∀ t ∈ found, t.Typed ctx.scope ∧ t.Settled := by
  obtain ⟨word, s₁, hword, h⟩ := EStateM.ok_of_bind h
  have hs₁ := (typed_accept hr hs hword).1
  cases word with
  | some _ =>
    obtain ⟨tree, s₂, htree, h⟩ := EStateM.ok_of_bind h
    cases h
    simpa using (typed_expectStatement hr hs₁ (by simp) htree).2
  | none =>
    obtain ⟨_, s₂, -, h⟩ := EStateM.ok_of_bind h
    cases h
    simp

theorem typed_ifStatement (hr : ctx.rules.Typed ctx.scope) {cursor behind : Cursor} {t : Stmt}
    (h : ifStatement ctx cursor = .ok (t, behind)) : t.Typed ctx.scope ∧ t.Settled := by
  obtain ⟨_, h, -⟩ := run_eq_ok h
  obtain ⟨_, s₁, hword, h⟩ := EStateM.ok_of_bind h
  have hs₁ := typed_expect hr (TokenStream.typed_ofCursor _ _) hword
  obtain ⟨_, s₂, hpar, h⟩ := EStateM.ok_of_bind h
  have hs₂ := typed_expect hr hs₁ hpar
  obtain ⟨⟨condition, position⟩, s₃, hread, h⟩ := EStateM.ok_of_bind h
  obtain ⟨hs₃, hcond⟩ := typed_expectExpression hr hs₂ hread
  obtain ⟨_, s₄, hpar, h⟩ := EStateM.ok_of_bind h
  have hs₄ := typed_expect hr hs₃ hpar
  obtain ⟨thenBranch, s₅, hthen, h⟩ := EStateM.ok_of_bind h
  obtain ⟨hs₅, hthen⟩ := typed_expectStatement hr hs₄ (by simp) hthen
  obtain ⟨found, s₆, helse, h⟩ := EStateM.ok_of_bind h
  have helse := typed_elseBranch hr hs₅ helse
  obtain ⟨hty, rfl⟩ := Stmt.mkBranch_eq_ok.mp (locate_eq_ok h).1
  exact ⟨.branch hty hcond hthen.1 fun t ht => (helse t ht).1, .branch hthen.2 fun t ht => (helse t ht).2⟩

theorem typed_statement (hr : ctx.rules.Typed ctx.scope) {cursor behind : Cursor} {t : Stmt}
    (h : statement ctx cursor = .ok (t, behind)) : t.Typed ctx.scope ∧ t.Settled := by
  obtain ⟨_, h, -⟩ := run_eq_ok h
  exact (typed_expectStatement hr (TokenStream.typed_ofCursor _ _) (by decide) h).2

end Reader

/-! ### Rules and programs -/

namespace Rule

theorem wrap_eq_ok {α : Type} {make : α → Payload} {r : Except Stop (α × Cursor)} {payload : Payload} {behind : Cursor}
    (h : wrap make r = .ok (payload, behind)) : ∃ tree, r = .ok (tree, behind) ∧ payload = make tree := by
  cases r with
  | error reason => cases h
  | ok result =>
    cases h
    exact ⟨_, rfl, rfl⟩

theorem typed_stmt {kind : TokenKind} {t : Stmt} (h : t.Typed scope ∧ t.Settled) :
    (Payload.stmt t).Typed scope kind where
  expr _ he := by cases he
  stmt _ hs _ := by
    cases hs
    exact h

theorem typed_body (ctx : Context) (hr : ctx.rules.Typed ctx.scope) {rule : Rule} {cursor behind : Cursor}
    {payload : Payload} (h : rule.body ctx cursor = .ok (payload, behind)) : payload.Typed ctx.scope rule.kind := by
  cases rule with
  | expression =>
    obtain ⟨e, hread, rfl⟩ := wrap_eq_ok h
    refine ⟨fun e' he => ?_, fun _ hs => (by cases hs)⟩
    cases he
    exact Reader.typed_expression hr hread
  | declaration =>
    obtain ⟨t, -, rfl⟩ := wrap_eq_ok h
    exact ⟨fun _ he => (by cases he), fun _ _ hk => absurd rfl hk⟩
  | statement =>
    obtain ⟨t, hread, rfl⟩ := wrap_eq_ok h
    exact typed_stmt (Reader.typed_statement hr hread)
  | assignment =>
    obtain ⟨t, hread, rfl⟩ := wrap_eq_ok h
    exact typed_stmt (Reader.typed_assignment hr hread)
  | returnStatement =>
    obtain ⟨t, hread, rfl⟩ := wrap_eq_ok h
    exact typed_stmt (Reader.typed_returnStatement hr hread)
  | ifStatement =>
    obtain ⟨t, hread, rfl⟩ := wrap_eq_ok h
    exact typed_stmt (Reader.typed_ifStatement hr hread)
  | blockStatement =>
    obtain ⟨t, hread, rfl⟩ := wrap_eq_ok h
    exact typed_stmt (Reader.typed_blockStatement hr hread)

theorem typed_readWithin : ∀ depth, (readWithin scope depth).Typed scope
  | 0 => fun _ _ _ _ h => by cases h
  | depth + 1 => fun rule cursor _ _ h =>
    typed_body ⟨scope, readWithin scope depth⟩ (typed_readWithin depth) h

theorem typed_read : (read scope).Typed scope := fun rule cursor _ _ h => typed_readWithin _ rule cursor _ _ h

end Rule

namespace Reader

theorem typed_programBody (ctx : Context) (hr : ctx.rules.Typed ctx.scope) : ∀ {n : Nat}
    {s s' : TokenStream Grammar.ProgramState} {body : List Stmt}, programBody ctx n s = .ok body s' →
      ∀ t ∈ body, t.Typed ctx.scope ∧ t.Settled
  | 0, _, _, _, h => by cases h
  | n + 1, s, s', body, h => by
    obtain ⟨ended, s₁, hend, h⟩ := EStateM.ok_of_bind h
    split at h
    · cases h
      simp
    · have hs₁ : s₁.Typed ctx.scope := by
        cases hend
        exact fun _ hl => by cases hl
      obtain ⟨first, s₂, hfirst, h⟩ := EStateM.ok_of_bind h
      have hfirst := (typed_expectStatement hr hs₁ (by simp) hfirst).2
      obtain ⟨rest, s₃, hrest, h⟩ := EStateM.ok_of_bind h
      cases h
      exact List.forall_mem_cons.mpr ⟨hfirst, typed_programBody ctx hr hrest⟩

end Reader

namespace Program

/-- A text is read as declared names and, in the scope extended by them, statements of which one
    returns. -/
theorem read_eq_ok {scope scope' : Scope} {text : String} {p : Program} (h : read scope text = .ok (p, scope')) :
    scope' = scope.declareAll p.locals ∧ Stmt.anyReturns p.body ∧
      ∃ (n : Nat) (s s' : TokenStream Grammar.ProgramState),
        Reader.programBody scope'.context n s = .ok p.body s' := by
  obtain ⟨⟨names, cursor⟩, -, h⟩ := Except.ok_of_bind h
  obtain ⟨⟨body, behind⟩, hbody, h⟩ := Except.ok_of_bind h
  dsimp only at h
  split at h
  next hret =>
    cases h
    obtain ⟨s', hbody, -⟩ := Reader.run_eq_ok hbody
    obtain ⟨_, s, -, hbody⟩ := EStateM.ok_of_bind hbody
    exact ⟨rfl, hret, _, s, s', hbody⟩
  next => cases h

/-- Every program that is read is typed, and its branches are settled. -/
theorem typed_of_read {scope scope' : Scope} {text : String} {p : Program}
    (h : read scope text = .ok (p, scope')) : p.Typed scope' ∧ p.Settled := by
  obtain ⟨-, -, n, s, s', hbody⟩ := read_eq_ok h
  have hall := Reader.typed_programBody scope'.context Rule.typed_read hbody
  exact ⟨fun t ht => (hall t ht).1, fun t ht => (hall t ht).2⟩

end Program
end HostScript
