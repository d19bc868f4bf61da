import HostScript.Proofs.Reader.Derivations
import HostScript.Proofs.Reader.Proceeding

/-! What a read can fail with.

A rule that fails names a token or a statement that does not come, or a name or a type that is wrong, and
each with a position in the text. A token that is found carries what its kind promises (`Payload.fits`),
and wherever a token is expected the state has a form of its kind, so no other error is ever told. What the
errors are is decided by the states alone: `Reports` follows a reader from state to state. -/

namespace HostScript

open TokenStream Reader

/-! ### Errors -/

/-- An error of names or types, found at a position of the text. -/
inductive CompileError.SemanticAt : CompileError → Position → Prop
  | typeMismatch (position : Position) (construct : String) (argument : Option Nat) (expected actual : Ty) :
      SemanticAt (.typeMismatch (.source position) construct argument expected actual) position
  | argumentCount (position : Position) (construct : String) (expected actual : Nat) :
      SemanticAt (.argumentCount (.source position) construct expected actual) position
  | unsupportedIdentifier (position : Position) (name : String) : SemanticAt (.unsupportedIdentifier position name) position
  | unresolvedIdentifier (position : Position) (kind : SymbolKind) (name : String) :
      SemanticAt (.unresolvedIdentifier position kind name) position

/-- An error with which a rule can fail. -/
inductive CompileError.Ordinary : CompileError → Prop
  | token (position : Position) (diagnostic : String) : Ordinary (.unrecognizedToken position diagnostic)
  | statement (position : Position) (diagnostic : String) : Ordinary (.unrecognizedStatement position diagnostic)
  | semantic {cause : CompileError} {position : Position} (found : cause.SemanticAt position) : Ordinary cause

theorem CompileError.SemanticAt.position?_eq {cause : CompileError} {position : Position} (h : cause.SemanticAt position) :
    cause.position? = some position := by
  cases h <;> rfl

/-- An ordinary error that ends the whole read is one of names or types. -/
theorem CompileError.Ordinary.semanticAt {cause : CompileError} (h : cause.Ordinary) (hd : cause.isDefinitive) :
    ∃ position, cause.SemanticAt position := by
  cases h with
  | token | statement => cases hd
  | semantic h => exact ⟨_, h⟩

theorem SemanticError.semanticAt (e : SemanticError) (position : Position) :
    (e.locate (.source position)).SemanticAt position := by
  cases e <;> constructor

theorem Reader.semanticAt_unresolved (name : String) (position : Position) (kind : SymbolKind) :
    (unresolved name position kind).SemanticAt position := by
  unfold unresolved
  split <;> constructor

/-! ### Tokens and what they carry -/

/-- The payload is one that a token of the kind carries. -/
def Payload.fits (kind : TokenKind) (payload : Payload) : Bool :=
  match kind, payload with
  | .literal, payload => payload.constant?.isSome
  | .unaryOperator, payload => payload.unary?.isSome
  | .expression, payload => payload.expr?.isSome
  | .declaration, .stmt (.declare _) => true
  | .declaration, _ => false
  | .assignment, payload | .returnStatement, payload | .ifStatement, payload | .blockStatement, payload
  | .statement, payload => payload.stmt?.isSome
  | _, _ => true

/-- A fixed word is of a kind that carries nothing. -/
def Matcher.fitting : Matcher → Bool
  | terminal (.sign kind _) | terminal (.keyword kind _) => Payload.none.fits kind
  | _ => true

/-- Every fixed word of the grammar is of a kind that carries nothing. -/
def Grammar.Fitting {S : Type} (g : Grammar S) : Prop := ∀ state, (g.matchers state).all Matcher.fitting

theorem Construct.fitting (construct : Construct) : construct.grammar.Fitting := by
  intro state
  cases construct with
  | rule rule => cases rule <;> cases state <;> rfl
  | program => cases state <;> rfl

theorem Terminal.fits_of_read {form : Terminal} (hf : (Matcher.terminal form).fitting) {text : List Char} {payload : Payload}
    (h : form.read text = .ok payload) : payload.fits form.kind := by
  cases form with
  | sign | keyword =>
    cases h
    exact hf
  | name | boolean | unary | binary =>
    cases h
    rfl
  | reference | integer =>
    simp only [read] at h
    split at h <;> cases h
    rfl

theorem Rule.Derives.fits {scope : Scope} {rule : Rule} {payload : Payload} {p q : Place}
    (h : rule.Derives scope payload p q) : payload.fits rule.kind := by
  cases rule with
  | expression =>
    obtain ⟨_, _, rfl, -⟩ := h
    rfl
  | declaration =>
    obtain ⟨_, rfl, -⟩ := h
    rfl
  | _ =>
    obtain ⟨_, rfl, -⟩ := h
    rfl

/-- What is found carries what its kind promises. -/
theorem TokenStream.Finds.fits {S : Type} [DecidableEq S] {scope : Scope} {rules : RuleReader} {g : Grammar S} {state : S}
    {p q : Place} {token : Token} (hg : g.Fitting) (hr : rules.Derives scope) (h : Finds rules g state p (some (token, q))) :
    token.payload.fits token.kind := by
  obtain ⟨form, hmem, -, ha⟩ := h.form
  cases form with
  | terminal form =>
    obtain ⟨w, payload, -, hread, rfl, -⟩ := Terminal.attempt_eq_token ha
    exact Terminal.fits_of_read (List.all_eq_true.mp (hg state) _ hmem) hread
  | rule form =>
    obtain ⟨payload, inner, text, q', hread, -, rfl, -⟩ := Rule.attempt_eq_token ha
    obtain ⟨r, -, hderives⟩ := hr form _ _ _ hread
    exact hderives.fits

/-! ### Errors of moves -/

/-- A form ends the whole read only if it is a rule that found a definitive error. -/
theorem Matcher.attempt_eq_stop {form : Matcher} {rules : RuleReader} {p start : Place} {cause : CompileError}
    (h : form.attempt rules ⟨p, start⟩ = .stop (.error cause)) :
    ∃ rule, form = .rule rule ∧ rules rule (.ofPlace start) = .error (.error cause) ∧ cause.isDefinitive := by
  cases form with
  | terminal form =>
    simp only [attempt, Terminal.attempt] at h
    split at h
    · cases h
    · split at h <;> cases h
  | rule rule =>
    simp only [attempt, Rule.attempt, show Cursor.fork ⟨p, start⟩ = .ofPlace start from rfl] at h
    split at h
    · split at h <;> cases h
    next cause' hread =>
      split at h
      next hdefinitive =>
        cases h
        exact ⟨rule, rfl, hread, hdefinitive⟩
      next => cases h
    next hne _ =>
      cases h
      exact absurd rfl (hne cause)

namespace Reader

variable {S : Type} [DecidableEq S] {ctx : Context} {g : Grammar S} {state next : S} {p : Place} {s s' : TokenStream S}
  {kinds : List TokenKind} {cause : CompileError}

theorem peek_eq_failed (hs : Stands ctx.rules g state p s) (h : peek ctx s = .error (.error cause) s') :
    ∃ rule, .rule rule ∈ g.matchers state ∧ ctx.rules rule (.ofPlace p.skip) = .error (.error cause) ∧
      cause.isDefinitive := by
  have hpeeked := peek_fresh ctx.rules g state p
  rw [← hs.peek] at hpeeked
  unfold peek at h
  generalize s.peek ctx.rules = outcome at hpeeked h
  cases hpeeked with
  | stopped | nothing | found => cases h
  | failed failures mem attempt =>
    cases h
    obtain ⟨rule, rfl, hread, hdefinitive⟩ := Matcher.attempt_eq_stop attempt
    exact ⟨rule, mem, hread, hdefinitive⟩

theorem test_eq_failed (hs : Stands ctx.rules g state p s) (h : test ctx kinds s = .error (.error cause) s') :
    ∃ rule, .rule rule ∈ g.matchers state ∧ ctx.rules rule (.ofPlace p.skip) = .error (.error cause) ∧
      cause.isDefinitive := by
  rcases EStateM.error_of_bind h with hpeek | ⟨found, s₁, -, h⟩
  · exact peek_eq_failed hs hpeek
  · cases found <;> cases h

theorem accept_eq_failed (hs : Stands ctx.rules g state p s) (h : accept ctx kinds next s = .error (.error cause) s') :
    ∃ rule, .rule rule ∈ g.matchers state ∧ ctx.rules rule (.ofPlace p.skip) = .error (.error cause) ∧
      cause.isDefinitive := by
  rcases EStateM.error_of_bind h with htest | ⟨b, s₁, -, h⟩
  · exact test_eq_failed hs htest
  · cases b <;> cases h

end Reader

/-! ### Readers -/

/-- The rules give what their kinds promise, or fail with an ordinary error. -/
structure Context.Regular (ctx : Context) : Prop where
  derives : ctx.rules.Derives ctx.scope
  ordinary : ∀ rule p cause, ctx.rules rule (.ofPlace p) = .error (.error cause) → cause.Ordinary

namespace Reader

section
variable {S : Type} [DecidableEq S] {α β : Type} {ctx : Context} {g : Grammar S} {state next : S} {p : Place}
  {kinds : List TokenKind} {x : Reader S α} {post : α → S → Place → Prop}

/-- From where the stream stands the reader gives a result, of which `post` holds with the state and the
    place reached, or fails with an ordinary error. -/
structure Reports (ctx : Context) (g : Grammar S) (x : Reader S α) (state : S) (p : Place)
    (post : α → S → Place → Prop) : Prop where
  ok : ∀ {s s' : TokenStream S} {a : α}, Stands ctx.rules g state p s → x s = .ok a s' →
    ∃ state' q, Stands ctx.rules g state' q s' ∧ post a state' q
  error : ∀ {s s' : TokenStream S} {cause : CompileError}, Stands ctx.rules g state p s →
    x s = .error (.error cause) s' → cause.Ordinary

namespace Reports

theorem pure {a : α} (h : post a state p) : Reports ctx g (Pure.pure a) state p post where
  ok hs hx := by
    cases hx
    exact ⟨state, p, hs, h⟩
  error _ hx := by cases hx

theorem exhausted : Reports ctx g (throw .exhausted : Reader S α) state p post where
  ok _ hx := by cases hx
  error _ hx := by cases hx

theorem fail {cause : CompileError} (h : cause.Ordinary) : Reports ctx g (Reader.fail cause : Reader S α) state p post where
  ok _ hx := by cases hx
  error _ hx := by
    cases hx
    exact h

theorem bind {f : α → Reader S β} {mid : α → S → Place → Prop} {post : β → S → Place → Prop}
    (hx : Reports ctx g x state p mid) (hf : ∀ a state₁ q, mid a state₁ q → Reports ctx g (f a) state₁ q post) :
    Reports ctx g (x >>= f) state p post where
  ok hs h := by
    obtain ⟨a, s₁, ha, hfa⟩ := EStateM.ok_of_bind h
    obtain ⟨state₁, q, hs₁, hmid⟩ := hx.ok hs ha
    exact (hf a state₁ q hmid).ok hs₁ hfa
  error hs h := by
    rcases EStateM.error_of_bind h with ha | ⟨a, s₁, ha, hfa⟩
    · exact hx.error hs ha
    · obtain ⟨state₁, q, hs₁, hmid⟩ := hx.ok hs ha
      exact (hf a state₁ q hmid).error hs₁ hfa

/-- The stream stands in a state that is known. -/
def In (next : S) (_ : α) (state : S) (_ : Place) : Prop := state = next

theorem in_bind {f : α → Reader S β} {post : β → S → Place → Prop} (hx : Reports ctx g x state p (In next))
    (hf : ∀ a q, Reports ctx g (f a) next q post) : Reports ctx g (x >>= f) state p post := by
  refine .bind hx fun a state₁ q hstate => ?_
  cases hstate
  exact hf a q

theorem locate {r : Except SemanticError α} {position : Position} :
    Reports ctx g (Reader.locate position r) state p (In state) := by
  cases r with
  | ok a => exact .pure rfl
  | error e => exact .fail (.semantic (e.semanticAt position))

theorem setState_bind {f : Unit → Reader S α} (hf : Reports ctx g (f ()) next p post) :
    Reports ctx g (Reader.setState next >>= f) state p post where
  ok hs h := by
    obtain ⟨_, s₁, hset, hfa⟩ := EStateM.ok_of_bind h
    exact hf.ok ((Reads.setState next).eq hs hset).2 hfa
  error hs h := by
    rcases EStateM.error_of_bind h with hset | ⟨_, s₁, hset, hfa⟩
    · cases hset
    · exact hf.error ((Reads.setState next).eq hs hset).2 hfa

theorem resolveVariable {name : Token} : Reports ctx g (Reader.resolveVariable ctx name) state p (In state) := by
  unfold Reader.resolveVariable Scope.resolveVariable
  cases ctx.scope.variableNamed? name.text with
  | none => exact .fail (.semantic (semanticAt_unresolved ..))
  | some target => exact .pure rfl

theorem resolveFunction {name : Token} : Reports ctx g (Reader.resolveFunction ctx name) state p (In state) := by
  unfold Reader.resolveFunction Scope.resolveFunction
  cases ctx.scope.functionNamed? name.text with
  | none => exact .fail (.semantic (semanticAt_unresolved ..))
  | some function => exact .pure rfl

/-- The stream tells what is wrong as it stands. -/
theorem told {error : TokenStream S → CompileError} (h : ∀ s, Stands ctx.rules g state p s → (error s).Ordinary) :
    Reports ctx g (do Reader.fail (error (← get)) : Reader S α) state p post where
  ok _ hx := by cases hx
  error hs hx := by
    cases hx
    exact h _ hs

/-- A rule whose reader ends in a state that is known. -/
theorem ordinary_of_run {make : α → Payload} (next : S) (h : Reports ctx g x g.start p (In next)) {cause : CompileError}
    (hrun : Rule.wrap make (x.run g (.ofPlace p)) = .error (.error cause)) : cause.Ordinary := by
  unfold Reader.run at hrun
  split at hrun
  next => cases hrun
  next hx =>
    cases hrun
    exact h.error (stands_fresh ctx.rules g g.start p) hx

/-- What is known of a token that was found at a place and consumed. -/
structure Found (ctx : Context) (g : Grammar S) (state : S) (p : Place) (kinds : List TokenKind) (next : S) (token : Token)
    (state' : S) (q : Place) : Prop where
  state_eq : state' = next
  kind : token.kind ∈ kinds
  fits : token.payload.fits token.kind
  finds : Finds ctx.rules g state p (some (token, q))

variable (hctx : ctx.Regular) (hg : g.Fitting)
include hctx

theorem peek : Reports ctx g (Reader.peek ctx) state p (In state) where
  ok hs h := by
    obtain ⟨-, -, -, hs'⟩ := hs.finds (peek_eq_ok h)
    exact ⟨state, p, hs', rfl⟩
  error hs h := by
    obtain ⟨rule, -, hread, -⟩ := peek_eq_failed hs h
    exact hctx.ordinary rule _ _ hread

theorem test : Reports ctx g (Reader.test ctx kinds) state p (In state) := by
  refine .in_bind (.peek hctx) fun found q => ?_
  cases found <;> exact .pure rfl

include hg

/-- What follows an optional token: the token, or what is found there is of none of the kinds. -/
theorem accept_bind {f : Option Token → Reader S α}
    (hsome : ∀ token q, Found ctx g state p kinds next token next q → Reports ctx g (f (some token)) next q post)
    (hnone : (∀ token q, Finds ctx.rules g state p (some (token, q)) → token.kind ∉ kinds) →
      Reports ctx g (f none) state p post) :
    Reports ctx g (Reader.accept ctx kinds next >>= f) state p post where
  ok hs h := by
    obtain ⟨found, s₁, ha, hf⟩ := EStateM.ok_of_bind h
    rcases accept_cases hs ha with ⟨token, q, rfl, hk, hfinds, rfl⟩ | ⟨rfl, hs₁, hno⟩
    · exact (hsome token q ⟨rfl, hk, hfinds.fits hg hctx.derives, hfinds⟩).ok (stands_fresh ..) hf
    · exact (hnone hno).ok hs₁ hf
  error hs h := by
    rcases EStateM.error_of_bind h with ha | ⟨found, s₁, ha, hf⟩
    · obtain ⟨rule, -, hread, -⟩ := accept_eq_failed hs ha
      exact hctx.ordinary rule _ _ hread
    rcases accept_cases hs ha with ⟨token, q, rfl, hk, hfinds, rfl⟩ | ⟨rfl, hs₁, hno⟩
    · exact (hsome token q ⟨rfl, hk, hfinds.fits hg hctx.derives, hfinds⟩).error (stands_fresh ..) hf
    · exact (hnone hno).error hs₁ hf

/-- A token for which the state has a form. -/
theorem expect (hany : (g.matchers state).any (kinds.contains ·.kind)) :
    Reports ctx g (Reader.expect ctx kinds next) state p (Found ctx g state p kinds next) := by
  refine .accept_bind hctx hg (fun token q found => .pure found) fun _ => .told fun s hs => ?_
  simp only [TokenStream.error, hs.grammar_eq, hs.state_eq, if_pos hany]
  exact .token _ _

theorem expect_bind {f : Token → Reader S α} (hany : (g.matchers state).any (kinds.contains ·.kind))
    (hf : ∀ token q, Found ctx g state p kinds next token next q → Reports ctx g (f token) next q post) :
    Reports ctx g (Reader.expect ctx kinds next >>= f) state p post := by
  refine .bind (.expect hctx hg hany) fun token state₁ q found => ?_
  cases found.state_eq
  exact hf token q found

theorem expectExpression_bind {f : Expr × Position → Reader S α}
    (hany : (g.matchers state).any ([TokenKind.expression].contains ·.kind))
    (hf : ∀ a q, Reports ctx g (f a) next q post) : Reports ctx g (Reader.expectExpression ctx next >>= f) state p post := by
  refine .in_bind (.expect_bind hctx hg hany fun token q found => ?_) hf
  have hfits := found.fits
  rw [List.mem_singleton.mp found.kind] at hfits
  obtain ⟨tree, htree⟩ := Option.isSome_iff_exists.mp hfits
  rw [htree]
  exact .pure rfl

theorem expectStatement (hkinds : ∀ kind ∈ kinds, ∀ payload : Payload, payload.fits kind → payload.stmt?.isSome) :
    Reports ctx g (Reader.expectStatement ctx kinds next) state p (In next) := by
  refine .accept_bind hctx hg (fun token q found => ?_) fun _ => .told fun s _ => ?_
  · obtain ⟨tree, htree⟩ := Option.isSome_iff_exists.mp (hkinds _ found.kind _ found.fits)
    simp only [htree]
    exact .pure rfl
  · obtain ⟨diagnostic, herror⟩ := s.statementError_eq kinds
    rw [herror]
    exact .statement _ _

end Reports

end

/-! ### Expressions -/

open Grammar (ExprState DeclarationState BlockState IfState)

/-- The readers of expressions go from the state in which an operand is read to the one in which an
    operator is. -/
structure ExpressionsReport (ctx : Context) (n : Nat) : Prop where
  subexpression : ∀ {ceiling : Nat} {p : Place},
    Reports ctx .expression (subexpression ctx n ceiling) .pre p (Reports.In .post)
  operators : ∀ {ceiling : Nat} {left : Expr} {p : Place},
    Reports ctx .expression (operators ctx n ceiling left) .post p (Reports.In .post)
  operand : ∀ {p : Place}, Reports ctx .expression (operand ctx n) .pre p (Reports.In .post)
  callArgs : ∀ {p : Place}, Reports ctx .expression (callArgs ctx n) .post p (Reports.In .post)
  moreArgs : ∀ {p : Place}, Reports ctx .expression (moreArgs ctx n) .pre p (Reports.In .post)

namespace ExpressionsReport

theorem fitting : Grammar.expression.Fitting := Construct.fitting (.rule .expression)

theorem zero {ctx : Context} : ExpressionsReport ctx 0 where
  subexpression := .exhausted
  operators := .exhausted
  operand := .exhausted
  callArgs := .exhausted
  moreArgs := .exhausted

/-- An operator in front carries itself. -/
theorem prefixOp {ctx : Context} {token : Token} {p : Place} (hk : token.kind = .unaryOperator)
    (hfits : token.payload.fits token.kind) :
    Reports ctx .expression (Reader.prefixOp token) .pre p (Reports.In .pre) := by
  rw [hk] at hfits
  obtain ⟨op, hop⟩ := Option.isSome_iff_exists.mp hfits
  unfold Reader.prefixOp
  rw [hop]
  exact .pure rfl

/-- A literal carries its value. -/
theorem constant {ctx : Context} {token : Token} {p : Place} (hk : token.kind = .literal)
    (hfits : token.payload.fits token.kind) :
    Reports ctx .expression (Reader.constant token) .post p (Reports.In .post) := by
  rw [hk] at hfits
  obtain ⟨value, hvalue⟩ := Option.isSome_iff_exists.mp hfits
  unfold Reader.constant
  rw [hvalue]
  exact .pure rfl

variable {ctx : Context} {n ceiling : Nat} {p : Place} (hctx : ctx.Regular) (ih : ExpressionsReport ctx n)
include hctx ih

omit hctx in
theorem subexpression_succ :
    Reports ctx .expression (Reader.subexpression ctx (n + 1) ceiling) .pre p (Reports.In .post) :=
  .in_bind ih.operand fun _ _ => ih.operators

theorem operators_succ {left : Expr} :
    Reports ctx .expression (Reader.operators ctx (n + 1) ceiling left) .post p (Reports.In .post) := by
  have hnext : Reports ctx .expression (nextBinary ctx) .post p (Reports.In .post) := by
    refine .in_bind (.peek hctx) fun found q => ?_
    cases found <;> exact .pure rfl
  refine .in_bind hnext fun op q => ?_
  cases op with
  | none => exact .pure rfl
  | some op =>
    dsimp only
    split
    · exact .pure rfl
    refine .accept_bind hctx fitting (fun token q _ => ?_) fun _ => .pure rfl
    exact .in_bind ih.subexpression fun right q => .in_bind .locate fun tree q => ih.operators

theorem operand_succ : Reports ctx .expression (Reader.operand ctx (n + 1)) .pre p (Reports.In .post) := by
  refine .accept_bind hctx fitting (fun _ q _ => ?_) fun hpar => ?_
  · exact .in_bind ih.subexpression fun inner q => .expect_bind hctx fitting (by decide) fun _ _ _ => .pure rfl
  refine .accept_bind hctx fitting (fun name q _ => ?_) fun hname => ?_
  · refine .accept_bind hctx fitting (fun _ q _ => ?_) fun _ => .setState_bind ?_
    · exact .in_bind ih.callArgs fun args q => .in_bind .resolveFunction fun function q => .locate
    · exact .in_bind .resolveVariable fun target q => .pure rfl
  refine .accept_bind hctx fitting (fun token q found => ?_) fun hsign => ?_
  · refine .in_bind (prefixOp (List.mem_singleton.mp found.kind) found.fits) fun op q => ?_
    exact .in_bind ih.subexpression fun inner q => .locate
  -- the forms before it did not match, so a token that comes now is a literal
  refine .expect_bind hctx fitting (by decide) fun token q found => constant ?_ found.fits
  have hpar := hpar _ _ found.finds
  have hname := hname _ _ found.finds
  have hsign := hsign _ _ found.finds
  have hkind := found.kind
  simp only [List.mem_cons, List.not_mem_nil, or_false] at hpar hname hsign hkind
  rcases hkind with hkind | hkind | hkind | hkind
  · exact absurd hkind hpar
  · exact absurd hkind hname
  · exact absurd hkind hsign
  · exact hkind

theorem callArgs_succ : Reports ctx .expression (Reader.callArgs ctx (n + 1)) .post p (Reports.In .post) :=
  .accept_bind hctx fitting (fun _ _ _ => .pure rfl) fun _ => .setState_bind ih.moreArgs

theorem moreArgs_succ : Reports ctx .expression (Reader.moreArgs ctx (n + 1)) .pre p (Reports.In .post) := by
  refine .in_bind ih.subexpression fun arg q => .accept_bind hctx fitting (fun _ _ _ => .pure rfl) fun _ => ?_
  exact .expect_bind hctx fitting (by decide) fun _ q _ => .in_bind ih.moreArgs fun args q => .pure rfl

omit ih in
theorem all : ∀ n, ExpressionsReport ctx n
  | 0 => .zero
  | n + 1 =>
    have ih := all n
    ⟨ih.subexpression_succ, operators_succ hctx ih, operand_succ hctx ih, callArgs_succ hctx ih, moreArgs_succ hctx ih⟩

end ExpressionsReport

/-! ### Statements -/

variable {ctx : Context} (hctx : ctx.Regular)
include hctx

theorem reports_declaredNames : ∀ {n : Nat} {known : List String} {p : Place},
    Reports ctx .declaration (declaredNames ctx n known) .pre p (Reports.In .done)
  | 0, _, _ => .exhausted
  | n + 1, known, p => by
    have hg : Grammar.declaration.Fitting := Construct.fitting (.rule .declaration)
    refine .expect_bind hctx hg (by decide) fun name q _ => ?_
    split
    · exact .fail (.semantic (.unsupportedIdentifier ..))
    refine .accept_bind hctx hg (fun _ _ _ => .pure rfl) fun _ => ?_
    exact .expect_bind hctx hg (by decide) fun _ _ _ => reports_declaredNames

theorem reports_statement {S : Type} [DecidableEq S] {g : Grammar S} (hg : g.Fitting) {state next : S} {p : Place} :
    Reports ctx g (expectStatement ctx [.statement] next) state p (Reports.In next) :=
  .expectStatement hctx hg fun _ hkind _ hfits => by
    cases List.mem_singleton.mp hkind
    exact hfits

theorem reports_blockBody : ∀ {n : Nat} {p : Place},
    Reports ctx .blockStatement (blockBody ctx n) .inBlock p (Reports.In .done)
  | 0, _ => .exhausted
  | n + 1, p => by
    have hg : Grammar.blockStatement.Fitting := Construct.fitting (.rule .blockStatement)
    refine .in_bind (.test hctx) fun closes q => ?_
    cases closes with
    | true => exact .expect_bind hctx hg (by decide) fun _ _ _ => .pure rfl
    | false => exact .in_bind (reports_statement hctx hg) fun first q => .in_bind reports_blockBody fun _ _ => .pure rfl

theorem reports_elseBranch {p : Place} : Reports ctx .ifStatement (elseBranch ctx) .postBlock p (Reports.In .done) := by
  have hg : Grammar.ifStatement.Fitting := Construct.fitting (.rule .ifStatement)
  refine .accept_bind hctx hg (fun _ q _ => ?_) fun _ => .setState_bind (.pure rfl)
  exact .in_bind (reports_statement hctx hg) fun _ _ => .pure rfl

end Reader

/-! ### Rules -/

namespace Rule

open Reader

theorem ordinary_body {ctx : Context} (hctx : ctx.Regular) (rule : Rule) (p : Place) {cause : CompileError}
    (h : rule.body ctx (.ofPlace p) = .error (.error cause)) : cause.Ordinary := by
  have hg := Construct.fitting (.rule rule)
  cases rule with
  | expression => exact Reports.ordinary_of_run .post (ExpressionsReport.all hctx _).subexpression h
  | declaration =>
    refine Reports.ordinary_of_run .done (.expect_bind hctx hg (by decide) fun _ q _ => ?_) h
    exact .in_bind (reports_declaredNames hctx) fun _ _ => .pure rfl
  | assignment =>
    refine Reports.ordinary_of_run .done (.expect_bind hctx hg (by decide) fun name q _ => ?_) h
    refine .expect_bind hctx hg (by decide) fun _ q _ => .in_bind .resolveVariable fun target q => ?_
    refine .expectExpression_bind hctx hg (by decide) fun value q => ?_
    exact .expect_bind hctx hg (by decide) fun _ q _ => .locate
  | returnStatement =>
    refine Reports.ordinary_of_run .done (.expect_bind hctx hg (by decide) fun _ q _ => ?_) h
    refine .expectExpression_bind hctx hg (by decide) fun value q => ?_
    exact .expect_bind hctx hg (by decide) fun _ q _ => .locate
  | ifStatement =>
    refine Reports.ordinary_of_run .done (.expect_bind hctx hg (by decide) fun _ q _ => ?_) h
    refine .expect_bind hctx hg (by decide) fun _ q _ => .expectExpression_bind hctx hg (by decide) fun condition q => ?_
    refine .expect_bind hctx hg (by decide) fun _ q _ => .in_bind (reports_statement hctx hg) fun thenBranch q => ?_
    exact .in_bind (reports_elseBranch hctx) fun elseBranch q => .locate
  | blockStatement =>
    refine Reports.ordinary_of_run .done (.accept_bind hctx hg (fun _ q _ => ?_) fun _ => ?_) h
    · exact .in_bind (reports_blockBody hctx) fun _ _ => .pure rfl
    refine .accept_bind hctx hg (fun _ _ _ => .pure rfl) fun _ => ?_
    refine .expectExpression_bind hctx hg (by decide) fun value q => ?_
    exact .expect_bind hctx hg (by decide) fun _ _ _ => .pure rfl
  | statement =>
    have hforms : Reports ctx Grammar.statement (expectStatement ctx statementForms .done) .begin p (Reports.In .done) := by
      refine .expectStatement hctx hg fun kind hkind payload hfits => ?_
      simp only [statementForms, List.mem_cons, List.not_mem_nil, or_false] at hkind
      rcases hkind with rfl | rfl | rfl | rfl <;> exact hfits
    exact Reports.ordinary_of_run .done hforms h

theorem regular_readWithin (scope : Scope) : ∀ depth, Context.Regular ⟨scope, readWithin scope depth⟩
  | 0 => ⟨derives_readWithin 0, fun _ _ _ h => by cases h⟩
  | depth + 1 => ⟨derives_readWithin (depth + 1), fun rule p _ h => ordinary_body (regular_readWithin scope depth) rule p h⟩

/-- A rule fails with no other error, wherever it is read. -/
theorem regular_context (scope : Scope) : scope.context.Regular :=
  ⟨derives_read, fun rule p _ h => (regular_readWithin scope _).ordinary rule p _ h⟩

end Rule
end HostScript
