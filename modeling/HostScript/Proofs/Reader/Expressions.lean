import HostScript.Proofs.Reader.Phrases
import HostScript.Proofs.Reader.Typed

/-! Every expression that is read is spelled by the text that was read.

A reader of expressions goes from one place to another, and the words between them spell what it gives.
Under a ceiling it stops before an operator that is not below the ceiling, so the left operand of the next
operator is spelled under the ceiling of that operator. Since a spelling is read as its expression, the
text alone is read as the same expression again (`ReadWhole`). -/

namespace HostScript

open Grammar (ExprState)
open TokenStream Reader

/-! ### Trees and their parts -/

namespace Expr

variable {c : Nat} {e left right : Expr}

theorem eq_of_mkUnary {op : UnaryOp} (h : mkUnary op left = .ok e) : e = .unary op left := by
  obtain ⟨_, -, he⟩ := Except.ok_of_bind h
  cases he
  rfl

theorem eq_of_mkBinary {op : BinaryOp} (h : mkBinary op left right = .ok e) : e = binary op left right := by
  obtain ⟨_, -, h⟩ := Except.ok_of_bind h
  obtain ⟨_, -, he⟩ := Except.ok_of_bind h
  cases op <;> cases he <;> rfl

theorem eq_of_mkCall {name : String} {function : FunctionHandle} {type : FunctionType} {args : List Expr}
    (h : mkCall name function type args = .ok e) : e = .call name function type.result args := by
  unfold mkCall at h
  split at h
  · obtain ⟨_, -, he⟩ := Except.ok_of_bind h
    cases he
    rfl
  · cases h

/-- A spelling under a ceiling is one under every higher ceiling. -/
theorem Spelled.mono {c' : Nat} {ws : List String} (h : e.Spelled c ws) (hc : c ≤ c') : e.Spelled c' ws := by
  cases h with
  | number number small => exact .number number small
  | boolean b => exact .boolean b
  | var named free => exact .var named free
  | unary op inner => exact .unary op inner
  | binary op below first second => exact .binary op (Nat.lt_of_lt_of_le below hc) first second
  | call named free spelled => exact .call named free spelled
  | parenthesised inner => exact .parenthesised inner

/-- The words that are passed from one place to another spell the expression. -/
def Covers (rules : RuleReader) (e : Expr) (c : Nat) (p q : Place) : Prop :=
  ∃ ws, Passes rules Grammar.expression p ws q ∧ e.Spelled c ws

variable {rules : RuleReader} {p q q₁ q₂ : Place}

theorem Covers.reaches (h : e.Covers rules c p q) : p.Reaches q := by
  obtain ⟨ws, hws, -⟩ := h
  exact hws.reaches

theorem Covers.mono {c' : Nat} (h : e.Covers rules c p q) (hc : c ≤ c') : e.Covers rules c' p q := by
  obtain ⟨ws, hws, hspelled⟩ := h
  exact ⟨ws, hws, hspelled.mono hc⟩

theorem Covers.unary {op : UnaryOp} (hop : Passes rules Grammar.expression p [op.symbol] q₁) (inner : e.Covers rules 0 q₁ q) :
    (Expr.unary op e).Covers rules c p q := by
  obtain ⟨ws, hws, hspelled⟩ := inner
  exact ⟨_, hop.sign_append hws op.isSign_symbol, .unary op hspelled⟩

theorem Covers.binary {op : BinaryOp} (below : op.priority < c) (first : left.Covers rules (op.priority + 1) p q₁)
    (hop : Passes rules Grammar.expression q₁ [op.symbol] q₂) (second : right.Covers rules op.priority q₂ q) :
    (Expr.binary op left right).Covers rules c p q := by
  have hsign := op.isSign_symbol
  obtain ⟨ls, hls, hleft⟩ := first
  obtain ⟨rs, hrs, hright⟩ := second
  exact ⟨_, hls.append_sign (hop.sign_append hrs hsign) hsign, .binary op below hleft hright⟩

theorem Covers.parenthesised (hopen : Passes rules Grammar.expression p ["("] q₁)
    (inner : e.Covers rules BinaryOp.loosest q₁ q₂) (hclose : Passes rules Grammar.expression q₂ [")"] q) :
    e.Covers rules c p q := by
  obtain ⟨ws, hws, hspelled⟩ := inner
  exact ⟨_, hopen.sign_append (hws.append_sign hclose (by decide)) (by decide), .parenthesised hspelled⟩

/-- The words that are passed spell the arguments of a call and the parenthesis behind them. -/
def CoversArgs (rules : RuleReader) (es : List Expr) (p q : Place) : Prop :=
  ∃ args : List (Expr × List String), es = args.map Prod.fst ∧
    Passes rules Grammar.expression p ([","].intercalate (args.map Prod.snd) ++ [")"]) q ∧
    ∀ arg ∈ args, arg.1.Spelled BinaryOp.loosest arg.2

theorem CoversArgs.last (harg : e.Covers rules BinaryOp.loosest p q₁)
    (hclose : Passes rules Grammar.expression q₁ [")"] q) : CoversArgs rules [e] p q := by
  obtain ⟨ws, hws, hspelled⟩ := harg
  refine ⟨[(e, ws)], rfl, ?_, List.forall_mem_singleton.mpr hspelled⟩
  rw [List.map_singleton, List.intercalate_singleton]
  exact hws.append_sign hclose (by decide)

theorem CoversArgs.cons {es : List Expr} (harg : e.Covers rules BinaryOp.loosest p q₁)
    (hcomma : Passes rules Grammar.expression q₁ [","] q₂) (hargs : CoversArgs rules es q₂ q) (hes : es ≠ []) :
    CoversArgs rules (e :: es) p q := by
  obtain ⟨ws, hws, hspelled⟩ := harg
  obtain ⟨args, rfl, hmore, hall⟩ := hargs
  refine ⟨(e, ws) :: args, rfl, ?_, List.forall_mem_cons.mpr ⟨hspelled, hall⟩⟩
  obtain ⟨arg, args, rfl⟩ := List.exists_cons_of_ne_nil (mt (congrArg (List.map Prod.fst)) hes)
  rw [List.map_cons, List.map_cons, List.intercalate_cons_cons, List.append_assoc, List.append_assoc]
  exact hws.append_sign (hcomma.sign_append hmore (by decide)) (by decide)

theorem Covers.call {name : String} {function : FunctionHandle} {returns : Ty} {args : List Expr} (named : isName name)
    (free : isKeyword name = false) (hname : Passes rules Grammar.expression p [name] q₁)
    (hopen : Passes rules Grammar.expression q₁ ["("] q₂) (hargs : CoversArgs rules args q₂ q) :
    (Expr.call name function returns args).Covers rules c p q := by
  obtain ⟨args, rfl, hmore, hall⟩ := hargs
  exact ⟨_, hname.append_sign (hopen.sign_append hmore (by decide)) (by decide), .call named free hall⟩

end Expr

/-! ### Words of an expression -/

namespace Terminal

variable {form : Terminal} {q : Place} {w : List Char} {token : Token}

/-- A word that stands for a value is a literal. -/
theorem Consumes.constant (h : form.Consumes w token q) {value : Value} (hp : token.payload = .constant value)
    {c : Nat} : (Expr.const value).Spelled c [token.text] := by
  obtain ⟨matched, read, text⟩ := h
  rw [hp] at read
  rw [text]
  cases form with
  | integer =>
    simp only [Terminal.read] at read
    split at read
    next small =>
      cases read
      have hnumber := Pattern.isNumber_of_match? matched
      have hspelled : Expr.Spelled c (.const (.integer (.ofNat (Decimal.value (String.ofList w).toList))))
          [String.ofList w] := .number hnumber (by rwa [String.toList_ofList])
      rwa [String.toList_ofList] at hspelled
    next => cases read
  | boolean b =>
    cases read
    obtain ⟨rfl, -⟩ := Pattern.eq_of_match?_keyword matched
    rw [String.ofList_toList]
    exact .boolean b
  | reference =>
    simp only [Terminal.read] at read
    split at read <;> cases read
  | _ => cases read

theorem Consumes.unary (h : form.Consumes w token q) {op : UnaryOp} (hp : token.payload = .unary op) :
    token.text = op.symbol := by
  obtain ⟨matched, read, text⟩ := h
  rw [hp] at read
  cases form with
  | unary op =>
    cases read
    rw [text, Pattern.eq_of_match?_sign matched, String.ofList_toList]
  | reference | integer =>
    simp only [Terminal.read] at read
    split at read <;> cases read
  | _ => cases read

theorem Consumes.binary (h : form.Consumes w token q) {op : BinaryOp} (hp : token.payload = .binary op) :
    token.text = op.symbol := by
  obtain ⟨matched, read, text⟩ := h
  rw [hp] at read
  cases form with
  | binary op =>
    cases read
    rw [text, Pattern.eq_of_match?_sign matched, String.ofList_toList]
  | reference | integer =>
    simp only [Terminal.read] at read
    split at read <;> cases read
  | _ => cases read

theorem Consumes.reference (h : reference.Consumes w token q) : isName token.text ∧ isKeyword token.text = false := by
  obtain ⟨matched, read, text⟩ := h
  have hname := Pattern.isName_of_match? matched
  rw [← text] at hname
  refine ⟨hname, ?_⟩
  rw [text]
  simp only [Terminal.read] at read
  split at read
  next => cases read
  next free => simpa using free

end Terminal

/-! ### Readers -/

variable {ctx : Context}

/-- The operator that is ahead is the one that is consumed. -/
theorem accept_operator {s s' : TokenStream ExprState} {q : Place} {op : BinaryOp} {found : Option Token}
    (hs : Stands ctx.rules Grammar.expression .post q s) (hop : operatorAhead q.rest = some op)
    (h : accept ctx [.binaryOperator] .pre s = .ok found s') :
    ∃ token q', found = some token ∧ Passes ctx.rules Grammar.expression q [op.symbol] q' ∧
      s' = fresh Grammar.expression .pre q' := by
  obtain ⟨⟨kind, w, payload⟩, hahead, hbinary⟩ := Option.bind_eq_some_iff.mp hop
  have hfinds : Finds ctx.rules Grammar.expression .post q _ := finds_text q (by decide) (expression_lexical .post)
  rw [hahead, Option.map_some] at hfinds
  dsimp only at hbinary
  split at hbinary
  next hkind =>
    rcases accept_cases hs h with ⟨token, q', rfl, -, hf, -⟩ | ⟨-, -, hnone⟩
    · obtain ⟨form, w', q₁, hw, hpasses, hs'⟩ := accept_lexical hs h (expression_lexical .post)
      cases hfinds.unique hf
      have htext : String.ofList w = op.symbol := by
        refine hw.binary ?_
        cases payload <;> cases hbinary
        rfl
      exact ⟨_, q₁, rfl, htext ▸ hpasses, hs'⟩
    · exact absurd (by simp [hkind]) (hnone _ _ hfinds)
  next => cases hbinary

/-- What the loop over operators does: it stops before an operator that is not below the ceiling, or goes on
    with the right operand of the next one. -/
theorem operators_eq_ok {n c : Nat} {q : Place} {s s' : TokenStream ExprState} {left e : Expr}
    (hs : Stands ctx.rules Grammar.expression .post q s) (h : operators ctx (n + 1) c left s = .ok e s') :
    (e = left ∧ Stands ctx.rules Grammar.expression .post q s' ∧ ∀ op ∈ operatorAhead q.rest, c ≤ op.priority) ∨
    ∃ op q₁ right s₁, operatorAhead q.rest = some op ∧ op.priority < c ∧
      Passes ctx.rules Grammar.expression q [op.symbol] q₁ ∧
      subexpression ctx n op.priority (fresh Grammar.expression .pre q₁) = .ok right s₁ ∧
      operators ctx n c (.binary op left right) s₁ = .ok e s' := by
  obtain ⟨found, s₁, hop, h⟩ := EStateM.ok_of_bind h
  obtain ⟨rfl, hs₁⟩ := (reads_nextBinary ctx q).eq hs hop
  cases hahead : operatorAhead q.rest with
  | none =>
    rw [hahead] at h
    cases h
    exact .inl ⟨rfl, hs₁, by simp⟩
  | some op =>
    rw [hahead] at h
    dsimp only at h
    split at h
    next hle =>
      cases h
      refine .inl ⟨rfl, hs₁, ?_⟩
      rintro _ ⟨⟩
      exact hle
    next hlt =>
      obtain ⟨found, s₂, ha, h⟩ := EStateM.ok_of_bind h
      obtain ⟨token, q₁, rfl, hsign, rfl⟩ := accept_operator hs₁ hahead ha
      obtain ⟨right, s₃, hread, h⟩ := EStateM.ok_of_bind h
      obtain ⟨tree, s₄, hl, h⟩ := EStateM.ok_of_bind h
      obtain ⟨hmk, rfl⟩ := locate_eq_ok hl
      cases Expr.eq_of_mkBinary hmk
      exact .inr ⟨op, q₁, right, s₄, rfl, Nat.lt_of_not_le hlt, hsign, hread, h⟩

/-- What the readers of expressions give with a budget of `n` steps is spelled by what they read. -/
structure ExpressionsSpelled (ctx : Context) (n : Nat) : Prop where
  subexpression : ∀ {c : Nat} {p : Place} {s s' : TokenStream ExprState} {e : Expr},
    Stands ctx.rules Grammar.expression .pre p s → subexpression ctx n c s = .ok e s' →
      ∃ q, e.Covers ctx.rules c p q ∧ Stands ctx.rules Grammar.expression .post q s' ∧
        ∀ op ∈ operatorAhead q.rest, c ≤ op.priority
  operators : ∀ {m c : Nat} {p q : Place} {s s' : TokenStream ExprState} {left e : Expr}, left.Covers ctx.rules m p q → m ≤ c →
    (∀ op ∈ operatorAhead q.rest, m ≤ op.priority + 1) → Stands ctx.rules Grammar.expression .post q s →
      operators ctx n c left s = .ok e s' →
        ∃ q', e.Covers ctx.rules c p q' ∧ Stands ctx.rules Grammar.expression .post q' s' ∧
          ∀ op ∈ operatorAhead q'.rest, c ≤ op.priority
  operand : ∀ {p : Place} {s s' : TokenStream ExprState} {e : Expr}, Stands ctx.rules Grammar.expression .pre p s →
    operand ctx n s = .ok e s' → ∃ q, e.Covers ctx.rules 0 p q ∧ Stands ctx.rules Grammar.expression .post q s'
  callArgs : ∀ {p : Place} {s s' : TokenStream ExprState} {es : List Expr},
    Stands ctx.rules Grammar.expression .post p s → callArgs ctx n s = .ok es s' →
      ∃ q, Expr.CoversArgs ctx.rules es p q ∧ Stands ctx.rules Grammar.expression .post q s'
  moreArgs : ∀ {p : Place} {s s' : TokenStream ExprState} {es : List Expr},
    Stands ctx.rules Grammar.expression .pre p s → moreArgs ctx n s = .ok es s' →
      es ≠ [] ∧ ∃ q, Expr.CoversArgs ctx.rules es p q ∧ Stands ctx.rules Grammar.expression .post q s'

namespace ExpressionsSpelled

variable {n : Nat} {p : Place} {s s' : TokenStream ExprState}

theorem zero : ExpressionsSpelled ctx 0 where
  subexpression _ h := by cases h
  operators _ _ _ _ h := by cases h
  operand _ h := by cases h
  callArgs _ h := by cases h
  moreArgs _ h := by cases h

theorem subexpression_succ (ih : ExpressionsSpelled ctx n) {c : Nat} {e : Expr}
    (hs : Stands ctx.rules Grammar.expression .pre p s) (h : Reader.subexpression ctx (n + 1) c s = .ok e s') :
    ∃ q, e.Covers ctx.rules c p q ∧ Stands ctx.rules Grammar.expression .post q s' ∧
      ∀ op ∈ operatorAhead q.rest, c ≤ op.priority := by
  obtain ⟨left, s₁, hl, h⟩ := EStateM.ok_of_bind h
  obtain ⟨q, hleft, hs₁⟩ := ih.operand hs hl
  exact ih.operators hleft (Nat.zero_le c) (fun _ _ => Nat.zero_le _) hs₁ h

/-- The invariant of the loop: the left operand is spelled under a ceiling that is above no operator which
    comes next. -/
theorem operators_succ (ih : ExpressionsSpelled ctx n) {m c : Nat} {q : Place} {left e : Expr}
    (hleft : left.Covers ctx.rules m p q) (hm : m ≤ c) (hnext : ∀ op ∈ operatorAhead q.rest, m ≤ op.priority + 1)
    (hs : Stands ctx.rules Grammar.expression .post q s) (h : Reader.operators ctx (n + 1) c left s = .ok e s') :
    ∃ q', e.Covers ctx.rules c p q' ∧ Stands ctx.rules Grammar.expression .post q' s' ∧
      ∀ op ∈ operatorAhead q'.rest, c ≤ op.priority := by
  rcases operators_eq_ok hs h with ⟨rfl, hs', hle⟩ | ⟨op, q₁, right, s₁, hahead, hlt, hsign, hread, h⟩
  · exact ⟨q, hleft.mono hm, hs', hle⟩
  · obtain ⟨q₂, hright, hs₁, hclosed⟩ := ih.subexpression (stands_fresh ..) hread
    have htree : (Expr.binary op left right).Covers ctx.rules (op.priority + 1) p q₂ :=
      .binary (Nat.lt_succ_self _) (hleft.mono (hnext op hahead)) hsign hright
    exact ih.operators htree hlt (fun op' hop' => Nat.succ_le_succ (hclosed op' hop')) hs₁ h

/-- A name is a call if a parenthesis opens behind it. -/
theorem named (ih : ExpressionsSpelled ctx n) {name : Token} {q : Place} {e : Expr} (hn : isName name.text)
    (free : isKeyword name.text = false) (hname : Passes ctx.rules Grammar.expression p [name.text] q)
    (h : (do
      match ← accept ctx [.leftPar] ExprState.post with
      | some _ =>
        let args ← Reader.callArgs ctx n
        let function ← resolveFunction ctx name
        locate name.position (Expr.mkCall name.text function.handle function.type args)
      | none =>
        Reader.setState ExprState.post
        return Expr.var (← resolveVariable ctx name)) (fresh Grammar.expression .pre q) = .ok e s') :
    ∃ q', e.Covers ctx.rules 0 p q' ∧ Stands ctx.rules Grammar.expression .post q' s' := by
  have hs := stands_fresh ctx.rules Grammar.expression .pre q
  obtain ⟨par, s₁, ha, h⟩ := EStateM.ok_of_bind h
  cases par with
  | some par =>
    obtain ⟨q₁, hopen, rfl⟩ := accept_sign hs ha "(" (by decide)
    obtain ⟨args, s₂, hread, h⟩ := EStateM.ok_of_bind h
    obtain ⟨q', hargs, hs₂⟩ := ih.callArgs (stands_fresh ..) hread
    obtain ⟨function, s₃, hres, hcall⟩ := EStateM.ok_of_bind h
    obtain ⟨-, rfl⟩ := resolveFunction_eq_ok hres
    obtain ⟨hmk, rfl⟩ := locate_eq_ok hcall
    cases Expr.eq_of_mkCall hmk
    exact ⟨q', .call hn free hname hopen hargs, hs₂⟩
  | none =>
    have hs₁ := Reader.accept_none hs ha
    obtain ⟨_, s₂, hset, h⟩ := EStateM.ok_of_bind h
    obtain ⟨-, hs₂⟩ := (Reads.setState ExprState.post).eq hs₁ hset
    obtain ⟨target, s₃, hres, hvar⟩ := EStateM.ok_of_bind h
    obtain ⟨hfound, rfl⟩ := resolveVariable_eq_ok hres
    cases hvar
    have hsame : target.name = name.text := by simpa using List.find?_some hfound
    rw [← hsame] at hn free hname
    exact ⟨q, ⟨_, hname, .var hn free⟩, hs₂⟩

theorem operand_succ (ih : ExpressionsSpelled ctx n) {e : Expr} (hs : Stands ctx.rules Grammar.expression .pre p s)
    (h : Reader.operand ctx (n + 1) s = .ok e s') :
    ∃ q, e.Covers ctx.rules 0 p q ∧ Stands ctx.rules Grammar.expression .post q s' := by
  obtain ⟨par, s₁, ha, h⟩ := EStateM.ok_of_bind h
  cases par with
  | some par =>
    obtain ⟨q₁, hopen, rfl⟩ := accept_sign hs ha "(" (by decide)
    obtain ⟨inner, s₂, hread, h⟩ := EStateM.ok_of_bind h
    obtain ⟨q₂, hinner, hs₂, -⟩ := ih.subexpression (stands_fresh ..) hread
    obtain ⟨_, s₃, he, h⟩ := EStateM.ok_of_bind h
    obtain ⟨q, hclose, rfl⟩ := accept_sign hs₂ (expect_eq_ok he) ")" (by decide)
    cases h
    exact ⟨q, .parenthesised hopen hinner hclose, stands_fresh ..⟩
  | none =>
    have hs₁ := Reader.accept_none hs ha
    obtain ⟨name, s₂, ha, h⟩ := EStateM.ok_of_bind h
    cases name with
    | some name =>
      obtain ⟨w, q, hw, hname, rfl⟩ := accept_word hs₁ ha (show ∀ form ∈ Grammar.expression.matchers .pre, _ →
        form = .terminal .reference by decide)
      obtain ⟨hn, free⟩ := hw.reference
      exact ih.named hn free hname h
    | none =>
      have hs₂ := Reader.accept_none hs₁ ha
      obtain ⟨sign, s₃, ha, h⟩ := EStateM.ok_of_bind h
      cases sign with
      | some token =>
        obtain ⟨form, w, q₁, hw, hsign, rfl⟩ := accept_lexical hs₂ ha (expression_lexical .pre)
        obtain ⟨op, s₄, hop, h⟩ := EStateM.ok_of_bind h
        obtain ⟨hpayload, rfl⟩ := prefixOp_eq_ok hop
        obtain ⟨inner, s₅, hread, h⟩ := EStateM.ok_of_bind h
        obtain ⟨q, hinner, hs₅, -⟩ := ih.subexpression (stands_fresh ..) hread
        obtain ⟨hmk, rfl⟩ := locate_eq_ok h
        cases Expr.eq_of_mkUnary hmk
        rw [hw.unary hpayload] at hsign
        exact ⟨q, .unary hsign hinner, hs₅⟩
      | none =>
        have hs₃ := Reader.accept_none hs₂ ha
        obtain ⟨token, s₄, he, h⟩ := EStateM.ok_of_bind h
        obtain ⟨form, w, q, hw, hword, rfl⟩ := accept_lexical hs₃ (expect_eq_ok he) (expression_lexical .pre)
        obtain ⟨value, hpayload, rfl, rfl⟩ := constant_eq_ok h
        exact ⟨q, ⟨_, hword, hw.constant hpayload⟩, stands_fresh ..⟩

theorem callArgs_succ (ih : ExpressionsSpelled ctx n) {es : List Expr}
    (hs : Stands ctx.rules Grammar.expression .post p s) (h : Reader.callArgs ctx (n + 1) s = .ok es s') :
    ∃ q, Expr.CoversArgs ctx.rules es p q ∧ Stands ctx.rules Grammar.expression .post q s' := by
  obtain ⟨par, s₁, ha, h⟩ := EStateM.ok_of_bind h
  cases par with
  | some par =>
    obtain ⟨q, hclose, rfl⟩ := accept_sign hs ha ")" (by decide)
    cases h
    exact ⟨q, ⟨[], rfl, hclose, by simp⟩, stands_fresh ..⟩
  | none =>
    have hs₁ := Reader.accept_none hs ha
    obtain ⟨_, s₂, hset, h⟩ := EStateM.ok_of_bind h
    obtain ⟨-, hs₂⟩ := (Reads.setState ExprState.pre).eq hs₁ hset
    exact (ih.moreArgs hs₂ h).2

theorem moreArgs_succ (ih : ExpressionsSpelled ctx n) {es : List Expr}
    (hs : Stands ctx.rules Grammar.expression .pre p s) (h : Reader.moreArgs ctx (n + 1) s = .ok es s') :
    es ≠ [] ∧ ∃ q, Expr.CoversArgs ctx.rules es p q ∧ Stands ctx.rules Grammar.expression .post q s' := by
  obtain ⟨arg, s₁, hread, h⟩ := EStateM.ok_of_bind h
  obtain ⟨q₁, harg, hs₁, -⟩ := ih.subexpression hs hread
  obtain ⟨par, s₂, ha, h⟩ := EStateM.ok_of_bind h
  cases par with
  | some par =>
    obtain ⟨q, hclose, rfl⟩ := accept_sign hs₁ ha ")" (by decide)
    cases h
    exact ⟨List.cons_ne_nil arg [], q, .last harg hclose, stands_fresh ..⟩
  | none =>
    have hs₂ := Reader.accept_none hs₁ ha
    obtain ⟨_, s₃, he, h⟩ := EStateM.ok_of_bind h
    obtain ⟨q₂, hcomma, rfl⟩ := accept_sign hs₂ (expect_eq_ok he) "," (by decide)
    obtain ⟨args, s₄, hmore, h⟩ := EStateM.ok_of_bind h
    obtain ⟨hne, q, hargs, hs₄⟩ := ih.moreArgs (stands_fresh ..) hmore
    cases h
    exact ⟨List.cons_ne_nil arg args, q, .cons harg hcomma hargs hne, hs₄⟩

theorem all : ∀ n, ExpressionsSpelled ctx n
  | 0 => zero
  | n + 1 =>
    have ih := all n
    { subexpression := ih.subexpression_succ
      operators := ih.operators_succ
      operand := ih.operand_succ
      callArgs := ih.callArgs_succ
      moreArgs := ih.moreArgs_succ }

end ExpressionsSpelled

/-- An expression is spelled by the text from which it is read. -/
theorem Reader.covers_of_expression {p : Place} {e : Expr} {behind : Cursor}
    (h : Reader.expression ctx (.ofPlace p) = .ok (e, behind)) :
    ∃ q, behind = .ofPlace q ∧ e.Covers ctx.rules BinaryOp.loosest p q := by
  obtain ⟨s', hread, rfl⟩ := run_eq_ok h
  have hs : Stands ctx.rules Grammar.expression .pre p (.ofCursor Grammar.expression (.ofPlace p)) := stands_fresh ..
  obtain ⟨q, hcovers, hs', -⟩ := (ExpressionsSpelled.all _).subexpression hs hread
  exact ⟨q, hs'.release, hcovers⟩

/-- All of the text is read as the expression. -/
def Expr.ReadWhole (scope : Scope) (e : Expr) (text : String) : Prop :=
  ∃ behind, Reader.expression scope.context (.ofString text) = .ok (e, behind) ∧ behind.committed.rest = []

/-- A spelling of a typed expression is read as a whole. -/
theorem Expr.Spelled.readWhole {scope : Scope} {e : Expr} {ws : List String} {v : List Char}
    (h : e.Spelled BinaryOp.loosest ws) (ht : e.Typed scope) (hv : Joined ws v) : e.ReadWhole scope (String.ofList v) := by
  have hstart : (Place.start v).rest = v ++ [] := (List.append_nil v).symm
  obtain ⟨q, hspans, hread⟩ := h.expression_joined scope.context ht hv (.nil _) hstart
  refine ⟨.ofPlace q, ?_, hspans.rest_eq hstart⟩
  rw [Cursor.ofString, String.toList_ofList]
  exact hread

/-- Where an expression is read, the text that was read is an expression of its own. -/
theorem Reader.readWhole_of_expression {p : Place} {e : Expr} {behind : Cursor} (hr : ctx.rules.Typed ctx.scope)
    (h : Reader.expression ctx (.ofPlace p) = .ok (e, behind)) :
    ∃ u q, behind = .ofPlace q ∧ p.Spans u q ∧ e.ReadWhole ctx.scope (String.ofList u) := by
  obtain ⟨q, hbehind, ws, hpasses, hspelled⟩ := covers_of_expression h
  obtain ⟨u, hu, hws⟩ := hpasses.words
  exact ⟨u, q, hbehind, hu, hspelled.readWhole (typed_expression hr h) hws⟩

end HostScript
