import HostScript.Proofs.Reader.Openings

/-! No two forms of a statement can be read at one place.

A statement that was read is derived from its text, and the words at the front of that text make every
other form decline, with an error that lets more forms be tried. An assignment and an expression may share
a name at the front: behind it an assignment has `=` before something that starts an expression, which
ends an expression without a semicolon, while an expression has no lone `=` there. -/

namespace HostScript

open TokenStream Reader

/-- The rules for the forms of a statement, in the order in which they are tried. -/
def Rule.statementRules : List Rule := [.assignment, .ifStatement, .returnStatement, .blockStatement]

/-- The rule for statements of this form. -/
def Stmt.form : Stmt → Rule
  | declare _ => .declaration
  | assign _ _ => .assignment
  | ret _ => .returnStatement
  | expr _ | empty | block _ => .blockStatement
  | branch .. => .ifStatement

theorem Stmt.Derived.form_mem {scope : Scope} {t : Stmt} {text : String} (h : t.Derived scope text) :
    t.form ∈ Rule.statementRules := by
  cases h <;> simp [form, Rule.statementRules]

/-! ### Expressions -/

/-- A text that is read as an expression as a whole spells it. -/
theorem Expr.ReadWhole.spelled {scope : Scope} {e : Expr} {v : String} (h : e.ReadWhole scope v) :
    ∃ ws, e.Spelled BinaryOp.loosest ws ∧ Joined ws v.toList ∧ e.Typed scope := by
  obtain ⟨behind, hread, hend⟩ := h
  obtain ⟨q, rfl, ws, ⟨⟨u, hu, hws⟩, -⟩, hspelled⟩ := covers_of_expression hread
  have hv : v.toList = u ++ q.rest := hu.rest
  rw [show q.rest = [] from hend, List.append_nil] at hv
  exact ⟨ws, hspelled, hv ▸ hws, typed_expression Rule.typed_read hread⟩

theorem Rule.wrap_ok {α : Type} {make : α → Payload} {result : Except Stop (α × Cursor)} {tree : α} {cursor : Cursor}
    (h : result = .ok (tree, cursor)) : wrap make result = .ok (make tree, cursor) := by
  rw [h]
  rfl

/-- The rule reads the text wherever it stands before `z`, and stops behind it. -/
def Rule.ReadsText (scope : Scope) (rule : Rule) (payload : Payload) (u z : List Char) : Prop :=
  ∀ p : Place, p.Shows (u ++ z) → ∃ q, q.rest = z ∧ Rule.read scope rule (.ofPlace p) = .ok (payload, .ofPlace q)

theorem Rule.reaches_of_read {scope : Scope} {rule : Rule} {payload : Payload} {p q : Place}
    (h : Rule.read scope rule (.ofPlace p) = .ok (payload, .ofPlace q)) : p.Reaches q := by
  obtain ⟨r, hr, hderives⟩ := Rule.derives_read rule p payload _ h
  cases hr
  exact hderives.reaches

/-- A rule is read inside another where the forms before it do not match. -/
theorem Rule.ReadsText.finds {S : Type} [DecidableEq S] {scope : Scope} {rule : Rule} {payload : Payload} {u z : List Char}
    (h : rule.ReadsText scope payload u z) {p : Place} (hp : p.Shows (u ++ z)) (g : Grammar S) (state : S)
    (before : List Matcher) {after : List Matcher} (hm : g.matchers state = before ++ .rule rule :: after)
    (hstate : state ≠ g.stop) (hb : ∀ other ∈ before, other.Misses (Rule.read scope) p p.skip) :
    ∃ text position q, Finds scope.context.rules g state p (some (⟨rule.kind, text, position, payload⟩, q)) ∧
      q.rest = z := by
  obtain ⟨q, hq, hread⟩ := h p.skip hp.skip
  obtain ⟨text, position, hfinds⟩ := finds_nested g state before hm hstate hb hread (Rule.reaches_of_read hread)
  exact ⟨text, position, q, hfinds, hq⟩

/-- An expression is read up to what cannot go on with it. -/
theorem Expr.Spelled.readsText {scope : Scope} {e : Expr} {ws : List String} {u z : List Char}
    (h : e.Spelled BinaryOp.loosest ws) (typed : e.Typed scope) (hws : Joined ws u) (hz : Ahead (BinaryOp.loosest + 1) z) :
    Rule.expression.ReadsText scope (.expr e) u z := by
  intro p hp
  obtain ⟨first, rest, rfl, -⟩ := h.starts
  obtain ⟨u, hu, hrest⟩ := hws.of_shows (h.solid first List.mem_cons_self) hp
  obtain ⟨q, hpq, hread⟩ := h.expression_joined scope.context typed hu hz hrest
  refine ⟨q, hpq.rest_eq hrest, ?_⟩
  rw [Rule.read_eq_body]
  exact Rule.wrap_ok hread

/-- An expression is read up to a word that ends it. -/
theorem Expr.ReadWhole.reads {scope : Scope} {e : Expr} {v w : String} {z tail : List Char} (h : e.ReadWhole scope v)
    (hw : w ∈ [";", ")", ","]) (hz : Fronts z w tail) : Rule.expression.ReadsText scope (.expr e) v.toList z := by
  obtain ⟨ws, hspelled, hws, ht⟩ := h.spelled
  exact hspelled.readsText ht hws (hz.eq_append ▸ .closing hw isBlank_of_mem_takeWhile tail)

/-- A text that is read as an expression begins like one. -/
theorem Expr.ReadWhole.fronts {scope : Scope} {e : Expr} {v w : String} {z tail : List Char} (h : e.ReadWhole scope v)
    (hw : w ∈ [";", ")", ","]) (hz : Fronts z w tail) : ∃ first more, Fronts (v.toList ++ z) first more ∧ Starts first := by
  obtain ⟨ws, hspelled, hws, ht⟩ := h.spelled
  obtain ⟨first, more, hfront, hstarts, -⟩ := hspelled.fronts ht hws ⟨w, tail, hz, .inl hw⟩
  exact ⟨first, more, hfront, hstarts⟩

/-- With a semicolon behind it. -/
theorem Expr.ReadWhole.fronts_joined {scope : Scope} {e : Expr} {v : String} {text : List Char} (h : e.ReadWhole scope v)
    (hv : Joined [v, ";"] text) (z : List Char) : text ≠ [] ∧ ∃ w tail, Fronts (text ++ z) w tail ∧ Starts w := by
  refine ⟨hv.ne_nil (w := ";") (by simp) (by decide), ?_⟩
  obtain ⟨gap, rest, rfl, hg, -, hrest⟩ := hv.of_cons
  obtain ⟨w, tail, hfront, hw⟩ := h.fronts (by decide) (hrest.fronts_last (by decide) (by decide) z)
  rw [List.append_assoc, List.append_assoc]
  exact ⟨w, tail, hfront.blank hg, hw⟩

theorem fronts_return {scope : Scope} {value : Expr} {v : String} {u : List Char} (whole : value.ReadWhole scope v)
    (joined : Joined ["return", v, ";"] u) (z : List Char) :
    ∃ text, Joined [v, ";"] text ∧ Fronts (u ++ z) "return" (text ++ z) := by
  refine joined.fronts_keyword (by decide) (by decide) fun text htext => ?_
  obtain ⟨hne, w, tail, hfront, hw⟩ := whole.fronts_joined htext z
  exact ⟨hne, w, tail, hfront, .inl hw⟩

/-! ### Texts that are no block -/

/-- A lone `=` is no operator. -/
theorem find?_post_assign {tail : List Char} (ht : ∀ d ∈ tail.head?, d ≠ '=') :
    Matcher.find? (String.ofList ("=".toList ++ tail)) (Grammar.expression.matchers .post) = none := by
  cases tail with
  | nil => decide
  | cons d tail =>
    have hd : ('=' == d) = false := beq_false_of_ne (ht d rfl).symm
    simp [Grammar.expression, Grammar.comma, Grammar.rightPar, BinaryOp.all, Matcher.find?, Terminal.find?,
      Terminal.pattern, Pattern.match?, BinaryOp.symbol, List.isPrefixOf, hd]

/-- An expression ends before a lone `=`. -/
theorem Ahead.assign {c : Nat} {gap tail : List Char} (hg : ∀ d ∈ gap, isBlank d) (ht : ∀ d ∈ tail.head?, d ≠ '=') :
    Ahead c (gap ++ "=".toList ++ tail) := by
  refine .sign hg (by decide) (by decide) tail fun op hop => ?_
  rw [operatorAhead, Grammar.ahead?_word hg (by decide), find?_post_assign ht] at hop
  cases hop

namespace Rule

variable {scope : Scope} {p : Place} {u z : List Char}

/-- What starts like an expression is no block and no empty statement. -/
theorem finds_expressionStatement {e : Expr} {w : String} {tail : List Char}
    (h : expression.ReadsText scope (.expr e) u z) (hfront : Fronts (u ++ z) w tail) (hw : Starts w)
    (hp : p.Shows (u ++ z)) :
    ∃ text position q, Finds scope.context.rules Grammar.blockStatement .begin p
      (some (⟨.expression, text, position, .expr e⟩, q)) ∧ q.rest = z := by
  have hnone : Matcher.find? w [Grammar.semicolon, Grammar.leftBrace] = none := by
    simp only [Grammar.semicolon, Grammar.leftBrace, Matcher.find?,
      hw.find?_sign (show ";" ∈ [";", "\x7b", "\x7d"] by decide),
      hw.find?_sign (show "\x7b" ∈ [";", "\x7b", "\x7d"] by decide)]
  exact h.finds hp Grammar.blockStatement .begin [Grammar.semicolon, Grammar.leftBrace] rfl (by decide)
    (misses_front (hp.fronts hfront) (by decide) hnone)

/-- A keyword is no block, no empty statement and no expression. -/
theorem declines_block_of_keyword {w : String} {tail : List Char} (h : Fronts p.rest w tail) (hw : w ∈ ["if", "return"]) :
    blockStatement.DeclinesAt scope p := by
  have hwords : Matcher.find? w [Grammar.semicolon, Grammar.leftBrace] = none := by
    simp only [List.mem_cons, List.not_mem_nil, or_false] at hw
    rcases hw with rfl | rfl <;> rfl
  have hoperand : Matcher.find? w (Grammar.expression.matchers .pre) = none := by
    simp only [List.mem_cons, List.not_mem_nil, or_false] at hw
    rcases hw with rfl | rfl <;> decide
  have hexpression : expression.DeclinesAt scope p.skip :=
    declines_expression ((Place.shows_of_rest rfl).skip.fronts h) hoperand
  have hmisses : ∀ form ∈ Grammar.blockStatement.matchers .begin, form.Misses (read scope) p p.skip := by
    intro form hform
    rcases List.mem_append.mp (show form ∈ [Grammar.semicolon, Grammar.leftBrace] ++ [.rule .expression] from hform)
      with hform | hform
    · exact misses_front h (by decide) hwords form hform
    · cases List.mem_singleton.mp hform
      exact hexpression.misses
  have hno (kinds : List TokenKind) (next : Grammar.BlockState) :
      Reads scope.context Grammar.blockStatement (accept scope.context kinds next) .begin p none .begin p :=
    .accept_none (finds_none (by decide) hmisses) rfl
  rw [DeclinesAt, read_eq_body]
  apply wrap_declines
  exact ((hno _ _).bind_declines ((hno _ _).bind_declines (Declines.expectExpression (hno _ _)).bind)).run

/-- In an assignment the name at the front is a whole expression, and no semicolon follows it. -/
theorem declines_block_of_assignment {target : Variable} {value : Expr} {v : String} (named : isName target.name)
    (free : isKeyword target.name = false) (found : scope.variableNamed? target.name = some target)
    (whole : value.ReadWhole scope v) (joined : Joined [target.name, "=", v, ";"] u) (hp : p.Shows (u ++ z)) :
    blockStatement.DeclinesAt scope p := by
  obtain ⟨gap, u₁, rfl, hg, -, h₁⟩ := joined.of_cons
  obtain ⟨gap₁, u₂, rfl, hg₁, -, h₂⟩ := h₁.of_cons
  have hvalue : ∀ d ∈ (u₂ ++ z).head?, d ≠ '=' := by
    obtain ⟨-, w, tail, hfront, hw⟩ := whole.fronts_joined h₂ z
    obtain ⟨c, cs, hl, -, hc⟩ := hw.head
    intro d hd
    rcases hfront.head hd with hblank | hmem
    · rintro rfl
      cases hblank
    · rw [hl] at hmem
      cases hmem
      rintro rfl
      simp at hc
  have hahead : Ahead (BinaryOp.loosest + 1) (gap₁ ++ "=".toList ++ (u₂ ++ z)) := .assign hg₁ hvalue
  have hname : expression.ReadsText scope (.expr (.var target)) (gap ++ target.name.toList) (gap₁ ++ "=".toList ++ (u₂ ++ z)) :=
    (Expr.Spelled.var named free).readsText (.var found) (.word hg target.name) hahead
  rw [List.append_assoc, List.append_assoc _ u₂] at hp
  have hfront := fronts_append hg (solid_of_isName named) (.inr hahead.ends)
  obtain ⟨_, _, q, hfinds, hq⟩ := finds_expressionStatement hname hfront (.inl ⟨named, free⟩) hp
  have hno (kind : TokenKind) (next : Grammar.BlockState) (hk : [kind].contains TokenKind.expression = false) :
      Reads scope.context Grammar.blockStatement (accept scope.context [kind] next) .begin p none .begin p :=
    .accept_none hfinds hk
  have rname : Reads scope.context Grammar.blockStatement (accept scope.context [.expression] .inExpr) .begin p _ .inExpr q :=
    .accept hfinds rfl
  have hsign : Fronts q.rest "=" (u₂ ++ z) := by
    rw [hq]
    exact fronts_append hg₁ (by decide) (.inl (by decide))
  have hsemicolon : Reads scope.context Grammar.blockStatement (accept scope.context [.semicolon] .done) .inExpr q none
      .inExpr q := .other_front hsign (by decide) (by decide) rfl
  rw [DeclinesAt, read_eq_body]
  apply wrap_declines
  refine ((hno .leftBrace _ rfl).bind_declines ((hno .semicolon _ rfl).bind_declines ?_)).run
  exact (rname.expectExpression rfl).bind_declines (Declines.expect hsemicolon).bind

/-! ### One form for each text -/

/-- Where a statement is derived from the text, the forms other than its own decline. -/
theorem declines_other {t : Stmt} {text : String} (h : t.Derived scope text) (hp : p.Shows (text.toList ++ z)) :
    ∀ other ∈ statementRules, other ≠ t.form → other.DeclinesAt scope p := by
  simp only [statementRules, List.forall_mem_cons, List.not_mem_nil, false_implies, implies_true, and_true]
  cases h with
  | assign named free found ty whole joined =>
    obtain ⟨_, -, hfront⟩ := joined.fronts_word (solid_of_isName named) (by decide) z
    have hstarts : Starts _ := .inl ⟨named, free⟩
    exact ⟨fun hne => absurd rfl hne, fun _ => declines_if (hp.fronts hfront) (hstarts.find?_keyword (by decide)),
      fun _ => declines_return (hp.fronts hfront) (hstarts.find?_keyword (by decide)),
      fun _ => declines_block_of_assignment named free found whole joined hp⟩
  | ret ty whole joined =>
    obtain ⟨_, -, hfront⟩ := fronts_return whole joined z
    exact ⟨fun _ => declines_assignment (hp.fronts hfront) rfl, fun _ => declines_if (hp.fronts hfront) rfl,
      fun hne => absurd rfl hne, fun _ => declines_block_of_keyword (hp.fronts hfront) (by decide)⟩
  | expr whole joined =>
    obtain ⟨-, w, tail, hfront, hw⟩ := whole.fronts_joined joined z
    obtain ⟨ws, hspelled, hws, ht⟩ := whole.spelled
    obtain ⟨text, h₁, hvalue⟩ := joined.shows hp
    have hz : Ending (text ++ z) := ⟨_, _, h₁.fronts_last (by decide) (by decide) z, .inl (by decide)⟩
    exact ⟨fun _ => declines_assignment_of_expression hspelled ht hws hz hvalue,
      fun _ => declines_if (hp.fronts hfront) (hw.find?_keyword (by decide)),
      fun _ => declines_return (hp.fronts hfront) (hw.find?_keyword (by decide)), fun hne => absurd rfl hne⟩
  | empty joined =>
    have hfront := hp.fronts (joined.fronts_last (by decide) (by decide) z)
    exact ⟨fun _ => declines_assignment hfront rfl, fun _ => declines_if hfront rfl,
      fun _ => declines_return hfront rfl, fun hne => absurd rfl hne⟩
  | block derived joined =>
    obtain ⟨_, -, hfront⟩ := joined.fronts_sign (by decide) (by decide) z
    have hfront := hp.fronts hfront
    exact ⟨fun _ => declines_assignment hfront rfl, fun _ => declines_if hfront rfl,
      fun _ => declines_return hfront rfl, fun hne => absurd rfl hne⟩
  | branch ty whole first joined =>
    obtain ⟨_, -, hfront⟩ := joined.fronts_word (by decide) (by decide) z
    have hfront := hp.fronts hfront
    exact ⟨fun _ => declines_assignment hfront rfl, fun hne => absurd rfl hne,
      fun _ => declines_return hfront rfl, fun _ => declines_block_of_keyword hfront (by decide)⟩
  | branchElse ty whole first closed second joined =>
    obtain ⟨_, -, hfront⟩ := joined.fronts_word (by decide) (by decide) z
    have hfront := hp.fronts hfront
    exact ⟨fun _ => declines_assignment hfront rfl, fun hne => absurd rfl hne,
      fun _ => declines_return hfront rfl, fun _ => declines_block_of_keyword hfront (by decide)⟩

/-- A rule for one form of a statement gives statements of that form. -/
theorem form_of_read {rule : Rule} (hrule : rule ∈ statementRules) {cursor behind : Cursor} {payload : Payload}
    (h : read scope rule cursor = .ok (payload, behind)) : ∃ t, payload = .stmt t ∧ t.form = rule := by
  simp only [statementRules, List.mem_cons, List.not_mem_nil, or_false] at hrule
  rcases hrule with rfl | rfl | rfl | rfl
  · obtain ⟨t, hread, rfl⟩ := wrap_eq_ok h
    obtain ⟨_, hread, -⟩ := run_eq_ok hread
    obtain ⟨_, _, -, hread⟩ := EStateM.ok_of_bind hread
    obtain ⟨_, _, -, hread⟩ := EStateM.ok_of_bind hread
    obtain ⟨_, _, -, hread⟩ := EStateM.ok_of_bind hread
    obtain ⟨_, _, -, hread⟩ := EStateM.ok_of_bind hread
    obtain ⟨_, _, -, hread⟩ := EStateM.ok_of_bind hread
    obtain ⟨-, rfl⟩ := Stmt.mkAssign_eq_ok.mp (locate_eq_ok hread).1
    exact ⟨_, rfl, rfl⟩
  · obtain ⟨t, hread, rfl⟩ := wrap_eq_ok h
    obtain ⟨_, hread, -⟩ := run_eq_ok hread
    obtain ⟨_, _, -, hread⟩ := EStateM.ok_of_bind hread
    obtain ⟨_, _, -, hread⟩ := EStateM.ok_of_bind hread
    obtain ⟨_, _, -, hread⟩ := EStateM.ok_of_bind hread
    obtain ⟨_, _, -, hread⟩ := EStateM.ok_of_bind hread
    obtain ⟨_, _, -, hread⟩ := EStateM.ok_of_bind hread
    obtain ⟨_, _, -, hread⟩ := EStateM.ok_of_bind hread
    obtain ⟨-, rfl⟩ := Stmt.mkBranch_eq_ok.mp (locate_eq_ok hread).1
    exact ⟨_, rfl, rfl⟩
  · obtain ⟨t, hread, rfl⟩ := wrap_eq_ok h
    obtain ⟨_, hread, -⟩ := run_eq_ok hread
    obtain ⟨_, _, -, hread⟩ := EStateM.ok_of_bind hread
    obtain ⟨_, _, -, hread⟩ := EStateM.ok_of_bind hread
    obtain ⟨_, _, -, hread⟩ := EStateM.ok_of_bind hread
    obtain ⟨-, rfl⟩ := Stmt.mkRet_eq_ok.mp (locate_eq_ok hread).1
    exact ⟨_, rfl, rfl⟩
  · obtain ⟨t, hread, rfl⟩ := wrap_eq_ok h
    obtain ⟨_, hread, -⟩ := run_eq_ok hread
    obtain ⟨brace, _, -, hread⟩ := EStateM.ok_of_bind hread
    cases brace with
    | some _ =>
      obtain ⟨_, _, -, hread⟩ := EStateM.ok_of_bind hread
      cases hread
      exact ⟨_, rfl, rfl⟩
    | none =>
      obtain ⟨semicolon, _, -, hread⟩ := EStateM.ok_of_bind hread
      cases semicolon with
      | some _ =>
        cases hread
        exact ⟨_, rfl, rfl⟩
      | none =>
        obtain ⟨_, _, -, hread⟩ := EStateM.ok_of_bind hread
        obtain ⟨_, _, -, hread⟩ := EStateM.ok_of_bind hread
        cases hread
        exact ⟨_, rfl, rfl⟩

/-- Where one form of a statement is read, the others decline. -/
theorem declines_of_read {rule other : Rule} (hrule : rule ∈ statementRules) (hother : other ∈ statementRules)
    (hne : other ≠ rule) {payload : Payload} {behind : Cursor} (h : read scope rule (.ofPlace p) = .ok (payload, behind)) :
    other.DeclinesAt scope p := by
  obtain ⟨t, rfl, rfl⟩ := form_of_read hrule h
  obtain ⟨q, -, hderives⟩ := derives_read _ p _ _ h
  have hderived : t.DerivedAt scope p q := by
    simp only [statementRules, List.mem_cons, List.not_mem_nil, or_false] at hrule
    rcases hrule with hform | hform | hform | hform
    all_goals
      rw [hform] at hderives
      obtain ⟨_, ⟨⟩, hderived⟩ := hderives
      exact hderived
  obtain ⟨u, hspans, hderived, -⟩ := hderived
  refine declines_other (z := q.rest) hderived (Place.shows_of_rest ?_) other hother hne
  rw [String.toList_ofList, hspans.rest]

end Rule
end HostScript
