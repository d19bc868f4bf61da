import HostScript.Proofs.Reader.Alternatives

/-! Every text from which a program is derived is read as that program.

A rule reads its text wherever it stands, whatever follows, and stops right behind it; only an `if`
without `else` must not be followed by one. The proof follows the derivation: the forms that are tried
first decline what a statement begins with, and its parts are read where they stand. -/

namespace HostScript

open TokenStream Reader

/-! ### Forms without statements inside -/

namespace Rule

variable {scope : Scope} {value : Expr} {v : String} {u z : List Char}

/-- An expression inside a form of a statement. -/
theorem reads_expression {S : Type} [DecidableEq S] (g : Grammar S) (state next : S) {p : Place} {w : String}
    {tail : List Char} (h : value.ReadWhole scope v) (hp : p.Shows (v.toList ++ z)) (hw : w ∈ [";", ")", ","])
    (hz : Fronts z w tail) {after : List Matcher} (hm : g.matchers state = .rule .expression :: after)
    (hstate : state ≠ g.stop) :
    ∃ position q, Reads scope.context g (expectExpression scope.context next) state p (value, position) next q ∧
      q.rest = z := by
  obtain ⟨text, position, q, hfinds, hq⟩ := (h.reads hw hz).finds hp g state [] hm hstate (List.forall_mem_nil _)
  have hvalue : Reads scope.context g (accept scope.context [.expression] next) state p _ next q := .accept hfinds rfl
  exact ⟨position, q, hvalue.expectExpression rfl, hq⟩

theorem readsText_assignment {target : Variable} (named : isName target.name) (free : isKeyword target.name = false)
    (found : scope.variableNamed? target.name = some target) (ty : value.ty = target.ty) (whole : value.ReadWhole scope v)
    (joined : Joined [target.name, "=", v, ";"] u) (z : List Char) :
    assignment.ReadsText scope (.stmt (.assign target value)) u z := by
  intro p hp
  obtain ⟨u₁, h₁, hname⟩ := joined.fronts_word (solid_of_isName named) (by decide) z
  obtain ⟨_, q₁, rname, hq₁⟩ := Reads.front scope.context Grammar.assignment .begin [.name] .preAssign (hp.fronts hname)
    (by decide) (by decide) (find?_target named free) rfl
  obtain ⟨u₂, h₂, hsign⟩ := h₁.fronts_sign (by decide) (by decide) z
  obtain ⟨_, q₂, rsign, hq₂⟩ := Reads.front scope.context Grammar.assignment .preAssign [.assign] .postAssign (hq₁ ▸ hsign)
    (by decide) (by decide) rfl rfl
  obtain ⟨u₃, h₃, hvalue⟩ := h₂.shows (Place.shows_of_rest hq₂)
  have hend := h₃.fronts_last (by decide) (by decide) z
  obtain ⟨position, q₃, rvalue, hq₃⟩ := reads_expression Grammar.assignment .postAssign .postExpr whole hvalue
    (by decide) hend rfl (by decide)
  obtain ⟨_, q, rend, hq⟩ := Reads.front scope.context Grammar.assignment .postExpr [.semicolon] .done (hq₃ ▸ hend)
    (by decide) (by decide) rfl rfl
  refine ⟨q, hq, ?_⟩
  rw [read_eq_body]
  refine wrap_ok (Reads.run scope.context .done ?_)
  refine rname.expect.bind (rsign.expect.bind ((Reads.resolveVariable found).bind ?_))
  refine rvalue.bind (rend.expect.bind ?_)
  exact .locate (Stmt.mkAssign_eq_ok.mpr ⟨ty, rfl⟩) _

theorem readsText_return (ty : value.ty = .integer) (whole : value.ReadWhole scope v) (joined : Joined ["return", v, ";"] u)
    (z : List Char) : returnStatement.ReadsText scope (.stmt (.ret value)) u z := by
  intro p hp
  obtain ⟨u₁, h₁, hword⟩ := fronts_return whole joined z
  obtain ⟨_, q₁, rword, hq₁⟩ := Reads.front scope.context Grammar.returnStatement .begin [.returnWord] .preExpr
    (hp.fronts hword) (by decide) (by decide) rfl rfl
  obtain ⟨u₂, h₂, hvalue⟩ := h₁.shows (Place.shows_of_rest hq₁)
  have hend := h₂.fronts_last (by decide) (by decide) z
  obtain ⟨position, q₂, rvalue, hq₂⟩ := reads_expression Grammar.returnStatement .preExpr .postExpr whole hvalue (by decide)
    hend rfl (by decide)
  obtain ⟨_, q, rend, hq⟩ := Reads.front scope.context Grammar.returnStatement .postExpr [.semicolon] .done (hq₂ ▸ hend)
    (by decide) (by decide) rfl rfl
  refine ⟨q, hq, ?_⟩
  rw [read_eq_body]
  refine wrap_ok (Reads.run scope.context .done ?_)
  refine rword.expect.bind (rvalue.bind (rend.expect.bind ?_))
  exact .locate (Stmt.mkRet_eq_ok.mpr ⟨ty, rfl⟩) _

theorem readsText_empty (joined : Joined [";"] u) (z : List Char) : blockStatement.ReadsText scope (.stmt .empty) u z := by
  intro p hp
  have hend := joined.fronts_last (by decide) (by decide) z
  obtain ⟨_, q, hfinds, hq⟩ := finds_front scope.context.rules Grammar.blockStatement .begin [Grammar.semicolon] rfl
    (by decide) (by decide) (hp.fronts hend) rfl
  have hbrace : Reads scope.context Grammar.blockStatement (accept scope.context [.leftBrace] .inBlock) .begin p none
      .begin p := .accept_none hfinds rfl
  have hsign : Reads scope.context Grammar.blockStatement (accept scope.context [.semicolon] .done) .begin p _ .done q :=
    .accept hfinds rfl
  refine ⟨q, hq, ?_⟩
  rw [read_eq_body]
  exact wrap_ok (Reads.run scope.context .done (hbrace.bind (hsign.bind (.pure Stmt.empty))))

theorem readsText_expressionStatement (whole : value.ReadWhole scope v) (joined : Joined [v, ";"] u) (z : List Char) :
    blockStatement.ReadsText scope (.stmt (.expr value)) u z := by
  intro p hp
  obtain ⟨u₁, h₁, hvalue⟩ := joined.shows hp
  have hend := h₁.fronts_last (by decide) (by decide) z
  obtain ⟨w, tail, hfront, hw⟩ := whole.fronts (by decide) hend
  obtain ⟨_, position, q₁, hfinds, hq₁⟩ := finds_expressionStatement (whole.reads (by decide) hend) hfront hw hvalue
  have hno (kind : TokenKind) (next : Grammar.BlockState) (hk : [kind].contains TokenKind.expression = false) :
      Reads scope.context Grammar.blockStatement (accept scope.context [kind] next) .begin p none .begin p :=
    .accept_none hfinds hk
  have rvalue : Reads scope.context Grammar.blockStatement (accept scope.context [.expression] .inExpr) .begin p _
      .inExpr q₁ := .accept hfinds rfl
  obtain ⟨_, q, rend, hq⟩ := Reads.front scope.context Grammar.blockStatement .inExpr [.semicolon] .done (hq₁ ▸ hend)
    (by decide) (by decide) rfl rfl
  refine ⟨q, hq, ?_⟩
  rw [read_eq_body]
  refine wrap_ok (Reads.run scope.context .done ?_)
  refine (hno .leftBrace _ rfl).bind ((hno .semicolon _ rfl).bind ?_)
  exact (rvalue.expectExpression rfl).bind (rend.expect.bind (.pure _))

end Rule

/-! ### Statements inside statements -/

/-- A statement begins with a word that tells which forms can be meant. -/
theorem Stmt.Derived.fronts {scope : Scope} {t : Stmt} {u : String} (h : t.Derived scope u) (z : List Char) :
    ∃ w tail, Fronts (u.toList ++ z) w tail ∧ Begins w := by
  cases h with
  | assign named free _ _ _ joined =>
    obtain ⟨_, -, hfront⟩ := joined.fronts_word (solid_of_isName named) (by decide) z
    exact ⟨_, _, hfront, .inl (.inl ⟨named, free⟩)⟩
  | ret _ whole joined =>
    obtain ⟨_, -, hfront⟩ := fronts_return whole joined z
    exact ⟨_, _, hfront, .inr (by decide)⟩
  | expr whole joined =>
    obtain ⟨-, w, tail, hfront, hw⟩ := whole.fronts_joined joined z
    exact ⟨w, tail, hfront, .inl hw⟩
  | empty joined => exact ⟨_, _, joined.fronts_last (by decide) (by decide) z, .inr (by decide)⟩
  | block _ joined =>
    obtain ⟨_, -, hfront⟩ := joined.fronts_sign (by decide) (by decide) z
    exact ⟨_, _, hfront, .inr (by decide)⟩
  | branch _ _ _ joined =>
    obtain ⟨_, -, hfront⟩ := joined.fronts_word (by decide) (by decide) z
    exact ⟨_, _, hfront, .inr (by decide)⟩
  | branchElse _ _ _ _ _ joined =>
    obtain ⟨_, -, hfront⟩ := joined.fronts_word (by decide) (by decide) z
    exact ⟨_, _, hfront, .inr (by decide)⟩

theorem Stmt.Derived.ne_nil {scope : Scope} {t : Stmt} {u : String} (h : t.Derived scope u) : u.toList ≠ [] := by
  obtain ⟨c, hc, -⟩ := h.ended
  rintro hnil
  rw [hnil] at hc
  cases hc

section Ahead

variable {scope : Scope} {u z : List Char}

theorem Stmt.Derived.fronts_joined {t : Stmt} {v : String} {ws : List String} (h : t.Derived scope v)
    (hv : Joined (v :: ws) u) (z : List Char) : ∃ w tail, Fronts (u ++ z) w tail ∧ Begins w := by
  obtain ⟨gap, text, rfl, hg, -⟩ := hv.of_cons
  obtain ⟨w, tail, hfront, hw⟩ := h.fronts (text ++ z)
  rw [List.append_assoc, List.append_assoc]
  exact ⟨w, tail, hfront.blank hg, hw⟩

/-- No keyword that begins no statement comes next where statements do. -/
theorem ahead?_parts {S : Type} {g : Grammar S} {state : S} {kind : TokenKind} {k : String}
    (hm : g.matchers state = [.terminal (.keyword kind k)]) (hk : k ∈ ["var", "else"]) {parts : List (Stmt × String)}
    (derived : ∀ part ∈ parts, part.1.Derived scope part.2) (joined : Joined (parts.map Prod.snd) u)
    (hz : g.ahead? state z = none) : g.ahead? state (u ++ z) = none := by
  cases parts with
  | nil =>
    cases joined
    exact hz
  | cons part parts =>
    obtain ⟨w, tail, hfront, hw⟩ := (derived part List.mem_cons_self).fronts_joined joined z
    have hplain : (g.matchers state).all Matcher.plain := by
      simp only [List.mem_cons, List.not_mem_nil, or_false] at hk
      rw [hm]
      rcases hk with rfl | rfl <;> rfl
    rw [hfront.ahead?_eq hplain, hm]
    simp only [Matcher.find?, hw.find?_keyword hk]

theorem ahead?_blank {S : Type} {g : Grammar S} {state : S} {gap : List Char} (hg : ∀ c ∈ gap, isBlank c)
    (hnil : g.ahead? state [] = none) : g.ahead? state gap = none := by
  rw [← List.append_nil gap, Grammar.ahead?_gap hg, hnil]

end Ahead

/-- The statement is read, up to anything that is not taken for its `else`. -/
def Stmt.ReadsText (scope : Scope) (t : Stmt) (u : List Char) : Prop :=
  ∀ z, (t.dangling → Grammar.ifStatement.ahead? .postBlock z = none) → Rule.statement.ReadsText scope (.stmt t) u z

section Nested

variable {scope : Scope} {t : Stmt} {u z : List Char} {v : String}

/-- A statement inside a form of a statement, or in a program. -/
theorem Stmt.ReadsText.reads {S : Type} [DecidableEq S] (h : t.ReadsText scope u)
    (hz : t.dangling → Grammar.ifStatement.ahead? .postBlock z = none)
    {p : Place} (hp : p.Shows (u ++ z)) (g : Grammar S) (state next : S) {after : List Matcher}
    (hm : g.matchers state = .rule .statement :: after) (hstate : state ≠ g.stop) :
    ∃ q, Reads scope.context g (expectStatement scope.context [.statement] next) state p t next q ∧ q.rest = z := by
  obtain ⟨_, _, q, hfinds, hq⟩ := (h z hz).finds hp g state [] hm hstate (List.forall_mem_nil _)
  have hfirst : Reads scope.context g (accept scope.context [.statement] next) state p _ next q := .accept hfinds rfl
  exact ⟨q, hfirst.expectStatement rfl, hq⟩

/-- The statements of a block, one after the other, and its closing brace. -/
theorem reads_blockBody_parts {parts : List (Stmt × String)} (derived : ∀ part ∈ parts, part.1.Derived scope part.2)
    (hparts : ∀ part ∈ parts, part.1.ReadsText scope part.2.toList) {p : Place}
    (joined : Joined (parts.map Prod.snd ++ ["\x7d"]) u) (hp : p.Shows (u ++ z)) :
    ∃ q, q.rest = z ∧ ∀ n, parts.length + 1 ≤ n →
      Reads scope.context Grammar.blockStatement (blockBody scope.context n) .inBlock p (parts.map Prod.fst) .done q := by
  induction parts generalizing p u with
  | nil =>
    obtain ⟨_, q, hfinds, hq⟩ := finds_front scope.context.rules Grammar.blockStatement .inBlock [Grammar.rightBrace] rfl
      (by decide) (by decide) (hp.fronts (joined.fronts_last (by decide) (by decide) z)) rfl
    have htest : Reads scope.context Grammar.blockStatement (test scope.context [.rightBrace]) .inBlock p true .inBlock p :=
      .test hfinds
    have hsign : Reads scope.context Grammar.blockStatement (accept scope.context [.rightBrace] .done) .inBlock p _
        .done q := .accept hfinds rfl
    refine ⟨q, hq, fun n hn => ?_⟩
    obtain ⟨n, rfl⟩ := Nat.exists_eq_add_of_le' (show 1 ≤ n by omega)
    exact htest.bind (hsign.expect.bind (.pure []))
  | cons part parts ih =>
    obtain ⟨first, derived⟩ := List.forall_mem_cons.mp derived
    obtain ⟨hfirst, hparts⟩ := List.forall_mem_cons.mp hparts
    obtain ⟨text, hmore, hshows⟩ := joined.shows hp
    obtain ⟨w, tail, hfront, hw⟩ := first.fronts (text ++ z)
    have hnone : Matcher.find? w [Grammar.rightBrace] = none := by
      simp only [Grammar.rightBrace, Matcher.find?, hw.find?_rightBrace]
    have hnoElse : Grammar.ifStatement.ahead? .postBlock (text ++ z) = none := by
      obtain ⟨u₁, u₂, rfl, h₁, h₂⟩ := hmore.split
      rw [List.append_assoc]
      exact ahead?_parts rfl (by decide) derived h₁ ((h₂.fronts_last (by decide) (by decide) z).ahead?_eq (by decide))
    obtain ⟨_, _, q₁, hfinds, hq₁⟩ := (hfirst (text ++ z) fun _ => hnoElse).finds hshows
      Grammar.blockStatement .inBlock [Grammar.rightBrace] rfl (by decide)
      (misses_front (hshows.fronts hfront) (by decide) hnone)
    have htest : Reads scope.context Grammar.blockStatement (test scope.context [.rightBrace]) .inBlock p false .inBlock p :=
      .test hfinds
    have rfirst : Reads scope.context Grammar.blockStatement (accept scope.context [.statement] .inBlock) .inBlock p _
        .inBlock q₁ := .accept hfinds rfl
    obtain ⟨q, hq, rmore⟩ := ih derived hparts hmore (Place.shows_of_rest hq₁)
    refine ⟨q, hq, fun n hn => ?_⟩
    rw [List.length_cons] at hn
    obtain ⟨n, rfl⟩ := Nat.exists_eq_add_of_le' (show 1 ≤ n by omega)
    exact htest.bind ((rfirst.expectStatement rfl).bind ((rmore n (by omega)).bind (.pure _)))

end Nested

namespace Rule

variable {scope : Scope} {t : Stmt} {condition : Expr} {c text : String} {u z : List Char} {ws : List String}

theorem readsText_block {parts : List (Stmt × String)} (derived : ∀ part ∈ parts, part.1.Derived scope part.2)
    (hparts : ∀ part ∈ parts, part.1.ReadsText scope part.2.toList)
    (joined : Joined ("\x7b" :: (parts.map Prod.snd ++ ["\x7d"])) u) (z : List Char) :
    blockStatement.ReadsText scope (.stmt (.block (parts.map Prod.fst))) u z := by
  intro p hp
  obtain ⟨u, joined, hrest⟩ := joined.of_shows (by decide) hp
  have hlen : parts.length + 1 ≤ p.rest.length + 1 := by
    have hne : ∀ w ∈ "\x7b" :: (parts.map Prod.snd ++ ["\x7d"]), w.toList ≠ [] := by
      simp only [List.mem_cons, List.mem_append, List.mem_map, List.not_mem_nil, or_false]
      rintro w (rfl | ⟨part, hpart, rfl⟩ | rfl)
      · decide
      · exact (derived part hpart).ne_nil
      · decide
    have := joined.length_le hne
    simp only [List.length_cons, List.length_append, List.length_map, hrest] at this ⊢
    omega
  obtain ⟨u₁, h₁, hopen⟩ := joined.fronts_sign (by decide) (by decide) z
  obtain ⟨_, q₁, hfinds, hq₁⟩ := finds_front scope.context.rules Grammar.blockStatement .begin
    [Grammar.semicolon, Grammar.leftBrace] rfl (by decide) (by decide) (hrest ▸ hopen) rfl
  have rbrace : Reads scope.context Grammar.blockStatement (accept scope.context [.leftBrace] .inBlock) .begin p _
      .inBlock q₁ := .accept hfinds rfl
  obtain ⟨q, hq, rbody⟩ := reads_blockBody_parts derived hparts h₁ (Place.shows_of_rest hq₁)
  refine ⟨q, hq, ?_⟩
  rw [read_eq_body]
  exact wrap_ok (Reads.run scope.context .done (rbrace.bind ((rbody _ hlen).bind (.pure _))))

/-- An `if` with the words `ws` of its `else`, if it has one. -/
theorem readsText_if {other : Option Stmt} (ty : condition.ty = .boolean) (whole : condition.ReadWhole scope c)
    (joined : Joined ("if" :: "(" :: c :: ")" :: text :: ws) u)
    (hthen : ∀ more, Joined ws more → statement.ReadsText scope (.stmt t) text.toList (more ++ z))
    (helse : ∀ more, Joined ws more → ∀ q : Place, q.rest = more ++ z → ∃ q', q'.rest = z ∧
      Reads scope.context Grammar.ifStatement (elseBranch scope.context) .postBlock q other .done q') :
    ifStatement.ReadsText scope (.stmt (.branch condition (condition.fold.bind Value.boolean?) t other)) u z := by
  intro p hp
  obtain ⟨u₁, h₁, hword⟩ := joined.fronts_word (by decide) (by decide) z
  obtain ⟨_, q₁, rword, hq₁⟩ := Reads.front scope.context Grammar.ifStatement .begin [.ifWord] .preLeftPar
    (hp.fronts hword) (by decide) (by decide) rfl rfl
  obtain ⟨u₂, h₂, hopen⟩ := h₁.fronts_sign (by decide) (by decide) z
  obtain ⟨_, q₂, ropen, hq₂⟩ := Reads.front scope.context Grammar.ifStatement .preLeftPar [.leftPar] .preExpr
    (hq₁ ▸ hopen) (by decide) (by decide) rfl rfl
  obtain ⟨u₃, h₃, hvalue⟩ := h₂.shows (Place.shows_of_rest hq₂)
  obtain ⟨u₄, h₄, hclose⟩ := h₃.fronts_sign (by decide) (by decide) z
  obtain ⟨position, q₃, rvalue, hq₃⟩ := reads_expression Grammar.ifStatement .preExpr .postExpr whole hvalue
    (by decide) hclose rfl (by decide)
  obtain ⟨_, q₄, rclose, hq₄⟩ := Reads.front scope.context Grammar.ifStatement .postExpr [.rightPar] .preBlock
    (hq₃ ▸ hclose) (by decide) (by decide) rfl rfl
  obtain ⟨more, h₅, hfirst⟩ := h₄.shows (Place.shows_of_rest hq₄)
  obtain ⟨_, _, q₅, hfinds, hq₅⟩ := (hthen more h₅).finds hfirst Grammar.ifStatement .preBlock [] rfl (by decide) (by simp)
  have rfirst : Reads scope.context Grammar.ifStatement (accept scope.context [.statement] .postBlock) .preBlock q₄ _
      .postBlock q₅ := .accept hfinds rfl
  obtain ⟨q, hq, rsecond⟩ := helse more h₅ q₅ hq₅
  refine ⟨q, hq, ?_⟩
  rw [read_eq_body]
  refine wrap_ok (Reads.run scope.context .done ?_)
  refine rword.expect.bind (ropen.expect.bind (rvalue.bind (rclose.expect.bind ?_)))
  refine (rfirst.expectStatement rfl).bind (rsecond.bind ?_)
  exact .locate (Stmt.mkBranch_eq_ok.mpr ⟨ty, rfl⟩) _

theorem reads_without_else {q : Place} (h : Grammar.ifStatement.ahead? .postBlock q.rest = none) :
    Reads scope.context Grammar.ifStatement (elseBranch scope.context) .postBlock q none .done q := by
  have hno : Reads scope.context Grammar.ifStatement (accept scope.context [.elseWord] .postElse) .postBlock q none
      .postBlock q := .none_ahead (by decide) (by decide) (by rw [h]; rfl)
  exact hno.bind ((Reads.setState Grammar.IfState.done).bind (.pure none))

theorem reads_else {q : Place} (derived : t.Derived scope text) (h : t.ReadsText scope text.toList)
    (hz : t.dangling → Grammar.ifStatement.ahead? .postBlock z = none) (joined : Joined ["else", text] u)
    (hq : q.rest = u ++ z) : ∃ q', q'.rest = z ∧
      Reads scope.context Grammar.ifStatement (elseBranch scope.context) .postBlock q (some t) .done q' := by
  have hbegins (more : List Char) (hmore : Joined [text] more) :
      more ≠ [] ∧ ∃ w tail, Fronts (more ++ z) w tail ∧ Begins w :=
    ⟨hmore.ne_nil List.mem_cons_self derived.ne_nil, derived.fronts_joined hmore z⟩
  obtain ⟨u₁, h₁, hword⟩ := joined.fronts_keyword (by decide) (by decide) hbegins
  obtain ⟨_, q₁, rword, hq₁⟩ := Reads.front scope.context Grammar.ifStatement .postBlock [.elseWord] .postElse
    (hq ▸ hword) (by decide) (by decide) rfl rfl
  obtain ⟨u₂, h₂, hsecond⟩ := h₁.shows (Place.shows_of_rest hq₁)
  cases h₂
  obtain ⟨q', rsecond, hq'⟩ := h.reads hz hsecond Grammar.ifStatement .postElse .done rfl (by decide)
  exact ⟨q', hq', rword.bind (rsecond.bind (.pure _))⟩

/-- A statement is read as its form, since the forms before that decline. -/
theorem readsText_statement {u : String} (derived : t.Derived scope u) (h : t.form.ReadsText scope (.stmt t) u.toList z) :
    statement.ReadsText scope (.stmt t) u.toList z := by
  intro p hp
  obtain ⟨before, after, hsplit⟩ := List.append_of_mem derived.form_mem
  have hm : Grammar.statement.matchers .begin = before.map .rule ++ .rule t.form :: after.map .rule := by
    rw [show Grammar.statement.matchers .begin = statementRules.map .rule from rfl, hsplit, List.map_append, List.map_cons]
  have hdistinct : statementRules.Nodup := by decide
  have hmisses : ∀ other ∈ before.map Matcher.rule, other.Misses (read scope) p p.skip := by
    intro other ho
    obtain ⟨rule, hrule, rfl⟩ := List.mem_map.mp ho
    have hmem : rule ∈ statementRules := hsplit ▸ List.mem_append_left _ hrule
    rw [hsplit] at hdistinct
    refine (declines_other derived hp.skip rule hmem ?_).misses
    exact (List.nodup_append.mp hdistinct).2.2 rule hrule t.form List.mem_cons_self
  obtain ⟨_, _, q, hfinds, hq⟩ := h.finds hp Grammar.statement .begin _ hm (by decide) hmisses
  have hkind : statementForms.contains t.form.kind := by
    have hall : statementRules.all (statementForms.contains ·.kind) := by decide
    exact List.all_eq_true.mp hall _ derived.form_mem
  have rform : Reads scope.context Grammar.statement (accept scope.context statementForms .done) .begin p _ .done q :=
    .accept hfinds hkind
  refine ⟨q, hq, ?_⟩
  rw [read_eq_body]
  refine wrap_ok (Reads.run scope.context .done ?_)
  exact rform.expectStatement rfl

end Rule

open Rule in
/-- A statement is read from every text from which it is derived. -/
theorem Stmt.Derived.readsText {scope : Scope} {t : Stmt} {u : String} (h : t.Derived scope u) :
    t.ReadsText scope u.toList := by
  induction h with
  | assign named free found ty whole joined =>
    intro z _
    exact readsText_statement (.assign named free found ty whole joined)
      (readsText_assignment named free found ty whole joined z)
  | ret ty whole joined =>
    intro z _
    exact readsText_statement (.ret ty whole joined) (readsText_return ty whole joined z)
  | expr whole joined =>
    intro z _
    exact readsText_statement (.expr whole joined) (readsText_expressionStatement whole joined z)
  | empty joined =>
    intro z _
    exact readsText_statement (.empty joined) (readsText_empty joined z)
  | block derived joined ih =>
    intro z _
    exact readsText_statement (.block derived joined) (readsText_block derived ih joined z)
  | branch ty whole first joined ih =>
    intro z hz
    have hnone := hz rfl
    refine readsText_statement (.branch ty whole first joined) (readsText_if ty whole joined ?_ ?_)
    · rintro _ ⟨⟩
      exact ih z fun _ => hnone
    · rintro _ ⟨⟩ q rfl
      exact ⟨q, rfl, reads_without_else hnone⟩
  | branchElse ty whole first closed second joined ihThen ihElse =>
    intro z hz
    refine readsText_statement (.branchElse ty whole first closed second joined) (readsText_if ty whole joined ?_ ?_)
    · intro more _
      refine ihThen (more ++ z) fun hd => ?_
      rw [closed] at hd
      cases hd
    · intro more hmore q hq
      exact reads_else second ihElse hz hmore hq

/-! ### The declaration -/

open Grammar (DeclarationState)

/-- The names of a declaration, which may be among those before. -/
theorem reads_names_joined (ctx : Context) {z : List Char} : ∀ {listed : List String} (seen : List String) {p : Place}
    {u : List Char}, listed ≠ [] → (∀ name ∈ listed, isName name ∧ isKeyword name = false) →
    Joined (nameWords listed ++ [";"]) u → p.Shows (u ++ z) → ∃ q, q.rest = z ∧ ∀ n, listed.length ≤ n →
      Reads ctx Grammar.declaration (declaredNames ctx n seen.eraseDups) .pre p (seen ++ listed).eraseDups .done q
  | [], _, _, _, hne, _, _, _ => absurd rfl hne
  | [name], seen, p, u, _, hnames, joined, hp => by
    obtain ⟨named, free⟩ := hnames name List.mem_cons_self
    obtain ⟨u₁, h₁, hname⟩ := joined.fronts_word (solid_of_isName named) (by decide) z
    obtain ⟨position, q₁, rname, hq₁⟩ := Reads.front ctx Grammar.declaration .pre [.name] .post (hp.fronts hname) (by decide)
      (by decide) (find?_declared named) rfl
    obtain ⟨_, q, rend, hq⟩ := Reads.front ctx Grammar.declaration .post [.semicolon] .done
      (hq₁ ▸ h₁.fronts_last (by decide) (by decide) z) (by decide) (by decide) rfl rfl
    refine ⟨q, hq, fun n hn => ?_⟩
    obtain ⟨n, rfl⟩ : ∃ k, n = k + 1 := ⟨n - 1, by simp at hn; omega⟩
    refine rname.expect.bind ?_
    simp only [free, Bool.false_eq_true, if_false, ← eraseDups_append_singleton]
    exact rend.bind (.pure _)
  | name :: other :: listed, seen, p, u, _, hnames, joined, hp => by
    obtain ⟨named, free⟩ := hnames name List.mem_cons_self
    rw [List.append_cons seen name]
    rw [nameWords, List.intersperse_cons_cons, List.cons_append, List.cons_append] at joined
    obtain ⟨u₁, h₁, hname⟩ := joined.fronts_word (solid_of_isName named) (by decide) z
    obtain ⟨position, q₁, rname, hq₁⟩ := Reads.front ctx Grammar.declaration .pre [.name] .post (hp.fronts hname) (by decide)
      (by decide) (find?_declared named) rfl
    obtain ⟨u₂, h₂, hcomma⟩ := h₁.fronts_sign (by decide) (by decide) z
    obtain ⟨_, q₂, rcomma, hq₂⟩ := Reads.front ctx Grammar.declaration .post [.comma] .pre (hq₁ ▸ hcomma) (by decide)
      (by decide) rfl rfl
    have hno : Reads ctx Grammar.declaration (accept ctx [.semicolon] .done) .post q₁ none .post q₁ :=
      .other_front (hq₁ ▸ hcomma) (by decide) (by decide) rfl
    obtain ⟨q, hq, rmore⟩ := reads_names_joined ctx (seen ++ [name]) (List.cons_ne_nil other listed)
      (fun n hn => hnames n (List.mem_cons_of_mem name hn)) h₂ (Place.shows_of_rest hq₂)
    refine ⟨q, hq, fun n hn => ?_⟩
    rw [List.length_cons] at hn
    obtain ⟨n, rfl⟩ := Nat.exists_eq_add_of_le' (show 1 ≤ n by omega)
    refine rname.expect.bind ?_
    simp only [free, Bool.false_eq_true, if_false, ← eraseDups_append_singleton]
    exact hno.bind (rcomma.expect.bind (rmore n (by omega)))

theorem fronts_names {listed : List String} (hne : listed ≠ [])
    (hnames : ∀ name ∈ listed, isName name ∧ isKeyword name = false) {u : List Char}
    (joined : Joined (nameWords listed ++ [";"]) u) (z : List Char) : ∃ w tail, Fronts (u ++ z) w tail ∧ Begins w := by
  obtain ⟨name, listed, rfl⟩ := List.exists_cons_of_ne_nil hne
  have hname := hnames name List.mem_cons_self
  have hsolid := solid_of_isName hname.1
  cases listed with
  | nil =>
    obtain ⟨_, -, hfront⟩ := joined.fronts_word hsolid (by decide) z
    exact ⟨_, _, hfront, .inl (.inl hname)⟩
  | cons other listed =>
    obtain ⟨_, -, hfront⟩ := joined.fronts_word hsolid (by decide) z
    exact ⟨_, _, hfront, .inl (.inl hname)⟩

theorem Rule.readsText_declaration {scope : Scope} {listed : List String} {u : List Char} (hne : listed ≠ [])
    (hnames : ∀ name ∈ listed, isName name ∧ isKeyword name = false) (joined : Joined (Stmt.declare listed).words u)
    (z : List Char) : declaration.ReadsText scope (.stmt (.declare listed.eraseDups)) u z := by
  intro p hp
  have hsolid := solid_declare fun name hname => (hnames name hname).1
  rw [Stmt.words, List.cons_append] at joined hsolid
  obtain ⟨u, joined, hrest⟩ := joined.of_shows (by decide) hp
  have hlen : listed.length ≤ p.rest.length + 1 := by
    have := joined.length_le fun w hw => (hsolid w hw).1
    simp only [List.length_cons, List.length_append, nameWords, List.length_intersperse, hrest] at this ⊢
    omega
  obtain ⟨u₁, h₁, hword⟩ := joined.fronts_keyword (by decide) (by decide) (z := z) fun text htext =>
    ⟨htext.ne_nil (w := ";") (by simp) (by decide), fronts_names hne hnames htext z⟩
  obtain ⟨_, q₁, rword, hq₁⟩ := Reads.front scope.context Grammar.declaration .begin [.varWord] .pre (hrest ▸ hword)
    (by decide) (by decide) rfl rfl
  obtain ⟨q, hq, rnames⟩ := reads_names_joined scope.context [] hne hnames h₁ (Place.shows_of_rest hq₁)
  refine ⟨q, hq, ?_⟩
  rw [read_eq_body]
  refine wrap_ok (Reads.run scope.context .done ?_)
  exact rword.expect.bind ((rnames _ hlen).bind (.pure _))

/-! ### Whole programs -/

/-- The statements of a program, up to the blanks at its end. -/
theorem reads_programBody_parts {scope : Scope} {gap : List Char} (hg : ∀ c ∈ gap, isBlank c)
    {parts : List (Stmt × String)} (derived : ∀ part ∈ parts, part.1.Derived scope part.2) {p : Place} {u : List Char}
    (joined : Joined (parts.map Prod.snd) u) (hp : p.Shows (u ++ gap)) : ∃ q, ∀ n, parts.length + 1 ≤ n →
      Reads scope.context Grammar.program (programBody scope.context n) .body p (parts.map Prod.fst) .body q := by
  induction parts generalizing p u with
  | nil =>
    cases joined
    have hend := Reads.atEnd_skip scope.context Grammar.program .body p
    have hempty : p.skip.rest = [] := by
      rw [p.rest_skip, hp, List.nil_append, ← List.append_nil gap, List.dropWhile_append_of_pos hg]
      rfl
    rw [hempty] at hend
    refine ⟨p.skip, fun n hn => ?_⟩
    obtain ⟨n, rfl⟩ := Nat.exists_eq_add_of_le' (show 1 ≤ n by omega)
    exact hend.bind (.pure [])
  | cons part parts ih =>
    obtain ⟨first, derived⟩ := List.forall_mem_cons.mp derived
    obtain ⟨text, hmore, hshows⟩ := joined.shows hp
    have hend := Reads.atEnd_skip scope.context Grammar.program .body p
    have hempty : p.skip.rest.isEmpty = false := by
      obtain ⟨w, tail, hfront, -⟩ := first.fronts (text ++ gap)
      rw [p.rest_skip, hshows, hfront.front]
      simp [hfront.solid.1]
    rw [hempty] at hend
    have hnoElse : Grammar.ifStatement.ahead? .postBlock (text ++ gap) = none :=
      ahead?_parts rfl (by decide) derived hmore (ahead?_blank hg rfl)
    obtain ⟨q₁, rfirst, hq₁⟩ := first.readsText.reads (fun _ => hnoElse) hshows.skip Grammar.program .body .body
      rfl (by decide)
    obtain ⟨q, rmore⟩ := ih derived hmore (Place.shows_of_rest hq₁)
    refine ⟨q, fun n hn => ?_⟩
    rw [List.length_cons] at hn
    obtain ⟨n, rfl⟩ := Nat.exists_eq_add_of_le' (show 1 ≤ n by omega)
    exact hend.bind (rfirst.bind ((rmore n (by omega)).bind (.pure _)))

/-- The declaration, if there is one, before what does not begin with one. -/
theorem reads_programLocals_joined (scope : Scope) {listed : List String} {ws : List String} {u z : List Char} {p : Place}
    (hnames : ∀ name ∈ listed, isName name ∧ isKeyword name = false)
    (joined : Joined (Program.declarationWords listed ++ ws) u) (hp : p.rest = u ++ z)
    (hws : ∀ text, Joined ws text → Grammar.declaration.ahead? .begin (text ++ z) = none) :
    ∃ state q text, Joined ws text ∧ q.rest = text ++ z ∧
      Reads scope.context Grammar.program (programLocals scope.context) .begin p listed.eraseDups state q := by
  cases listed with
  | nil =>
    have hdeclines : Rule.declaration.DeclinesAt scope p.skip := by
      refine Rule.declines_declaration ?_
      rw [Grammar.ahead?, (Place.shows_of_rest hp).skip]
      exact hws u joined
    have hnothing : Finds scope.context.rules Grammar.program .begin p none :=
      finds_none (by decide) fun form hform => by cases List.mem_singleton.mp hform; exact hdeclines.misses
    have hno : Reads scope.context Grammar.program (accept scope.context [.declaration] .body) .begin p none .begin p :=
      .accept_none hnothing rfl
    exact ⟨.begin, p, u, joined, hp, hno.bind (.pure [])⟩
  | cons name listed =>
    obtain ⟨u₁, text, rfl, h₁, hws⟩ := joined.split
    rw [List.append_assoc] at hp
    have hreads : Rule.declaration.ReadsText scope _ u₁ (text ++ z) :=
      Rule.readsText_declaration (List.cons_ne_nil name listed) hnames h₁ (text ++ z)
    obtain ⟨_, _, q, hfinds, hq⟩ := hreads.finds (Place.shows_of_rest hp) Grammar.program .begin [] rfl (by decide) (by simp)
    have hread : Reads scope.context Grammar.program (accept scope.context [.declaration] .body) .begin p _ .body q :=
      .accept hfinds rfl
    exact ⟨.body, q, text, hws, hq, hread.bind (.pure _)⟩

/-- A text is read as the program that is derived from it, unless no statement of it returns for certain. -/
theorem Program.Derived.read {scope : Scope} {p : Program} {text : String} (h : p.Derived scope text) :
    Program.read scope text = if Stmt.anyReturns p.body then .ok (p, scope.declareAll p.locals)
      else .error (.error .unreachableReturn) := by
  obtain @⟨listed, body, _, front, gap, names, derived, joined, blank, whole⟩ := h
  have hwords : ∀ text, Joined (body.map Prod.snd) text → Grammar.declaration.ahead? .begin (text ++ gap) = none :=
    fun text htext => ahead?_parts rfl (by decide) derived htext (ahead?_blank blank rfl)
  obtain ⟨state, q, rest, hrest, hq, rlocals⟩ := reads_programLocals_joined scope (p := .start text.toList) names joined
    whole hwords
  obtain ⟨q', rbody⟩ := reads_programBody_parts blank derived hrest (Place.shows_of_rest hq)
  have hlen : body.length + 1 ≤ q.rest.length + 1 := by
    have := hrest.length_le fun w hw => by
      obtain ⟨part, hpart, rfl⟩ := List.mem_map.mp hw
      exact (derived part hpart).ne_nil
    simp only [List.length_map, hq, List.length_append] at this ⊢
    omega
  have hfirst : (programLocals scope.context).run Grammar.program (.ofString text) = .ok (listed.eraseDups, .ofPlace q) :=
    Reads.run scope.context state rlocals
  have hsecond : Reader.run (do
      Reader.setState .body
      programBody (scope.declareAll listed.eraseDups).context (q.rest.length + 1)) Grammar.program (.ofPlace q) =
        .ok (body.map Prod.fst, .ofPlace q') :=
    Reads.run (scope.declareAll listed.eraseDups).context Grammar.ProgramState.body
      ((Reads.setState Grammar.ProgramState.body).bind (rbody _ hlen))
  unfold Program.read
  rw [hfirst]
  change (Reader.run _ _ _ >>= _) = _
  rw [show (Cursor.ofPlace q).rest = q.rest from rfl, hsecond]
  rfl

end HostScript
