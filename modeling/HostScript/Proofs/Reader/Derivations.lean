import HostScript.Proofs.Reader.Expressions

/-! Every program that is read is derived from its text by the grammar.

A derivation cuts a text into pieces, words of the language and texts of parts, of which each is derived
in turn; nothing but blanks stands between them. Rules read rules inside them on cursors of their own, so
what a rule derives at some depth follows from what the rules derive one level down. An `else` is left to
the nearest `if`: where a statement ends with an `if` without one, none comes next. -/

namespace HostScript

open TokenStream Reader

/-! ### Derivations -/

/-- The texts from which a statement is derived. -/
inductive Stmt.Derived (scope : Scope) : Stmt → String → Prop
  | assign {target : Variable} {value : Expr} {v text : String} (named : isName target.name)
      (free : isKeyword target.name = false) (found : scope.variableNamed? target.name = some target)
      (ty : value.ty = target.ty) (whole : value.ReadWhole scope v)
      (joined : Joined [target.name, "=", v, ";"] text.toList) : Derived scope (.assign target value) text
  | ret {value : Expr} {v text : String} (ty : value.ty = .integer) (whole : value.ReadWhole scope v)
      (joined : Joined ["return", v, ";"] text.toList) : Derived scope (.ret value) text
  | expr {value : Expr} {v text : String} (whole : value.ReadWhole scope v) (joined : Joined [v, ";"] text.toList) :
      Derived scope (.expr value) text
  | empty {text : String} (joined : Joined [";"] text.toList) : Derived scope .empty text
  | block {body : List (Stmt × String)} {text : String} (derived : ∀ part ∈ body, Derived scope part.1 part.2)
      (joined : Joined ("\x7b" :: body.map Prod.snd ++ ["\x7d"]) text.toList) :
      Derived scope (.block (body.map Prod.fst)) text
  | branch {condition : Expr} {thenBranch : Stmt} {c t text : String} (ty : condition.ty = .boolean)
      (whole : condition.ReadWhole scope c) (first : Derived scope thenBranch t)
      (joined : Joined ["if", "(", c, ")", t] text.toList) :
      Derived scope (.branch condition (condition.fold.bind Value.boolean?) thenBranch none) text
  | branchElse {condition : Expr} {thenBranch elseBranch : Stmt} {c t e text : String} (ty : condition.ty = .boolean)
      (whole : condition.ReadWhole scope c) (first : Derived scope thenBranch t) (closed : thenBranch.dangling = false)
      (second : Derived scope elseBranch e) (joined : Joined ["if", "(", c, ")", t, "else", e] text.toList) :
      Derived scope (.branch condition (condition.fold.bind Value.boolean?) thenBranch (some elseBranch)) text

/-- Whatever text the words are joined to, the statement is derived from it. -/
def Stmt.MadeOf (scope : Scope) (t : Stmt) (ws : List String) : Prop :=
  ∀ text : String, Joined ws text.toList → t.Derived scope text

/-- The texts from which a program is derived: at most one declaration, of which each name counts once,
    then statements. -/
inductive Program.Derived (scope : Scope) : Program → String → Prop
  | mk {listed : List String} {body : List (Stmt × String)} {text : String} {front gap : List Char}
      (names : ∀ name ∈ listed, isName name ∧ isKeyword name = false)
      (derived : ∀ part ∈ body, part.1.Derived (scope.declareAll listed.eraseDups) part.2)
      (joined : Joined (declarationWords listed ++ body.map Prod.snd) front) (blank : ∀ c ∈ gap, isBlank c)
      (whole : text.toList = front ++ gap) : Derived scope ⟨listed.eraseDups, body.map Prod.fst⟩ text

namespace Stmt.Derived

variable {scope : Scope} {t : Stmt} {text : String}

/-- Blanks before a statement change nothing. -/
theorem blank {u gap : List Char} (hg : ∀ c ∈ gap, isBlank c) (h : t.Derived scope (String.ofList u)) :
    t.Derived scope (String.ofList (gap ++ u)) := by
  have hjoined {w : String} {ws : List String} (h : Joined (w :: ws) (String.ofList u).toList) :
      Joined (w :: ws) (String.ofList (gap ++ u)).toList := by
    rw [String.toList_ofList] at h ⊢
    exact h.blank hg
  cases h with
  | assign named free found ty whole joined => exact .assign named free found ty whole (hjoined joined)
  | ret ty whole joined => exact .ret ty whole (hjoined joined)
  | expr whole joined => exact .expr whole (hjoined joined)
  | empty joined => exact .empty (hjoined joined)
  | block derived joined => exact .block derived (hjoined joined)
  | branch ty whole first joined => exact .branch ty whole first (hjoined joined)
  | branchElse ty whole first closed second joined => exact .branchElse ty whole first closed second (hjoined joined)

/-- A statement ends with a semicolon or a brace. -/
theorem ended (h : t.Derived scope text) : Ended text := by
  have hlast {w : String} {ws : List String} {text : String} (h : Joined (ws ++ [w]) text.toList) (hw : Ended w) :
      Ended text := by
    obtain ⟨c, hc, hname⟩ := hw
    exact ⟨c, h.getLast? hc, hname⟩
  have hsemicolon : Ended ";" := ended_of_isSign (by decide)
  induction h with
  | @assign target value v text _ _ _ _ _ joined =>
    exact hlast (show Joined ([target.name, "=", v] ++ [";"]) _ from joined) hsemicolon
  | @ret value v text _ _ joined => exact hlast (show Joined (["return", v] ++ [";"]) _ from joined) hsemicolon
  | @expr value v text _ joined => exact hlast (show Joined ([v] ++ [";"]) _ from joined) hsemicolon
  | @empty text joined => exact hlast (show Joined ([] ++ [";"]) _ from joined) hsemicolon
  | block derived joined => exact hlast joined (ended_of_isSign (by decide))
  | @branch condition thenBranch c t text _ _ _ joined ih =>
    exact hlast (show Joined (["if", "(", c, ")"] ++ [t]) _ from joined) ih
  | @branchElse condition thenBranch elseBranch c t e text _ _ _ _ _ joined _ ih =>
    exact hlast (show Joined (["if", "(", c, ")", t, "else"] ++ [e]) _ from joined) ih

end Stmt.Derived

/-! ### Rules that derive what they read -/

/-- The keyword `else` comes next. -/
def elseAhead (text : List Char) : Bool := (Grammar.ifStatement.ahead? .postBlock text).isSome

/-- The statement is derived from the text between two places, and takes an `else` that it can take. -/
def Stmt.DerivedAt (scope : Scope) (t : Stmt) (p q : Place) : Prop :=
  ∃ u, p.Spans u q ∧ t.Derived scope (String.ofList u) ∧ (t.dangling → elseAhead q.rest = false)

/-- The rule derives what it read between two places. -/
def Rule.Derives (scope : Scope) (payload : Payload) (p q : Place) : Rule → Prop
  | expression => ∃ e u, payload = .expr e ∧ p.Spans u q ∧ e.ReadWhole scope (String.ofList u)
  | declaration => ∃ listed, payload = .stmt (.declare listed.eraseDups) ∧ listed ≠ [] ∧
      (∀ name ∈ listed, isName name ∧ isKeyword name = false) ∧ p.Words (Stmt.declare listed).words q
  | statement | assignment | returnStatement | ifStatement | blockStatement =>
    ∃ t, payload = .stmt t ∧ t.DerivedAt scope p q

theorem Rule.Derives.reaches {scope : Scope} {payload : Payload} {p q : Place} {rule : Rule}
    (h : rule.Derives scope payload p q) : p.Reaches q := by
  cases rule with
  | expression =>
    obtain ⟨_, _, -, hu, -⟩ := h
    exact hu.reaches
  | declaration =>
    obtain ⟨_, -, -, -, _, hu, -⟩ := h
    exact hu.reaches
  | _ =>
    obtain ⟨_, -, _, hu, -⟩ := h
    exact hu.reaches

/-- Every read that ends well derives its tree from the text that it consumed. -/
def RuleReader.Derives (scope : Scope) (rules : RuleReader) : Prop :=
  ∀ rule p payload behind, rules rule (.ofPlace p) = .ok (payload, behind) →
    ∃ q, behind = .ofPlace q ∧ rule.Derives scope payload p q

/-! ### Moves -/

namespace Reader

variable {S : Type} [DecidableEq S] {ctx : Context} {g : Grammar S} {state next : S} {p : Place} {s s' : TokenStream S}
  {kinds : List TokenKind}

/-- The stream goes on where the rule stopped. -/
theorem accept_rule (hr : ctx.rules.Derives ctx.scope) (hs : Stands ctx.rules g state p s) {token : Token}
    (h : accept ctx kinds next s = .ok (some token) s') (rules : List Rule)
    (hm : ∀ form ∈ g.matchers state, form.kind ∈ kinds → form ∈ rules.map .rule) :
    ∃ rule ∈ rules, ∃ q, rule.Derives ctx.scope token.payload p.skip q ∧ p.skip.Spans token.text.toList q ∧
      Passes ctx.rules g p [token.text] q ∧ s' = fresh g next q := by
  obtain ⟨q, form, hmem, hkind, hk, ha, hpasses, hs'⟩ := accept_some hs h
  obtain ⟨-, _, hq, hspans⟩ := Matcher.spans_of_attempt ha
  cases hq
  obtain ⟨rule, hrule, rfl⟩ := List.mem_map.mp (hm form hmem (hkind ▸ hk))
  obtain ⟨payload, inner, text, q', hread, hcut, rfl, hbehind⟩ := Rule.attempt_eq_token ha
  cases hbehind
  obtain ⟨r, rfl, hderives⟩ := hr rule _ _ _ hread
  obtain ⟨front, hcut'⟩ := hderives.reaches.cut?_eq
  rw [show (Cursor.ofPlace r).committed = r from rfl, hcut'] at hcut
  cases hcut
  exact ⟨rule, hrule, _, hderives, hspans, hpasses, hs'⟩

theorem expectExpression_derives (hr : ctx.rules.Derives ctx.scope) (hs : Stands ctx.rules g state p s)
    (hm : ∀ form ∈ g.matchers state, form.kind ∈ [.expression] → form ∈ [Rule.expression].map .rule) {e : Expr}
    {position : Position} (h : expectExpression ctx next s = .ok (e, position) s') :
    ∃ v q, Passes ctx.rules g p [v] q ∧ e.ReadWhole ctx.scope v ∧ s' = fresh g next q := by
  obtain ⟨token, ha, hp⟩ := expectExpression_eq_ok h
  obtain ⟨rule, hrule, q, hderives, hspans, hpasses, hs'⟩ := accept_rule hr hs ha [.expression] hm
  cases List.mem_singleton.mp hrule
  obtain ⟨e', u, he, hu, hwhole⟩ := hderives
  rw [hp] at he
  cases he
  rw [hu.text_eq hspans, String.ofList_toList] at hwhole
  exact ⟨_, q, hpasses, hwhole, hs'⟩

theorem expectStatement_derives (hr : ctx.rules.Derives ctx.scope) (hs : Stands ctx.rules g state p s)
    (hm : ∀ form ∈ g.matchers state, form.kind ∈ kinds →
      form ∈ [Rule.statement, .assignment, .returnStatement, .ifStatement, .blockStatement].map .rule) {t : Stmt}
    (h : expectStatement ctx kinds next s = .ok t s') :
    ∃ u q, Passes ctx.rules g p [u] q ∧ t.Derived ctx.scope u ∧ (t.dangling → elseAhead q.rest = false) ∧
      s' = fresh g next q := by
  obtain ⟨token, ha, hp⟩ := expectStatement_eq_ok h
  obtain ⟨rule, hrule, q, hderives, hspans, hpasses, hs'⟩ := accept_rule hr hs ha _ hm
  have hstmt : ∃ t', token.payload = .stmt t' ∧ t'.DerivedAt ctx.scope p.skip q := by
    simp only [List.mem_cons, List.not_mem_nil, or_false] at hrule
    rcases hrule with rfl | rfl | rfl | rfl | rfl <;> exact hderives
  obtain ⟨t', ht', u, hu, hderived, hdangling⟩ := hstmt
  rw [hp] at ht'
  cases ht'
  rw [hu.text_eq hspans, String.ofList_toList] at hderived
  exact ⟨_, q, hpasses, hderived, hdangling, hs'⟩

end Reader

/-! ### Statements -/

namespace Reader

open Grammar (DeclarationState BlockState IfState)

variable {ctx : Context} {p : Place} {behind : Cursor} {t : Stmt}

/-- The statement is made of the words that are passed from one place to another, and takes an `else` that
    it can take. -/
def MadeAt {S : Type} [DecidableEq S] (ctx : Context) (g : Grammar S) (t : Stmt) (p q : Place) : Prop :=
  ∃ ws, Passes ctx.rules g p ws q ∧ t.MadeOf ctx.scope ws ∧ (t.dangling → elseAhead q.rest = false)

theorem MadeAt.derivedAt {S : Type} [DecidableEq S] {g : Grammar S} {q : Place} (h : MadeAt ctx g t p q) :
    t.DerivedAt ctx.scope p q := by
  obtain ⟨ws, hpasses, hmade, hdangling⟩ := h
  obtain ⟨u, hu, hjoined⟩ := hpasses.words
  exact ⟨u, hu, hmade _ (by rwa [String.toList_ofList]), hdangling⟩

theorem derives_assignment (hr : ctx.rules.Derives ctx.scope) (h : assignment ctx (.ofPlace p) = .ok (t, behind)) :
    ∃ q, behind = .ofPlace q ∧ MadeAt ctx Grammar.assignment t p q := by
  obtain ⟨s', hrun, rfl⟩ := run_eq_ok h
  obtain ⟨name, s₁, ha, h⟩ := EStateM.ok_of_bind hrun
  obtain ⟨w, q₁, hw, hname, rfl⟩ := accept_word (stands_fresh ctx.rules Grammar.assignment .begin p) (expect_eq_ok ha)
    (show ∀ form ∈ Grammar.assignment.matchers .begin, _ → form = .terminal .reference by decide)
  obtain ⟨named, free⟩ := hw.reference
  obtain ⟨_, s₂, ha, h⟩ := EStateM.ok_of_bind h
  obtain ⟨q₂, hsign, rfl⟩ := accept_sign (stands_fresh ..) (expect_eq_ok ha) "=" (by decide)
  obtain ⟨target, s₃, hres, h⟩ := EStateM.ok_of_bind h
  obtain ⟨hfound, rfl⟩ := resolveVariable_eq_ok hres
  obtain ⟨⟨value, position⟩, s₄, hread, h⟩ := EStateM.ok_of_bind h
  obtain ⟨v, q₃, hvalue, hwhole, rfl⟩ := expectExpression_derives hr (stands_fresh ..) (by decide) hread
  obtain ⟨_, s₅, ha, h⟩ := EStateM.ok_of_bind h
  obtain ⟨q, hend, rfl⟩ := accept_sign (stands_fresh ..) (expect_eq_ok ha) ";" (by decide)
  obtain ⟨hmk, rfl⟩ := locate_eq_ok h
  obtain ⟨hty, rfl⟩ := Stmt.mkAssign_eq_ok.mp hmk
  have hsame : target.name = name.text := by simpa using List.find?_some hfound
  rw [← hsame] at named free hname hfound
  have hwords := hname.append_sign (hsign.sign_append (hvalue.append_sign hend (by decide)) (by decide)) (by decide)
  exact ⟨q, rfl, _, hwords, fun _ => .assign named free hfound hty hwhole, by simp [Stmt.dangling]⟩

theorem derives_returnStatement (hr : ctx.rules.Derives ctx.scope)
    (h : returnStatement ctx (.ofPlace p) = .ok (t, behind)) :
    ∃ q, behind = .ofPlace q ∧ MadeAt ctx Grammar.returnStatement t p q := by
  obtain ⟨s', hrun, rfl⟩ := run_eq_ok h
  obtain ⟨_, s₁, ha, h⟩ := EStateM.ok_of_bind hrun
  obtain ⟨q₁, hword, hends, rfl⟩ := accept_keyword (stands_fresh ctx.rules Grammar.returnStatement .begin p)
    (expect_eq_ok ha) "return" (by decide)
  obtain ⟨⟨value, position⟩, s₂, hread, h⟩ := EStateM.ok_of_bind h
  obtain ⟨v, q₂, hvalue, hwhole, rfl⟩ := expectExpression_derives hr (stands_fresh ..) (by decide) hread
  obtain ⟨_, s₃, ha, h⟩ := EStateM.ok_of_bind h
  obtain ⟨q, hend, rfl⟩ := accept_sign (stands_fresh ..) (expect_eq_ok ha) ";" (by decide)
  obtain ⟨hmk, rfl⟩ := locate_eq_ok h
  obtain ⟨hty, rfl⟩ := Stmt.mkRet_eq_ok.mp hmk
  have hwords := hword.keyword_append (hvalue.append_sign hend (by decide)) hends
  exact ⟨q, rfl, _, hwords, fun _ => .ret hty hwhole, by simp [Stmt.dangling]⟩

theorem derives_blockBody (hr : ctx.rules.Derives ctx.scope) : ∀ {n : Nat} {p : Place} {s s' : TokenStream BlockState}
    {body : List Stmt}, Stands ctx.rules Grammar.blockStatement .inBlock p s → blockBody ctx n s = .ok body s' →
      ∃ (parts : List (Stmt × String)) (q : Place), body = parts.map Prod.fst ∧
        (∀ part ∈ parts, part.1.Derived ctx.scope part.2) ∧
        Passes ctx.rules Grammar.blockStatement p (parts.map Prod.snd ++ ["\x7d"]) q ∧
        s' = fresh Grammar.blockStatement .done q
  | 0, _, _, _, _, _, h => by cases h
  | n + 1, p, s, s', body, hs, h => by
    obtain ⟨closed, s₁, htest, h⟩ := EStateM.ok_of_bind h
    obtain ⟨found, hpeek, -⟩ := test_eq_ok htest
    obtain ⟨-, -, -, hs₁⟩ := hs.finds hpeek
    split at h
    · obtain ⟨_, s₂, ha, h⟩ := EStateM.ok_of_bind h
      obtain ⟨q, hend, rfl⟩ := accept_sign hs₁ (expect_eq_ok ha) "\x7d" (by decide)
      cases h
      exact ⟨[], q, rfl, by simp, hend, rfl⟩
    · obtain ⟨first, s₂, hfirst, h⟩ := EStateM.ok_of_bind h
      obtain ⟨u, q₁, hu, hderived, -, rfl⟩ := expectStatement_derives hr hs₁ (by decide) hfirst
      obtain ⟨rest, s₃, hrest, h⟩ := EStateM.ok_of_bind h
      obtain ⟨parts, q, rfl, hparts, hwords, rfl⟩ := derives_blockBody hr (stands_fresh ..) hrest
      cases h
      refine ⟨(first, u) :: parts, q, rfl, List.forall_mem_cons.mpr ⟨hderived, hparts⟩, ?_, rfl⟩
      exact hu.append_ended hwords hderived.ended

theorem derives_blockStatement (hr : ctx.rules.Derives ctx.scope)
    (h : blockStatement ctx (.ofPlace p) = .ok (t, behind)) :
    ∃ q, behind = .ofPlace q ∧ MadeAt ctx Grammar.blockStatement t p q := by
  obtain ⟨s', hrun, rfl⟩ := run_eq_ok h
  have hs := stands_fresh ctx.rules Grammar.blockStatement .begin p
  obtain ⟨brace, s₁, hbrace, h⟩ := EStateM.ok_of_bind hrun
  cases brace with
  | some brace =>
    obtain ⟨q₁, hopen, rfl⟩ := accept_sign hs hbrace "\x7b" (by decide)
    obtain ⟨body, s₂, hread, h⟩ := EStateM.ok_of_bind h
    obtain ⟨parts, q, rfl, hparts, hwords, rfl⟩ := derives_blockBody hr (stands_fresh ..) hread
    cases h
    exact ⟨q, rfl, _, hopen.sign_append hwords (by decide), fun _ => .block hparts, by simp [Stmt.dangling]⟩
  | none =>
    have hs₁ := Reader.accept_none hs hbrace
    obtain ⟨semicolon, s₂, hsemi, h⟩ := EStateM.ok_of_bind h
    cases semicolon with
    | some semicolon =>
      obtain ⟨q, hend, rfl⟩ := accept_sign hs₁ hsemi ";" (by decide)
      cases h
      exact ⟨q, rfl, _, hend, fun _ => .empty, by simp [Stmt.dangling]⟩
    | none =>
      have hs₂ := Reader.accept_none hs₁ hsemi
      obtain ⟨⟨value, position⟩, s₃, hread, h⟩ := EStateM.ok_of_bind h
      obtain ⟨v, q₁, hvalue, hwhole, rfl⟩ := expectExpression_derives hr hs₂ (by decide) hread
      obtain ⟨_, s₄, ha, h⟩ := EStateM.ok_of_bind h
      obtain ⟨q, hend, rfl⟩ := accept_sign (stands_fresh ..) (expect_eq_ok ha) ";" (by decide)
      cases h
      exact ⟨q, rfl, _, hvalue.append_sign hend (by decide), fun _ => .expr hwhole, by simp [Stmt.dangling]⟩

/-- An `else` is taken exactly where it comes next. -/
theorem accept_else {s s' : TokenStream IfState} {q : Place} {found : Option Token}
    (hs : Stands ctx.rules Grammar.ifStatement .postBlock q s) (h : accept ctx [.elseWord] .postElse s = .ok found s') :
    elseAhead q.rest = found.isSome := by
  have hfinds : Finds ctx.rules Grammar.ifStatement .postBlock q _ := finds_text q (by decide) (by decide)
  rcases accept_cases hs h with ⟨token, q', rfl, -, hf, -⟩ | ⟨rfl, -, hnone⟩
  · obtain ⟨found, hahead, -⟩ := Option.map_eq_some_iff.mp (hfinds.unique hf)
    rw [elseAhead, hahead]
    rfl
  · cases hahead : Grammar.ifStatement.ahead? .postBlock q.rest with
    | none =>
      rw [elseAhead, hahead]
      rfl
    | some found =>
      obtain ⟨kind, w, payload⟩ := found
      rw [hahead, Option.map_some] at hfinds
      obtain ⟨form, hmem, rfl, -⟩ := Matcher.find?_eq_some hahead
      cases List.mem_singleton.mp hmem
      exact absurd List.mem_cons_self (hnone _ _ hfinds)

theorem derives_ifStatement (hr : ctx.rules.Derives ctx.scope) (h : ifStatement ctx (.ofPlace p) = .ok (t, behind)) :
    ∃ q, behind = .ofPlace q ∧ MadeAt ctx Grammar.ifStatement t p q := by
  obtain ⟨s', hrun, rfl⟩ := run_eq_ok h
  obtain ⟨_, s₁, ha, h⟩ := EStateM.ok_of_bind hrun
  obtain ⟨q₁, hword, -, rfl⟩ := accept_keyword (stands_fresh ctx.rules Grammar.ifStatement .begin p)
    (expect_eq_ok ha) "if" (by decide)
  obtain ⟨_, s₂, ha, h⟩ := EStateM.ok_of_bind h
  obtain ⟨q₂, hopen, rfl⟩ := accept_sign (stands_fresh ..) (expect_eq_ok ha) "(" (by decide)
  obtain ⟨⟨condition, position⟩, s₃, hread, h⟩ := EStateM.ok_of_bind h
  obtain ⟨c, q₃, hcondition, hwhole, rfl⟩ := expectExpression_derives hr (stands_fresh ..) (by decide) hread
  obtain ⟨_, s₄, ha, h⟩ := EStateM.ok_of_bind h
  obtain ⟨q₄, hclose, rfl⟩ := accept_sign (stands_fresh ..) (expect_eq_ok ha) ")" (by decide)
  obtain ⟨thenBranch, s₅, hthen, h⟩ := EStateM.ok_of_bind h
  obtain ⟨u, q₅, hu, hfirst, hdangling, rfl⟩ := expectStatement_derives hr (stands_fresh ..) (by decide) hthen
  have hs := stands_fresh ctx.rules Grammar.ifStatement .postBlock q₅
  -- the words up to the first branch, in front of what stands behind it
  have hwords {ws : List String} {q : Place} (h : Passes ctx.rules Grammar.ifStatement q₄ (u :: ws) q) :
      Passes ctx.rules Grammar.ifStatement p ("if" :: "(" :: c :: ")" :: u :: ws) q :=
    hword.append_sign (hopen.sign_append (hcondition.append_sign (hclose.sign_append h (by decide)) (by decide))
      (by decide)) (by decide)
  obtain ⟨found, s₆, helse, h⟩ := EStateM.ok_of_bind h
  obtain ⟨word, s₇, ha, helse⟩ := EStateM.ok_of_bind helse
  have hahead := accept_else hs ha
  cases word with
  | some word =>
    obtain ⟨q₆, hword', hends, rfl⟩ := accept_keyword hs ha "else" (by decide)
    obtain ⟨elseBranch, s₈, hread', helse⟩ := EStateM.ok_of_bind helse
    obtain ⟨v, q, hv, hsecond, hopen', rfl⟩ := expectStatement_derives hr (stands_fresh ..) (by decide) hread'
    cases helse
    obtain ⟨hmk, rfl⟩ := locate_eq_ok h
    obtain ⟨hty, rfl⟩ := Stmt.mkBranch_eq_ok.mp hmk
    have hclosed : thenBranch.dangling = false := by
      cases hd : thenBranch.dangling with
      | false => rfl
      | true =>
        rw [hdangling hd] at hahead
        cases hahead
    have helse := hu.append_ended (hword'.keyword_append hv hends) hfirst.ended
    exact ⟨q, rfl, _, hwords helse, fun _ => .branchElse hty hwhole hfirst hclosed hsecond, hopen'⟩
  | none =>
    have hs₇ := Reader.accept_none hs ha
    obtain ⟨_, s₈, hset, helse⟩ := EStateM.ok_of_bind helse
    obtain ⟨-, hs₈⟩ := (Reads.setState IfState.done).eq hs₇ hset
    cases helse
    obtain ⟨hmk, rfl⟩ := locate_eq_ok h
    obtain ⟨hty, rfl⟩ := Stmt.mkBranch_eq_ok.mp hmk
    exact ⟨q₅, hs₈.release, _, hwords hu, fun _ => .branch hty hwhole hfirst, fun _ => hahead⟩

theorem derives_statement (hr : ctx.rules.Derives ctx.scope) (h : statement ctx (.ofPlace p) = .ok (t, behind)) :
    ∃ q, behind = .ofPlace q ∧ MadeAt ctx Grammar.statement t p q := by
  obtain ⟨s', hrun, rfl⟩ := run_eq_ok h
  obtain ⟨u, q, hu, hderived, hdangling, rfl⟩ := expectStatement_derives hr
    (stands_fresh ctx.rules Grammar.statement .begin p) (by decide) hrun
  refine ⟨q, rfl, _, hu, fun text hjoined => ?_, hdangling⟩
  obtain ⟨gap, htext, hblank⟩ := hjoined.of_singleton
  rw [← String.ofList_toList (s := u)] at hderived
  rw [← String.ofList_toList (s := text), htext]
  exact hderived.blank hblank

/-! ### Declarations -/

/-- A name is added behind those before it unless it is one of them. -/
theorem eraseDups_append_singleton (seen : List String) (name : String) : (seen ++ [name]).eraseDups =
    if seen.eraseDups.contains name then seen.eraseDups else seen.eraseDups ++ [name] := by
  rw [List.eraseDups_append]
  by_cases h : name ∈ seen
  · simp [List.removeAll, h]
  · simp [List.removeAll, h, List.eraseDups_cons]

theorem derives_declaredNames : ∀ {n : Nat} {p : Place} {s s' : TokenStream DeclarationState} {seen names : List String},
    Stands ctx.rules Grammar.declaration .pre p s → declaredNames ctx n seen.eraseDups s = .ok names s' →
      ∃ (listed : List String) (q : Place), names = (seen ++ listed).eraseDups ∧ listed ≠ [] ∧
        (∀ name ∈ listed, isName name ∧ isKeyword name = false) ∧
        Passes ctx.rules Grammar.declaration p (nameWords listed ++ [";"]) q ∧ s' = fresh Grammar.declaration .done q
  | 0, _, _, _, _, _, _, h => by cases h
  | n + 1, p, s, s', seen, names, hs, h => by
    obtain ⟨name, s₁, ha, h⟩ := EStateM.ok_of_bind h
    obtain ⟨w, q₁, ⟨matched, -, text⟩, hname, rfl⟩ := accept_word hs (expect_eq_ok ha)
      (show ∀ form ∈ Grammar.declaration.matchers .pre, _ → form = .terminal .name by decide)
    have named := Pattern.isName_of_match? matched
    rw [← text] at named
    split at h
    next => cases h
    next free =>
    have free : isKeyword name.text = false := by simpa using free
    rw [← eraseDups_append_singleton] at h
    obtain ⟨semicolon, s₂, ha, h⟩ := EStateM.ok_of_bind h
    cases semicolon with
    | some semicolon =>
      obtain ⟨q, hend, rfl⟩ := accept_sign (stands_fresh ..) ha ";" (by decide)
      cases h
      exact ⟨[name.text], q, rfl, by simp, by simpa using ⟨named, free⟩, hname.append_sign hend (by decide), rfl⟩
    | none =>
      have hs₂ := Reader.accept_none (stands_fresh ..) ha
      obtain ⟨_, s₃, ha, h⟩ := EStateM.ok_of_bind h
      obtain ⟨q₂, hcomma, rfl⟩ := accept_sign hs₂ (expect_eq_ok ha) "," (by decide)
      obtain ⟨listed, q, rfl, hne, hnames, hmore, rfl⟩ := derives_declaredNames (stands_fresh ..) h
      refine ⟨name.text :: listed, q, by simp, by simp, List.forall_mem_cons.mpr ⟨⟨named, free⟩, hnames⟩, ?_, rfl⟩
      obtain ⟨other, listed, rfl⟩ := List.exists_cons_of_ne_nil hne
      exact hname.append_sign (hcomma.sign_append hmore (by decide)) (by decide)

theorem derives_declaration (h : declaration ctx (.ofPlace p) = .ok (t, behind)) :
    ∃ listed q, behind = .ofPlace q ∧ t = .declare listed.eraseDups ∧ listed ≠ [] ∧
      (∀ name ∈ listed, isName name ∧ isKeyword name = false) ∧
      Passes ctx.rules Grammar.declaration p (Stmt.declare listed).words q := by
  obtain ⟨s', hrun, rfl⟩ := run_eq_ok h
  obtain ⟨_, s₁, ha, h⟩ := EStateM.ok_of_bind hrun
  obtain ⟨q₁, hword, hends, rfl⟩ := accept_keyword (stands_fresh ctx.rules Grammar.declaration .begin p)
    (expect_eq_ok ha) "var" (by decide)
  obtain ⟨names, s₂, hread, h⟩ := EStateM.ok_of_bind h
  have hread : declaredNames ctx _ ([] : List String).eraseDups (fresh Grammar.declaration .pre q₁) =
    .ok names s₂ := hread
  obtain ⟨listed, q, rfl, hne, hnames, hwords, rfl⟩ := derives_declaredNames (stands_fresh ..) hread
  cases h
  exact ⟨listed, q, rfl, rfl, hne, hnames, hword.keyword_append hwords hends⟩

end Reader

/-! ### Rules and programs -/

namespace Rule

variable {scope : Scope}

/-- The rules for statements differ only in the grammar and the reader. -/
theorem derives_stmt {S : Type} [DecidableEq S] {ctx : Context} {g : Grammar S} {p : Place}
    {r : Except Stop (Stmt × Cursor)} {payload : Payload} {behind : Cursor} (h : wrap .stmt r = .ok (payload, behind))
    (hr : ∀ {t : Stmt}, r = .ok (t, behind) → ∃ q, behind = .ofPlace q ∧ MadeAt ctx g t p q) :
    ∃ q, behind = .ofPlace q ∧ ∃ t, payload = .stmt t ∧ t.DerivedAt ctx.scope p q := by
  obtain ⟨t, hread, rfl⟩ := wrap_eq_ok h
  obtain ⟨q, hq, hmade⟩ := hr hread
  exact ⟨q, hq, t, rfl, hmade.derivedAt⟩

theorem derives_body (ctx : Context) (ht : ctx.rules.Typed ctx.scope) (hr : ctx.rules.Derives ctx.scope) {rule : Rule}
    {p : Place} {payload : Payload} {behind : Cursor} (h : rule.body ctx (.ofPlace p) = .ok (payload, behind)) :
    ∃ q, behind = .ofPlace q ∧ rule.Derives ctx.scope payload p q := by
  cases rule with
  | expression =>
    obtain ⟨e, hread, rfl⟩ := wrap_eq_ok h
    obtain ⟨u, q, rfl, hu, hwhole⟩ := readWhole_of_expression ht hread
    exact ⟨q, rfl, e, u, rfl, hu, hwhole⟩
  | declaration =>
    obtain ⟨t, hread, rfl⟩ := wrap_eq_ok h
    obtain ⟨listed, q, hq, rfl, hne, hnames, hpasses⟩ := derives_declaration hread
    exact ⟨q, hq, listed, rfl, hne, hnames, hpasses.words⟩
  | statement => exact derives_stmt h (derives_statement hr)
  | assignment => exact derives_stmt h (derives_assignment hr)
  | returnStatement => exact derives_stmt h (derives_returnStatement hr)
  | ifStatement => exact derives_stmt h (derives_ifStatement hr)
  | blockStatement => exact derives_stmt h (derives_blockStatement hr)

theorem derives_readWithin : ∀ depth, (readWithin scope depth).Derives scope
  | 0 => fun _ _ _ _ h => by cases h
  | depth + 1 => fun _ _ _ _ h =>
    derives_body ⟨scope, readWithin scope depth⟩ (typed_readWithin depth) (derives_readWithin depth) h

theorem derives_read : (read scope).Derives scope := fun rule p _ _ h => derives_readWithin _ rule p _ _ h

end Rule

namespace Reader

open Grammar (ProgramState)

variable {ctx : Context} {p : Place}

theorem derives_programLocals (hr : ctx.rules.Derives ctx.scope) {names : List String} {behind : Cursor}
    (h : (programLocals ctx).run Grammar.program (.ofPlace p) = .ok (names, behind)) :
    ∃ listed q, names = listed.eraseDups ∧ behind = .ofPlace q ∧ p.Words (Program.declarationWords listed) q ∧
      ∀ name ∈ listed, isName name ∧ isKeyword name = false := by
  obtain ⟨s', hrun, rfl⟩ := run_eq_ok h
  have hs := stands_fresh ctx.rules Grammar.program .begin p
  obtain ⟨found, s₁, ha, h⟩ := EStateM.ok_of_bind hrun
  cases found with
  | some token =>
    obtain ⟨rule, hrule, q, hderives, -, -, rfl⟩ := accept_rule hr hs ha [.declaration] (by decide)
    cases List.mem_singleton.mp hrule
    obtain ⟨listed, hpayload, hne, hnames, hwords⟩ := hderives
    simp only [hpayload] at h
    cases h
    refine ⟨listed, q, rfl, rfl, ?_, hnames⟩
    rw [Program.declarationWords, if_neg (by simpa using hne)]
    exact .of_skip hwords
  | none =>
    have hs₁ := Reader.accept_none hs ha
    cases h
    exact ⟨[], p, rfl, hs₁.release, .nil p, by simp⟩

theorem derives_programBody (hr : ctx.rules.Derives ctx.scope) : ∀ {n : Nat} {p : Place}
    {s s' : TokenStream ProgramState} {body : List Stmt},
    Stands ctx.rules Grammar.program .body p s → programBody ctx n s = .ok body s' →
      ∃ (parts : List (Stmt × String)) (q : Place), body = parts.map Prod.fst ∧
        (∀ part ∈ parts, part.1.Derived ctx.scope part.2) ∧ p.Words (parts.map Prod.snd) q ∧ ∀ c ∈ q.rest, isBlank c
  | 0, _, _, _, _, _, h => by cases h
  | n + 1, p, s, s', body, hs, h => by
    obtain ⟨ended, s₁, hend, h⟩ := EStateM.ok_of_bind h
    have hatEnd : s.atEnd = (p.skip.rest.isEmpty, fresh Grammar.program .body p.skip) := by
      rw [TokenStream.atEnd, hs.revert]
      rfl
    change EStateM.Result.ok s.atEnd.1 s.atEnd.2 = _ at hend
    rw [hatEnd] at hend
    cases hend
    split at h
    next hempty =>
      cases h
      refine ⟨[], p, rfl, by simp, .nil p, ?_⟩
      have hrest := p.spans_skip.rest
      rw [List.isEmpty_iff.mp hempty, List.append_nil] at hrest
      rw [hrest]
      exact isBlank_of_mem_takeWhile
    next =>
      obtain ⟨first, s₂, hfirst, h⟩ := EStateM.ok_of_bind h
      obtain ⟨u, q₁, hu, hderived, -, rfl⟩ := expectStatement_derives hr (stands_fresh ..) (by decide) hfirst
      obtain ⟨rest, s₃, hrest, h⟩ := EStateM.ok_of_bind h
      obtain ⟨parts, q, rfl, hparts, hwords, hblank⟩ := derives_programBody hr (stands_fresh ..) hrest
      cases h
      refine ⟨(first, u) :: parts, q, rfl, List.forall_mem_cons.mpr ⟨hderived, hparts⟩, ?_, hblank⟩
      exact (Place.Words.of_skip hu.words).append_ended hwords hderived.ended

end Reader

namespace Program

/-- A declaration ends with its semicolon. -/
theorem parted_declarationWords {listed : List String} {u v : List Char} (h : Joined (declarationWords listed) u) :
    Parted u v := by
  unfold declarationWords at h
  split at h
  · cases h
    exact .of_last (by simp)
  · have h : Joined (("var" :: nameWords listed) ++ [";"]) u := h
    have hlast : u.getLast? = some ';' := h.getLast? rfl
    exact .of_last (by simp [hlast, isNameChar])

/-- A program that is read is derived from its text: its statements stand there one after the other, each
    cut into its own parts, and its locals are the declared names in the order in which they occur first. -/
theorem derived_of_read {scope scope' : Scope} {text : String} {p : Program} (h : read scope text = .ok (p, scope')) :
    p.Derived scope text := by
  obtain ⟨⟨names, cursor⟩, hlocals, h⟩ := Except.ok_of_bind h
  obtain ⟨⟨body, behind⟩, hbody, h⟩ := Except.ok_of_bind h
  dsimp only at h
  split at h
  next =>
    cases h
    obtain ⟨listed, q, rfl, rfl, hdeclaration, hnames⟩ := derives_programLocals Rule.derives_read hlocals
    obtain ⟨s', hrun, -⟩ := run_eq_ok hbody
    obtain ⟨_, s, hset, hrun⟩ := EStateM.ok_of_bind hrun
    obtain ⟨-, hs⟩ := (Reads.setState Grammar.ProgramState.body).eq (stands_fresh _ Grammar.program .begin q) hset
    obtain ⟨parts, q', rfl, hparts, hwords, hblank⟩ := derives_programBody Rule.derives_read hs hrun
    obtain ⟨front, hfront, hjoined⟩ := hdeclaration.append hwords fun _ _ _ hu _ => parted_declarationWords hu
    exact .mk hnames hparts hjoined hblank hfront.rest
  next => cases h

/-- The `else` goes to the inner `if`, so the outer one is left without; a name that is declared twice is
    one local. -/
theorem derived_of_read_nested : ∃ (p : Program) (scope : Scope),
    read { vars := [⟨"x", .parameter 0, .integer⟩] } "var a,b,a;if(x>0)if(x>1)a=1;else b=2;return a+b;" = .ok (p, scope) ∧
      p.locals = ["a", "b"] ∧ p.body.map Stmt.dangling = [true, false] ∧
      p.Derived { vars := [⟨"x", .parameter 0, .integer⟩] } "var a,b,a;if(x>0)if(x>1)a=1;else b=2;return a+b;" := by
  have hread : (read { vars := [⟨"x", .parameter 0, .integer⟩] }
      "var a,b,a;if(x>0)if(x>1)a=1;else b=2;return a+b;").toOption.map
        (fun (p, _) => (p.locals, p.body.map Stmt.dangling)) = some (["a", "b"], [true, false]) := by decide +kernel
  obtain ⟨⟨p, scope⟩, hp, hshape⟩ := Option.map_eq_some_iff.mp hread
  obtain ⟨hlocals, hbody⟩ := Prod.mk.inj hshape
  have h := Except.eq_ok_of_toOption hp
  exact ⟨p, scope, h, hlocals, hbody, derived_of_read h⟩

end Program
end HostScript
