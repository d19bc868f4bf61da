import HostScript.Proofs.Reader.Alternatives
import HostScript.Proofs.Reader.Parallel

/-! The order in which the forms of a statement are tried does not matter.

Rules are read once more with the forms of every statement, also of the statements inside statements, in
another order (`readBy`). Of the forms at one place at most one matches, and then none of the others ends
the read; so in any order the same token is found, or none, or some form ends the read. The two reads find
the same tokens at the same places from the first to the last. Where they fail, the reasons may differ,
but not whether another form may be tried. -/

namespace HostScript

open TokenStream Reader

/-! ### Another order -/

/-- The forms of a statement in the given order. -/
def Grammar.statementBy (order : List Rule) : Grammar StatementState where
  start := .begin
  stop := .done
  matchers
    | .begin => order.map .rule
    | .done => []

namespace Rule

/-- Read a rule, and if it is a statement, try its forms in the given order. -/
def bodyBy (order : List Rule) (rule : Rule) (ctx : Context) (cursor : Cursor) : Except Stop (Payload × Cursor) :=
  match rule with
  | statement => wrap .stmt ((expectStatement ctx statementForms .done).run (Grammar.statementBy order) cursor)
  | rule => rule.body ctx cursor

/-- The same to a given depth of rules inside rules. -/
def readWithinBy (order : List Rule) (scope : Scope) : Nat → RuleReader
  | 0 => fun _ _ => .error .exhausted
  | depth + 1 => fun rule cursor => rule.bodyBy order ⟨scope, readWithinBy order scope depth⟩ cursor

/-- Read one rule from the front of the text, all statements by the forms in the given order. -/
def readBy (order : List Rule) (scope : Scope) : RuleReader :=
  fun rule cursor => readWithinBy order scope (depth cursor) rule cursor

/-- The order of the grammar is one of them. -/
theorem readBy_statementRules (scope : Scope) : readBy statementRules scope = read scope := by
  have hwithin (depth : Nat) : readWithinBy statementRules scope depth = readWithin scope depth := by
    induction depth with
    | zero => rfl
    | succ depth ih =>
      funext rule cursor
      unfold readWithinBy readWithin
      rw [ih]
      cases rule with
      | _ => rfl
  funext rule cursor
  rw [readBy, hwithin]
  rfl

end Rule

/-! ### Forms -/

/-- What comes of two reads of one text: values that are related, or errors that both let another form be
    tried or both end the read. A read that runs out of steps says nothing. -/
inductive CommonFate {α β : Type} (V : α → β → Prop) : Except Stop α → Except Stop β → Prop
  | exhausted (r : Except Stop β) : CommonFate V (.error .exhausted) r
  | exhausted' (r : Except Stop α) : CommonFate V r (.error .exhausted)
  | ok {a : α} {b : β} (value : V a b) : CommonFate V (.ok a) (.ok b)
  | split : CommonFate V (.error .split) (.error .split)
  | error {c d : CompileError} (weight : c.isDefinitive = d.isDefinitive) :
      CommonFate V (.error (.error c)) (.error (.error d))

/-- Every rule has the same fate in both reads, wherever it is read. -/
def RuleReader.CommonFates (rules rules' : RuleReader) : Prop :=
  ∀ rule p, CommonFate Eq (rules rule (.ofPlace p)) (rules' rule (.ofPlace p))

/-- What comes of trying one form in both reads. -/
inductive CommonAttempt : Attempt → Attempt → Prop
  | exhausted (a : Attempt) : CommonAttempt (.stop .exhausted) a
  | exhausted' (a : Attempt) : CommonAttempt a (.stop .exhausted)
  | token (token : Token) (behind : Cursor) : CommonAttempt (.token token behind) (.token token behind)
  | failure (reason reason' : String) : CommonAttempt (.failure reason) (.failure reason')
  | split : CommonAttempt (.stop .split) (.stop .split)
  | error {c d : CompileError} (hc : c.isDefinitive) (hd : d.isDefinitive) :
      CommonAttempt (.stop (.error c)) (.stop (.error d))

namespace Matcher

variable {rules rules' : RuleReader}

theorem commonAttempt (hr : rules.CommonFates rules') (form : Matcher) (cursor : Cursor) :
    CommonAttempt (form.attempt rules cursor) (form.attempt rules' cursor) := by
  cases form with
  | terminal form =>
    unfold attempt Terminal.attempt
    dsimp only
    split
    · exact .failure _ _
    · split
      · exact .failure _ _
      · exact .token _ _
  | rule form =>
    have hread := hr form cursor.peeked
    simp only [attempt, Rule.attempt, Cursor.fork]
    generalize rules form (.ofPlace cursor.peeked) = r, rules' form (.ofPlace cursor.peeked) = r' at hread
    cases hread with
    | exhausted => exact .exhausted _
    | exhausted' => exact .exhausted' _
    | split => exact .split
    | @ok found _ value =>
      cases value
      obtain ⟨payload, behind⟩ := found
      dsimp only
      split
      · exact .token _ _
      · exact .split
    | @error c d weight =>
      dsimp only
      rw [weight]
      cases hd : d.isDefinitive with
      | true => exact .error (weight.trans hd) hd
      | false => exact .failure _ _

/-- The same forms in the same order. -/
theorem commonFate_scan (hr : rules.CommonFates rules') (cursor : Cursor) (forms : List Matcher) :
    CommonFate Eq (scan rules cursor forms).1 (scan rules' cursor forms).1 := by
  induction forms with
  | nil => exact .ok rfl
  | cons form forms ih =>
    have hattempt := form.commonAttempt hr cursor
    unfold scan
    generalize form.attempt rules cursor = a, form.attempt rules' cursor = a' at hattempt
    cases hattempt with
    | exhausted => exact .exhausted _
    | exhausted' => exact .exhausted' _
    | token token behind => exact .ok rfl
    | failure => exact ih
    | split => exact .split
    | error hc hd => exact .error (hc.trans hd.symm)

/-- What a scan comes to, whatever the order of the forms. -/
inductive Scanned (rules : RuleReader) (cursor : Cursor) (forms : List Matcher) :
    Except Stop (Option (Token × Cursor)) → Prop
  | token {form : Matcher} {token : Token} {behind : Cursor} (mem : form ∈ forms)
      (attempt : form.attempt rules cursor = .token token behind) : Scanned rules cursor forms (.ok (some (token, behind)))
  | stop {form : Matcher} {reason : Stop} (mem : form ∈ forms) (attempt : form.attempt rules cursor = .stop reason) :
      Scanned rules cursor forms (.error reason)
  | nothing (failed : ∀ form ∈ forms, ∃ reason, form.attempt rules cursor = .failure reason) :
      Scanned rules cursor forms (.ok none)

theorem scanned (rules : RuleReader) (cursor : Cursor) : ∀ forms, Scanned rules cursor forms (scan rules cursor forms).1
  | [] => .nothing (by simp)
  | form :: forms => by
    have ih := scanned rules cursor forms
    unfold scan
    cases ha : form.attempt rules cursor with
    | token token behind => exact .token List.mem_cons_self ha
    | stop reason => exact .stop List.mem_cons_self ha
    | failure reason =>
      dsimp only
      generalize (scan rules cursor forms).1 = found at ih ⊢
      cases ih with
      | token mem attempt => exact .token (List.mem_cons_of_mem form mem) attempt
      | stop mem attempt => exact .stop (List.mem_cons_of_mem form mem) attempt
      | nothing failed => exact .nothing (List.forall_mem_cons.mpr ⟨⟨reason, ha⟩, failed⟩)

end Matcher

namespace Rule

variable {scope : Scope} {cursor : Cursor}

/-- Only an error that is definitive ends a read. -/
theorem definitive_of_attempt {rule : Rule} {reason : Stop} (h : rule.attempt (read scope) cursor = .stop reason) :
    ∃ cause, reason = .error cause ∧ cause.isDefinitive := by
  have hfound := foundFrom_of_attempt (arrives_read scope rule cursor.peeked) h
  unfold attempt at h
  cases hread : read scope rule cursor.fork with
  | ok found =>
    obtain ⟨payload, behind⟩ := found
    rw [hread] at h
    dsimp only at h
    split at h
    · cases h
    · cases h
      exact hfound.elim
  | error reason' =>
    rw [hread] at h
    cases reason' with
    | error cause =>
      dsimp only at h
      by_cases hcause : cause.isDefinitive
      · rw [if_pos hcause] at h
        cases h
        exact ⟨cause, rfl, hcause⟩
      · rw [if_neg hcause] at h
        cases h
    | split | exhausted =>
      cases h
      exact hfound.elim

/-- Where one form of a statement matches, all others fail. -/
theorem failure_of_token {rule other : Rule} (hrule : rule ∈ statementRules) (hother : other ∈ statementRules)
    (hne : other ≠ rule) {token : Token} {behind : Cursor} (h : rule.attempt (read scope) cursor = .token token behind) :
    ∃ reason, other.attempt (read scope) cursor = .failure reason := by
  obtain ⟨payload, inner, _, _, hread, -⟩ := attempt_eq_token h
  obtain ⟨cause, herror, hsoft⟩ := declines_of_read hrule hother hne hread
  exact misses_of_error herror hsoft

section Scans

variable {found : Except Stop (Option (Token × Cursor))}
  (hfound : Matcher.Scanned (read scope) cursor (statementRules.map .rule) found)
include hfound

/-- A form that matches is the one that a scan finds. -/
theorem scanned_of_token {rule : Rule} (hrule : rule ∈ statementRules) {token : Token} {behind : Cursor}
    (h : rule.attempt (read scope) cursor = .token token behind) : found = .ok (some (token, behind)) := by
  have hother {other : Rule} (hmem : other ∈ statementRules) (hne : other ≠ rule) :=
    failure_of_token hrule hmem hne h
  cases hfound with
  | token mem attempt =>
    obtain ⟨other, hmem, rfl⟩ := List.mem_map.mp mem
    by_cases hne : other = rule
    · cases (hne ▸ attempt : rule.attempt (read scope) cursor = _).symm.trans h
      rfl
    · obtain ⟨_, hfailure⟩ := hother hmem hne
      cases hfailure.symm.trans attempt
  | stop mem attempt =>
    obtain ⟨other, hmem, rfl⟩ := List.mem_map.mp mem
    by_cases hne : other = rule
    · cases (hne ▸ attempt : rule.attempt (read scope) cursor = _).symm.trans h
    · obtain ⟨_, hfailure⟩ := hother hmem hne
      cases hfailure.symm.trans attempt
  | nothing failed =>
    obtain ⟨_, hfailure⟩ := failed _ (List.mem_map_of_mem hrule)
    cases hfailure.symm.trans h

/-- If a form ends the read, so does a scan, perhaps with another error. -/
theorem scanned_of_stop {rule : Rule} (hrule : rule ∈ statementRules) {reason : Stop}
    (h : rule.attempt (read scope) cursor = .stop reason) : ∃ cause, found = .error (.error cause) ∧ cause.isDefinitive := by
  cases hfound with
  | token mem attempt =>
    obtain ⟨other, hmem, rfl⟩ := List.mem_map.mp mem
    by_cases hne : rule = other
    · cases (hne ▸ attempt : rule.attempt (read scope) cursor = _).symm.trans h
    · obtain ⟨_, hfailure⟩ := failure_of_token hmem hrule hne attempt
      cases hfailure.symm.trans h
  | stop mem attempt =>
    obtain ⟨other, -, rfl⟩ := List.mem_map.mp mem
    obtain ⟨cause, rfl, hcause⟩ := definitive_of_attempt attempt
    exact ⟨cause, rfl, hcause⟩
  | nothing failed =>
    obtain ⟨_, hfailure⟩ := failed _ (List.mem_map_of_mem hrule)
    cases hfailure.symm.trans h

theorem scanned_of_failures
    (h : ∀ rule ∈ statementRules, ∃ reason, rule.attempt (read scope) cursor = .failure reason) : found = .ok none := by
  cases hfound with
  | token mem attempt | stop mem attempt =>
    obtain ⟨rule, hrule, rfl⟩ := List.mem_map.mp mem
    obtain ⟨_, hfailure⟩ := h rule hrule
    cases hfailure.symm.trans attempt
  | nothing failed => rfl

end Scans

/-- The forms of a statement have a common fate in any order. -/
theorem commonFate_order {rules : RuleReader} (hr : (read scope).CommonFates rules) {order : List Rule}
    (hperm : order.Perm statementRules) (cursor : Cursor) :
    CommonFate Eq (Matcher.scan (read scope) cursor (statementRules.map .rule)).1
      (Matcher.scan rules cursor (order.map .rule)).1 := by
  have hleft := Matcher.scanned (read scope) cursor (statementRules.map .rule)
  have hright := Matcher.scanned rules cursor (order.map .rule)
  have hcommon (rule : Rule) : CommonAttempt (rule.attempt (read scope) cursor) (rule.attempt rules cursor) :=
    (Matcher.rule rule).commonAttempt hr cursor
  have hsteps (rule : Rule) : rule.attempt (read scope) cursor ≠ .stop .exhausted := by
    intro hout
    obtain ⟨_, ⟨⟩, -⟩ := definitive_of_attempt hout
  generalize (Matcher.scan rules cursor (order.map .rule)).1 = found' at hright ⊢
  cases hright with
  | @token _ token behind mem attempt =>
    obtain ⟨rule, hmem, rfl⟩ := List.mem_map.mp mem
    have hsame : rule.attempt (read scope) cursor = .token token behind := by
      have hboth := hcommon rule
      rw [show rule.attempt rules cursor = .token token behind from attempt] at hboth
      generalize hleft : rule.attempt (read scope) cursor = a at hboth ⊢
      cases hboth with
      | exhausted => exact absurd hleft (hsteps rule)
      | token => rfl
    rw [scanned_of_token hleft (hperm.mem_iff.mp hmem) hsame]
    exact .ok rfl
  | @stop _ reason mem attempt =>
    obtain ⟨rule, hmem, rfl⟩ := List.mem_map.mp mem
    have hboth := hcommon rule
    rw [show rule.attempt rules cursor = .stop reason from attempt] at hboth
    generalize hstop : rule.attempt (read scope) cursor = a at hboth
    cases hboth with
    | exhausted => exact absurd hstop (hsteps rule)
    | exhausted' => exact .exhausted' _
    | split =>
      obtain ⟨_, ⟨⟩, -⟩ := definitive_of_attempt hstop
    | error hc hd =>
      obtain ⟨cause, hcause, hdefinitive⟩ := scanned_of_stop hleft (hperm.mem_iff.mp hmem) hstop
      rw [hcause]
      exact .error (hdefinitive.trans hd.symm)
  | nothing failed =>
    have hfailures : ∀ rule ∈ statementRules, ∃ reason, rule.attempt (read scope) cursor = .failure reason := by
      intro rule hrule
      obtain ⟨reason, hfailure⟩ := failed _ (List.mem_map_of_mem (hperm.mem_iff.mpr hrule))
      have hboth := hcommon rule
      rw [show rule.attempt rules cursor = .failure reason from hfailure] at hboth
      generalize hleft : rule.attempt (read scope) cursor = a at hboth
      cases hboth with
      | exhausted => exact absurd hleft (hsteps rule)
      | failure reason => exact ⟨reason, rfl⟩
    rw [scanned_of_failures hleft hfailures]
    exact .ok rfl

end Rule

/-! ### Streams -/

/-- In every state the forms of the grammars have a common fate. -/
structure Grammar.Twins {S : Type} (rules rules' : RuleReader) (g g' : Grammar S) : Prop where
  stop : g.stop = g'.stop
  scan : ∀ state cursor, CommonFate Eq (Matcher.scan rules cursor (g.matchers state)).1
    (Matcher.scan rules' cursor (g'.matchers state)).1

/-- The streams are the same but for their forms, which have a common fate, and for the failures of forms. -/
structure TokenStream.Twins {S : Type} (rules rules' : RuleReader) (s s' : TokenStream S) : Prop where
  grammar : s.grammar.Twins rules rules' s'.grammar
  state : s.state = s'.state
  cursor : s.cursor = s'.cursor
  lookahead : s.lookahead = s'.lookahead

namespace Reader

section
variable {S α β : Type} {rules rules' : RuleReader} {V : α → β → Prop}

/-- The outcomes of two readers that share their fate. -/
inductive CommonEnd (rules rules' : RuleReader) (V : α → β → Prop) :
    EStateM.Result Stop (TokenStream S) α → EStateM.Result Stop (TokenStream S) β → Prop
  | exhausted (s : TokenStream S) (r : EStateM.Result Stop (TokenStream S) β) :
      CommonEnd rules rules' V (.error .exhausted s) r
  | exhausted' (r : EStateM.Result Stop (TokenStream S) α) (s : TokenStream S) :
      CommonEnd rules rules' V r (.error .exhausted s)
  | ok {a : α} {b : β} {s s' : TokenStream S} (value : V a b) (twins : s.Twins rules rules' s') :
      CommonEnd rules rules' V (.ok a s) (.ok b s')
  | split (s s' : TokenStream S) : CommonEnd rules rules' V (.error .split s) (.error .split s')
  | error {c d : CompileError} (s s' : TokenStream S) (weight : c.isDefinitive = d.isDefinitive) :
      CommonEnd rules rules' V (.error (.error c) s) (.error (.error d) s')

/-- From streams that are twins the readers come to a common end. -/
def ShareFate (rules rules' : RuleReader) (S α β : Type) [DecidableEq S] (V : α → β → Prop) (x : Reader S α)
    (y : Reader S β) : Prop :=
  ∀ s s' : TokenStream S, s.Twins rules rules' s' → CommonEnd rules rules' V (x s) (y s')

variable [DecidableEq S]

theorem ShareFate.bind {γ δ : Type} {W : γ → δ → Prop} {x : Reader S α} {y : Reader S β} {f : α → Reader S γ}
    {g : β → Reader S δ} (hx : ShareFate rules rules' S α β V x y)
    (hf : ∀ a b, V a b → ShareFate rules rules' S γ δ W (f a) (g b)) :
    ShareFate rules rules' S γ δ W (x >>= f) (y >>= g) := by
  intro s s' hs
  have hend := hx s s' hs
  change CommonEnd rules rules' W (EStateM.bind x f s) (EStateM.bind y g s')
  unfold EStateM.bind
  generalize x s = r, y s' = r' at hend
  cases hend with
  | exhausted => exact .exhausted _ _
  | exhausted' => exact .exhausted' _ _
  | ok value twins => exact hf _ _ value _ _ twins
  | split => exact .split _ _
  | error _ _ weight => exact .error _ _ weight

/-- What is known of the first reader's values may be added. -/
theorem ShareFate.mono {W : α → β → Prop} {x : Reader S α} {y : Reader S β} (h : ShareFate rules rules' S α β V x y)
    (hW : ∀ {s a s₁ b}, x s = .ok a s₁ → V a b → W a b) : ShareFate rules rules' S α β W x y := by
  intro s s' hs
  have hend := h s s' hs
  generalize hx : x s = r, y s' = r' at hend
  cases hend with
  | exhausted => exact .exhausted _ _
  | exhausted' => exact .exhausted' _ _
  | ok value twins => exact .ok (hW hx value) twins
  | split => exact .split _ _
  | error _ _ weight => exact .error _ _ weight

theorem ShareFate.run {x y : Reader S α} (h : ShareFate rules rules' S α α Eq x y) {g g' : Grammar S}
    (hg : g.Twins rules rules' g') (hstart : g.start = g'.start) (p : Place) :
    CommonFate Eq (x.run g (.ofPlace p)) (y.run g' (.ofPlace p)) := by
  have hend := h (.ofCursor g (.ofPlace p)) (.ofCursor g' (.ofPlace p)) ⟨hg, hstart, rfl, rfl⟩
  unfold Reader.run
  generalize x (.ofCursor g (.ofPlace p)) = r, y (.ofCursor g' (.ofPlace p)) = r' at hend
  cases hend with
  | exhausted => exact .exhausted _
  | exhausted' => exact .exhausted' _
  | ok value twins =>
    cases value
    simp only [release, revert, twins.cursor]
    exact .ok rfl
  | split => exact .split
  | error _ _ weight => exact .error weight

end

section
variable {S : Type} [DecidableEq S] (ctx ctx' : Context)

theorem shareFate_peek : ShareFate ctx.rules ctx'.rules S _ _ (Option.Rel fun t t' => t' = t) (peek ctx) (peek ctx') := by
  have hrel (found : Option Token) : Option.Rel (fun t t' => t' = t) found found := by
    cases found with
    | none => exact .none
    | some token => exact .some rfl
  rintro ⟨g, state, cursor, lookahead, failures⟩ ⟨g', _, _, _, failures'⟩ ⟨hg, rfl, rfl, rfl⟩
  unfold Reader.peek TokenStream.peek
  cases lookahead with
  | some found => exact .ok (hrel found) ⟨hg, rfl, rfl, rfl⟩
  | none =>
    dsimp only
    have hstop := hg.stop
    by_cases hstate : state = g.stop
    · rw [if_pos hstate, if_pos (hstate.trans hstop)]
      exact .ok .none ⟨hg, rfl, rfl, rfl⟩
    rw [if_neg hstate, if_neg (hstop ▸ hstate)]
    have hscan := hg.scan state cursor.revert.skipBlanks
    generalize Matcher.scan ctx.rules _ (g.matchers state) = r, Matcher.scan ctx'.rules _ (g'.matchers state) = r' at hscan
    obtain ⟨r, failures⟩ := r
    obtain ⟨r', failures'⟩ := r'
    dsimp only at hscan
    cases hscan with
    | exhausted => exact .exhausted _ _
    | exhausted' => exact .exhausted' _ _
    | @ok found _ value =>
      cases value
      rcases found with _ | ⟨token, behind⟩
      · exact .ok .none ⟨hg, rfl, rfl, rfl⟩
      · exact .ok (.some rfl) ⟨hg, rfl, rfl, rfl⟩
    | split => exact .split _ _
    | error weight => exact .error _ _ weight

theorem shareFate_setState {rules rules' : RuleReader} (next : S) :
    ShareFate rules rules' S Unit Unit Eq (setState next) (setState next) :=
  fun _ _ hs => .ok rfl ⟨hs.grammar, rfl, congrArg Cursor.revert hs.cursor, rfl⟩

theorem shareFate_commit {rules rules' : RuleReader} :
    ShareFate rules rules' S _ _ Eq (modifyGet (·.commit)) (modifyGet (·.commit)) := by
  rintro ⟨g, state, cursor, lookahead, failures⟩ ⟨g', _, _, _, failures'⟩ ⟨hg, rfl, rfl, rfl⟩
  rcases lookahead with _ | _ | token <;> exact .ok rfl ⟨hg, rfl, rfl, rfl⟩

theorem shareFate_accept (kinds : List TokenKind) (next : S) :
    ShareFate ctx.rules ctx'.rules S _ _ (Option.Rel fun t t' => t' = t ∧ t.kind ∈ kinds) (accept ctx kinds next)
      (accept ctx' kinds next) := by
  have htest : ShareFate ctx.rules ctx'.rules S Bool Bool Eq (test ctx kinds) (test ctx' kinds) := by
    refine (shareFate_peek ctx ctx').bind fun found found' h => ?_
    cases h with
    | none => exact fun _ _ hs => .ok rfl hs
    | some h =>
      subst h
      exact fun _ _ hs => .ok rfl hs
  have hsame : ShareFate ctx.rules ctx'.rules S _ _ Eq (accept ctx kinds next) (accept ctx' kinds next) := by
    refine htest.bind fun matching _ h => ?_
    subst h
    cases matching with
    | false => exact fun _ _ hs => .ok rfl hs
    | true =>
      refine shareFate_commit.bind fun token _ h => ?_
      subst h
      exact (shareFate_setState next).bind fun _ _ _ => fun _ _ hs => .ok rfl hs
  refine hsame.mono fun hx h => ?_
  subst h
  rcases accept_eq_ok hx with ⟨token, _, rfl, -, hkind, -⟩ | ⟨rfl, -⟩
  · exact .some ⟨rfl, hkind⟩
  · exact .none

end

theorem isDefinitive_statementError {S : Type} (s : TokenStream S) (kinds : List TokenKind) :
    (s.statementError kinds).isDefinitive = false := by
  obtain ⟨_, h⟩ := s.statementError_eq kinds
  rw [h]
  rfl

/-- All readers share the fate of the rules that they read. -/
theorem parallel_shareFate (scope : Scope) (rules rules' : RuleReader) :
    Parallel ⟨scope, rules⟩ ⟨scope, rules'⟩ (fun t t' => t' = t) (fun c d => c.isDefinitive = d.isDefinitive)
      (ShareFate rules rules') where
  pure value _ _ hs := .ok value hs
  exhausted _ _ _ _ := .exhausted _ _
  exhausted' _ _ _ _ := .exhausted' _ _
  fail h _ _ _ := .error _ _ h
  bind := ShareFate.bind
  atEnd := by
    rintro S _ ⟨g, state, cursor, lookahead, failures⟩ ⟨g', _, _, _, failures'⟩ ⟨hg, rfl, rfl, rfl⟩
    exact .ok rfl ⟨hg, rfl, rfl, rfl⟩
  peek := shareFate_peek ⟨scope, rules⟩ ⟨scope, rules'⟩
  accept := shareFate_accept ⟨scope, rules⟩ ⟨scope, rules'⟩
  setState := shareFate_setState
  error kinds s s' _ := .error _ _ ((isDefinitive_error s kinds).trans (isDefinitive_error s' kinds).symm)
  statementError kinds s s' _ :=
    .error _ _ ((isDefinitive_statementError s kinds).trans (isDefinitive_statementError s' kinds).symm)
  kind h := congrArg Token.kind h
  payload h := congrArg Token.payload h
  located h _ := by rw [h]
  malformed _ _ := rfl
  text h _ := congrArg Token.text h
  unsupported _ _ := rfl
  resolveVariable {S _ t t'} h _ s s' hs := by
    subst h
    unfold Reader.resolveVariable
    cases scope.resolveVariable t'.text t'.position with
    | ok target => exact .ok rfl hs
    | error cause => exact .error _ _ rfl
  resolveFunction {S _ t t'} h _ s s' hs := by
    subst h
    unfold Reader.resolveFunction
    cases scope.resolveFunction t'.text t'.position with
    | ok function => exact .ok rfl hs
    | error cause => exact .error _ _ rfl

end Reader

/-! ### Rules -/

namespace Rule

variable {scope : Scope} {order : List Rule}

theorem commonFate_wrap {α : Type} (make : α → Payload) {r r' : Except Stop (α × Cursor)} (h : CommonFate Eq r r') :
    CommonFate Eq (wrap make r) (wrap make r') := by
  cases h with
  | exhausted => exact .exhausted _
  | exhausted' => exact .exhausted' _
  | ok value =>
    cases value
    exact .ok rfl
  | split => exact .split
  | error weight => exact .error weight

/-- A grammar and itself. -/
theorem twins_self {S : Type} {rules rules' : RuleReader} (hr : rules.CommonFates rules') (g : Grammar S) :
    g.Twins rules rules' g :=
  ⟨rfl, fun _ cursor => Matcher.commonFate_scan hr cursor _⟩

theorem twins_statement {rules : RuleReader} (hr : (read scope).CommonFates rules) (hperm : order.Perm statementRules) :
    Grammar.statement.Twins (read scope) rules (Grammar.statementBy order) := by
  refine ⟨rfl, fun state cursor => ?_⟩
  cases state with
  | begin => exact commonFate_order hr hperm cursor
  | done => exact .ok rfl

theorem commonFates_readWithinBy (scope : Scope) (hperm : order.Perm statementRules) :
    ∀ depth, (read scope).CommonFates (readWithinBy order scope depth)
  | 0 => fun _ _ => .exhausted' _
  | depth + 1 => fun rule p => by
    have ih := commonFates_readWithinBy scope hperm depth
    have hparallel := parallel_shareFate scope (read scope) (readWithinBy order scope depth)
    rw [read_eq_body]
    by_cases hrule : rule = statement
    · subst hrule
      exact commonFate_wrap .stmt (hparallel.expectStatement.run (twins_statement ih hperm) rfl p)
    have hbody : readWithinBy order scope (depth + 1) rule (.ofPlace p) =
        rule.body ⟨scope, readWithinBy order scope depth⟩ (.ofPlace p) := by
      cases rule with
      | statement => exact absurd rfl hrule
      | _ => rfl
    obtain ⟨α, make, x, y, hshare, hx, hy⟩ := hparallel.body rule (.ofPlace p) (.ofPlace p)
    rw [hbody, hy, show rule.body scope.context (.ofPlace p) = _ from hx]
    exact commonFate_wrap make (hshare.run (twins_self ih _) rfl p)

/-- No form of a statement needs more than the statement. -/
theorem ready_statementBy {ctx : Context} {depth : Nat} (hctx : ctx.Covers depth) (hperm : order.Perm statementRules)
    {p : Place} (hd : 2 * p.rest.length + 2 ≤ depth) : ctx.Ready (Grammar.statementBy order) .begin p := by
  have hproper : (Grammar.statementBy order).Proper := by
    intro state
    cases state with
    | begin => simp [Grammar.statementBy, Matcher.proper]
    | done => rfl
  have hrules : (Grammar.statementBy order).rulesIn .begin = order := by
    rw [Grammar.rulesIn, Grammar.statementBy, List.filterMap_map]
    exact List.filterMap_some
  refine hctx.ready hproper order hrules fun rule hmem => ?_
  have hrule := hperm.mem_iff.mp hmem
  simp only [statementRules, List.mem_cons, List.not_mem_nil, or_false] at hrule
  rcases hrule with rfl | rfl | rfl | rfl <;> simp only [need] <;> omega

theorem arrives_bodyBy {ctx : Context} {depth : Nat} (hctx : ctx.Covers depth) (hperm : order.Perm statementRules)
    (rule : Rule) (p : Place) (hd : rule.need p.rest.length ≤ depth + 1) :
    Arrives p (rule.bodyBy order ctx (.ofPlace p)) := by
  cases rule with
  | statement =>
    have hready : ctx.Ready (Grammar.statementBy order) .begin p := ready_statementBy hctx hperm (by simpa [need] using hd)
    exact arrives_wrap (Proceeds.arrives ((Proceeds.expectStatement (.refl p) hready).mono fun _ _ _ _ h => h.2))
  | _ => exact arrives_body hctx _ p hd

theorem covers_readWithinBy (scope : Scope) (hperm : order.Perm statementRules) :
    ∀ depth, Context.Covers ⟨scope, readWithinBy order scope depth⟩ depth
  | 0 => fun rule p h => by cases rule <;> simp [need] at h
  | depth + 1 => fun rule p h => arrives_bodyBy (covers_readWithinBy scope hperm depth) hperm rule p h

/-- In any order a rule is read as the same tree, or not at all. -/
theorem readBy_eq_ok_iff (hperm : order.Perm statementRules) {rule : Rule} {p : Place} {result : Payload × Cursor} :
    readBy order scope rule (.ofPlace p) = .ok result ↔ read scope rule (.ofPlace p) = .ok result := by
  have hfate : CommonFate Eq (read scope rule (.ofPlace p)) (readBy order scope rule (.ofPlace p)) :=
    commonFates_readWithinBy scope hperm _ rule p
  have hread := (arrives_read scope rule p).ne_exhausted
  have hreadBy : readBy order scope rule (.ofPlace p) ≠ .error .exhausted :=
    (covers_readWithinBy scope hperm _ rule p (need_le_depth rule p)).ne_exhausted
  generalize read scope rule (.ofPlace p) = r, readBy order scope rule (.ofPlace p) = r' at *
  cases hfate with
  | exhausted => exact absurd rfl hread
  | exhausted' => exact absurd rfl hreadBy
  | ok value => rw [value]
  | split => exact ⟨fun h => (by cases h), fun h => (by cases h)⟩
  | error => exact ⟨fun h => (by cases h), fun h => (by cases h)⟩

/-- At one place at most one form of a statement can be read. -/
theorem eq_of_isOk {first second : Rule} (hfirst : first ∈ statementRules) (hsecond : second ∈ statementRules) {p : Place}
    (h : (read scope first (.ofPlace p)).isOk) (h' : (read scope second (.ofPlace p)).isOk) : first = second := by
  by_cases hne : second = first
  · exact hne.symm
  · cases hread : read scope first (.ofPlace p) with
    | error reason =>
      rw [hread] at h
      cases h
    | ok result =>
      obtain ⟨cause, herror, -⟩ := declines_of_read hfirst hsecond hne hread
      rw [herror] at h'
      cases h'

/-- The forms of a statement exclude each other, so that those of all statements, also inside others, may be
    tried in any order: the same texts are read, as the same trees and up to the same places. -/
theorem alternatives_exclusive (scope : Scope) (p : Place) :
    (∀ first ∈ statementRules, ∀ second ∈ statementRules, (read scope first (.ofPlace p)).isOk →
      (read scope second (.ofPlace p)).isOk → first = second) ∧
    readBy statementRules scope = read scope ∧
    ∀ order, order.Perm statementRules → ∀ rule result,
      readBy order scope rule (.ofPlace p) = .ok result ↔ read scope rule (.ofPlace p) = .ok result :=
  ⟨fun _ hfirst _ hsecond h h' => eq_of_isOk hfirst hsecond h h', readBy_statementRules scope,
    fun _ hperm _ _ => readBy_eq_ok_iff hperm⟩

/-- In the opposite order a name is first taken for an expression, as is `if`. -/
theorem alternatives_exclusive_reversed :
    let scope := Scope.bind ⟨[⟨"x", .integer⟩], .integer⟩ {}
    let p := Place.start "\x7b x = 1; x == 1; if (x < 2) x = 3; else return x; \x7d".toList
    (read scope .blockStatement (.ofPlace p)).isOk ∧ ¬(read scope .assignment (.ofPlace p)).isOk ∧
      ∃ result, readBy statementRules.reverse scope .statement (.ofPlace p) = .ok result ∧
        read scope .statement (.ofPlace p) = .ok result := by
  intro scope p
  obtain ⟨hexclusive, -, horder⟩ := alternatives_exclusive scope p
  have hblock : (read scope .blockStatement (.ofPlace p)).isOk := by decide +kernel
  have hstatement : (read scope .statement (.ofPlace p)).isOk := by decide +kernel
  refine ⟨hblock, fun h => ?_, ?_⟩
  · cases hexclusive .assignment (by decide) .blockStatement (by decide) h hblock
  · cases hread : read scope .statement (.ofPlace p) with
    | error reason =>
      rw [hread] at hstatement
      cases hstatement
    | ok result => exact ⟨result, (horder _ (List.reverse_perm _) _ _).mpr hread, rfl⟩

end Rule
end HostScript
