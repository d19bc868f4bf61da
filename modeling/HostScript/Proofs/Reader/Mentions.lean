import HostScript.Proofs.Reader.Parallel
import HostScript.Proofs.Reader.Progress
import HostScript.Proofs.Scoping

/-! Only the names in a text matter to it.

A name is looked up when its word was read from the text, and nothing else about a scope is ever asked.
Two reads of one text in scopes that hold the same under its words go hand in hand: their streams are the
same at every move, so they find the same tokens, note the same failures of forms that were tried in vain,
and end with the same tree or the same error. -/

namespace HostScript

open TokenStream Reader

/-! ### Names in a text -/

/-- The name stands in the text, be it as a part of a longer word. -/
def Mentions (text : List Char) (name : String) : Prop := isName name ∧ name.toList <:+: text

/-- The hosts publish the same under every name in the text. -/
structure HostScope.AgreeOn (text : List Char) (host host' : HostScope) : Prop where
  globals : ∀ name, Mentions text name → host.globalNamed? name = host'.globalNamed? name
  functions : ∀ name, Mentions text name → host.functionNamed? name = host'.functionNamed? name

namespace Scope

/-- The scopes hold the same under every name in the text. -/
structure AgreeOn (text : List Char) (scope scope' : Scope) : Prop where
  vars : ∀ name, Mentions text name → scope.variableNamed? name = scope'.variableNamed? name
  functions : ∀ name, Mentions text name → scope.functionNamed? name = scope'.functionNamed? name
  localCount : scope.localCount = scope'.localCount

variable {text : List Char} {scope scope' : Scope}

theorem agreeOn_bind {host host' : HostScope} (signature : Signature) (h : host.AgreeOn text host') :
    AgreeOn text (bind signature host) (bind signature host') where
  vars name hname := by rw [variableNamed?_bind, variableNamed?_bind, h.globals name hname]
  functions := h.functions
  localCount := rfl

theorem AgreeOn.declareAll (h : AgreeOn text scope scope') (names : List String) :
    AgreeOn text (scope.declareAll names) (scope'.declareAll names) := by
  induction names generalizing scope scope' with
  | nil => exact h
  | cons name names ih =>
    refine @ih (scope.declare name) (scope'.declare name) ⟨fun other hother => ?_, h.functions, ?_⟩
    · rw [variableNamed?_declare, variableNamed?_declare, h.localCount, h.vars other hother]
    · exact congrArg (· + 1) h.localCount

end Scope

/-! ### Streams over the text -/

/-- A token of the kind of names is a name. -/
def Matcher.naming : Matcher → Bool
  | terminal (.sign kind _) | terminal (.keyword kind _) => kind != .name
  | _ => true

/-- No fixed word of the grammar is of the kind of names. -/
def Grammar.Naming {S : Type} (g : Grammar S) : Prop := ∀ state, (g.matchers state).all Matcher.naming

theorem Construct.naming (construct : Construct) : construct.grammar.Naming := by
  intro state
  cases construct with
  | rule rule => cases rule <;> cases state <;> decide
  | program => cases state <;> decide

/-- The token is a name only if the text mentions it. -/
def Token.KnownIn (text : List Char) (token : Token) : Prop := token.kind = .name → Mentions text token.text

/-- The form of a name takes it from the text. -/
theorem Matcher.knownIn_of_attempt {form : Matcher} (hform : form.naming) {rules : RuleReader} {p start : Place}
    {text : List Char} (hstart : start.rest <:+ text) {token : Token} {behind : Cursor}
    (h : form.attempt rules ⟨p, start⟩ = .token token behind) : token.KnownIn text := by
  intro hkind
  cases form with
  | rule form =>
    obtain ⟨_, _, _, _, -, -, rfl, -⟩ := Rule.attempt_eq_token h
    cases form <;> cases hkind
  | terminal form =>
    obtain ⟨w, payload, hmatch, -, rfl, -⟩ := Terminal.attempt_eq_token h
    have hpattern : form.pattern = .name := by
      cases form with
      | sign kind _ | keyword kind _ =>
        cases hkind
        cases hform
      | name | reference => rfl
      | integer | boolean | unary | binary => cases hkind
    rw [hpattern] at hmatch
    obtain ⟨tail, htail⟩ := Pattern.append_of_match? hmatch
    refine ⟨Pattern.isName_of_match? hmatch, ?_⟩
    rw [String.toList_ofList]
    exact (show w <+: start.rest from ⟨tail, htail.symm⟩).isInfix.trans hstart.isInfix

namespace TokenStream

variable {S : Type} {text : List Char} {s s' : TokenStream S}

/-- The stream reads the text, or the end of it. -/
structure Within (text : List Char) (s : TokenStream S) : Prop where
  naming : s.grammar.Naming
  committed : s.cursor.committed.rest <:+ text
  peeked : s.cursor.peeked.rest <:+ text
  known : ∀ token, s.lookahead = some (some token) → token.KnownIn text

theorem within_fresh {g : Grammar S} (hg : g.Naming) (state : S) {p : Place} (hp : p.rest <:+ text) :
    (fresh g state p).Within text :=
  ⟨hg, hp, hp, fun _ h => by cases h⟩

theorem Within.revert (h : s.Within text) : s.revert.Within text :=
  ⟨h.naming, h.committed, h.committed, fun _ h => by cases h⟩

theorem Within.setState (h : s.Within text) (next : S) : (s.setState next).Within text :=
  Within.revert (s := { s with state := next }) ⟨h.naming, h.committed, h.peeked, h.known⟩

theorem Within.commit (h : s.Within text) : s.commit.2.Within text := by
  unfold TokenStream.commit
  split
  · exact ⟨h.naming, h.peeked, h.peeked, fun _ h => by cases h⟩
  · exact h

theorem suffix_of_reaches {p q : Place} (h : p.Reaches q) (hp : p.rest <:+ text) : q.rest <:+ text := by
  obtain ⟨front, hrest, -⟩ := h
  rw [hrest] at hp
  exact (List.suffix_append front q.rest).trans hp

variable [DecidableEq S]

/-- What is peeked stands in the text. -/
theorem Within.peek (h : s.Within text) {rules : RuleReader} {found : Option Token}
    (hpeek : s.peek rules = (.ok found, s')) : s'.Within text ∧ ∀ token ∈ found, token.KnownIn text := by
  cases hl : s.lookahead with
  | some seen =>
    simp only [TokenStream.peek, hl] at hpeek
    cases hpeek
    exact ⟨h, fun token htoken => h.known token (by rw [hl, Option.mem_def.mp htoken])⟩
  | none =>
    have hpeeked := peek_fresh rules s.grammar s.state s.cursor.committed
    rw [← (stands_of_none hl).peek, hpeek] at hpeeked
    have hskip := suffix_of_reaches s.cursor.committed.reaches_skip h.committed
    cases hpeeked with
    | stopped => exact ⟨⟨h.naming, h.committed, h.committed, fun _ h => by cases h⟩, by simp⟩
    | nothing => exact ⟨⟨h.naming, h.committed, hskip, fun _ h => by cases h⟩, by simp⟩
    | found failures mem attempt =>
      obtain ⟨-, q, hq, hspans⟩ := Matcher.spans_of_attempt attempt
      cases hq
      have hknown := Matcher.knownIn_of_attempt (List.all_eq_true.mp (h.naming s.state) _ mem) hskip attempt
      refine ⟨⟨h.naming, h.committed, suffix_of_reaches hspans.reaches hskip, ?_⟩, ?_⟩
      · rintro token ⟨⟩
        exact hknown
      · rintro token ⟨⟩
        exact hknown

theorem Within.accept (h : s.Within text) {ctx : Context} {kinds : List TokenKind} {next : S} {found : Option Token}
    (haccept : Reader.accept ctx kinds next s = .ok found s') :
    s'.Within text ∧ ∀ token ∈ found, token.KnownIn text ∧ token.kind ∈ kinds := by
  rcases accept_eq_ok haccept with ⟨token, s₁, rfl, hpeek, hkind, rfl⟩ | ⟨rfl, seen, hpeek, -⟩
  · obtain ⟨hwithin, hknown⟩ := h.peek hpeek
    refine ⟨hwithin.commit.setState next, ?_⟩
    rintro _ ⟨⟩
    exact ⟨hknown token rfl, hkind⟩
  · exact ⟨(h.peek hpeek).1, by simp⟩

end TokenStream

/-! ### The same forms -/

/-- From every place of the text the rules are read alike. -/
def RuleReader.AlikeIn (text : List Char) (rules rules' : RuleReader) : Prop :=
  ∀ rule (p : Place), p.rest <:+ text → SideBySide Eq Eq (rules rule (.ofPlace p)) (rules' rule (.ofPlace p))

section Forms

variable {text : List Char} {rules rules' : RuleReader} (hr : rules.AlikeIn text rules') {cursor : Cursor}
  (hc : cursor.peeked.rest <:+ text)
include hr hc

theorem Matcher.attempt_alikeIn (form : Matcher) :
    form.attempt rules cursor = .stop .exhausted ∨ form.attempt rules' cursor = .stop .exhausted ∨
      form.attempt rules cursor = form.attempt rules' cursor := by
  cases form with
  | terminal form => exact .inr (.inr rfl)
  | rule form =>
    have hread := hr form cursor.peeked hc
    simp only [attempt, Rule.attempt, Cursor.fork]
    generalize rules form (.ofPlace cursor.peeked) = r, rules' form (.ofPlace cursor.peeked) = r' at hread
    cases hread with
    | exhausted => exact .inl rfl
    | exhausted' => exact .inr (.inl rfl)
    | ok value =>
      cases value
      exact .inr (.inr rfl)
    | error stops =>
      cases stops
      exact .inr (.inr rfl)

/-- The failures on the way are the same as well. -/
theorem Matcher.scan_alikeIn (forms : List Matcher) :
    (scan rules cursor forms).1 = .error .exhausted ∨ (scan rules' cursor forms).1 = .error .exhausted ∨
      scan rules cursor forms = scan rules' cursor forms := by
  induction forms with
  | nil => exact .inr (.inr rfl)
  | cons form forms ih =>
    simp only [scan]
    rcases form.attempt_alikeIn hr hc with h | h | h
    · rw [h]
      exact .inl rfl
    · rw [h]
      exact .inr (.inl rfl)
    rw [h]
    cases form.attempt rules' cursor with
    | token | stop => exact .inr (.inr rfl)
    | failure reason =>
      rcases ih with ih | ih | ih
      · exact .inl ih
      · exact .inr (.inl ih)
      · exact .inr (.inr (by rw [ih]))

end Forms

theorem TokenStream.peek_alikeIn {S : Type} [DecidableEq S] {text : List Char} {rules rules' : RuleReader}
    (hr : rules.AlikeIn text rules') {s : TokenStream S} (h : s.Within text) :
    (s.peek rules).1 = .error .exhausted ∨ (s.peek rules').1 = .error .exhausted ∨ s.peek rules = s.peek rules' := by
  cases hl : s.lookahead with
  | some found => exact .inr (.inr (by simp only [peek, hl]))
  | none =>
    have hcursor : s.cursor.revert.skipBlanks.peeked.rest <:+ text :=
      suffix_of_reaches s.cursor.committed.reaches_skip h.committed
    simp only [peek, hl]
    by_cases hstate : s.state = s.grammar.stop
    · exact .inr (.inr (by rw [if_pos hstate, if_pos hstate]))
    rw [if_neg hstate, if_neg hstate]
    rcases Matcher.scan_alikeIn hr hcursor (s.grammar.matchers s.state) with h | h | h
    · generalize Matcher.scan rules _ _ = outcome at h ⊢
      obtain ⟨found, failures⟩ := outcome
      cases h
      exact .inl rfl
    · generalize Matcher.scan rules' _ _ = outcome at h ⊢
      obtain ⟨found, failures⟩ := outcome
      cases h
      exact .inr (.inl rfl)
    · exact .inr (.inr (by rw [h]))

/-! ### Readers -/

namespace Reader

section
variable {S α β : Type} {text : List Char} {V : α → β → Prop}

/-- The outcomes of two reads that go hand in hand: related values with one stream, or one reason to stop. -/
inductive SameEnd (text : List Char) (V : α → β → Prop) :
    EStateM.Result Stop (TokenStream S) α → EStateM.Result Stop (TokenStream S) β → Prop
  | exhausted (s : TokenStream S) (r : EStateM.Result Stop (TokenStream S) β) : SameEnd text V (.error .exhausted s) r
  | exhausted' (r : EStateM.Result Stop (TokenStream S) α) (s : TokenStream S) : SameEnd text V r (.error .exhausted s)
  | ok {a : α} {b : β} {s : TokenStream S} (value : V a b) (within : s.Within text) : SameEnd text V (.ok a s) (.ok b s)
  | error (reason : Stop) (s s' : TokenStream S) : SameEnd text V (.error reason s) (.error reason s')

/-- From every stream over the text the readers come to the same. -/
def HandInHand (text : List Char) (S α β : Type) [DecidableEq S] (V : α → β → Prop) (x : Reader S α) (y : Reader S β) : Prop :=
  ∀ s : TokenStream S, s.Within text → SameEnd text V (x s) (y s)

theorem SameEnd.of_eq {V : α → α → Prop} {r r' : EStateM.Result Stop (TokenStream S) α} (h : r = r')
    (hok : ∀ a s, r = .ok a s → V a a ∧ s.Within text) : SameEnd text V r r' := by
  subst h
  cases r with
  | ok a s =>
    obtain ⟨value, within⟩ := hok a s rfl
    exact .ok value within
  | error reason s => exact .error reason s s

variable [DecidableEq S]

theorem HandInHand.bind {γ δ : Type} {W : γ → δ → Prop} {x : Reader S α} {y : Reader S β} {f : α → Reader S γ}
    {g : β → Reader S δ} (hx : HandInHand text S α β V x y) (hf : ∀ a b, V a b → HandInHand text S γ δ W (f a) (g b)) :
    HandInHand text S γ δ W (x >>= f) (y >>= g) := by
  intro s hs
  have hsame := hx s hs
  change SameEnd text W (EStateM.bind x f s) (EStateM.bind y g s)
  unfold EStateM.bind
  generalize x s = r, y s = r' at hsame
  cases hsame with
  | exhausted => exact .exhausted _ _
  | exhausted' => exact .exhausted' _ _
  | ok value within => exact hf _ _ value _ within
  | error reason s s' => exact .error reason s s'

/-- One tree was read, and the read stopped in the text. -/
inductive StoppedIn (text : List Char) : α × Cursor → α × Cursor → Prop
  | mk (tree : α) {q : Place} (within : q.rest <:+ text) : StoppedIn text (tree, .ofPlace q) (tree, .ofPlace q)

theorem HandInHand.run {x y : Reader S α} (h : HandInHand text S α α Eq x y) {g : Grammar S} (hg : g.Naming) {p : Place}
    (hp : p.rest <:+ text) : SideBySide Eq (StoppedIn text) (x.run g (.ofPlace p)) (y.run g (.ofPlace p)) := by
  have hsame := h _ (within_fresh hg g.start hp)
  unfold Reader.run
  rw [show TokenStream.ofCursor g (.ofPlace p) = fresh g g.start p from rfl]
  generalize x (fresh g g.start p) = r, y (fresh g g.start p) = r' at hsame
  cases hsame with
  | exhausted => exact .exhausted _
  | exhausted' => exact .exhausted' _
  | ok value within =>
    cases value
    exact .ok (.mk _ within.committed)
  | error reason => exact .error rfl

end

section
variable {S : Type} [DecidableEq S] {text : List Char} {ctx ctx' : Context} (hr : ctx.rules.AlikeIn text ctx'.rules)
include hr

theorem peek_alikeIn {s : TokenStream S} (hs : s.Within text) : (∃ s', peek ctx s = .error .exhausted s') ∨
    (∃ s', peek ctx' s = .error .exhausted s') ∨ peek ctx s = peek ctx' s := by
  unfold Reader.peek
  rcases s.peek_alikeIn hr hs with h | h | h
  · generalize s.peek ctx.rules = outcome at h ⊢
    obtain ⟨found, s'⟩ := outcome
    cases h
    exact .inl ⟨s', rfl⟩
  · generalize s.peek ctx'.rules = outcome at h ⊢
    obtain ⟨found, s'⟩ := outcome
    cases h
    exact .inr (.inl ⟨s', rfl⟩)
  · exact .inr (.inr (by rw [h]))

theorem handInHand_peek : HandInHand text S _ _ (Option.Rel fun t t' => t' = t ∧ t.KnownIn text) (peek ctx) (peek ctx') := by
  intro s hs
  rcases peek_alikeIn hr hs with ⟨s', h⟩ | ⟨s', h⟩ | h
  · rw [h]
    exact .exhausted _ _
  · rw [h]
    exact .exhausted' _ _
  · refine .of_eq h fun found s' hok => ?_
    obtain ⟨hwithin, hknown⟩ := hs.peek (peek_eq_ok hok)
    refine ⟨?_, hwithin⟩
    cases found with
    | none => exact .none
    | some token => exact .some ⟨rfl, hknown token rfl⟩

theorem handInHand_accept (kinds : List TokenKind) (next : S) :
    HandInHand text S _ _ (Option.Rel fun t t' => (t' = t ∧ t.KnownIn text) ∧ t.kind ∈ kinds) (accept ctx kinds next)
      (accept ctx' kinds next) := by
  intro s hs
  have haccept (ctx : Context) : accept ctx kinds next s = EStateM.bind (EStateM.bind (peek ctx) _) _ s := rfl
  rcases peek_alikeIn hr hs with ⟨s', h⟩ | ⟨s', h⟩ | h
  · have hout : accept ctx kinds next s = .error .exhausted s' := by simp only [haccept, EStateM.bind, h]
    rw [hout]
    exact .exhausted _ _
  · have hout : accept ctx' kinds next s = .error .exhausted s' := by simp only [haccept, EStateM.bind, h]
    rw [hout]
    exact .exhausted' _ _
  · have heq : accept ctx kinds next s = accept ctx' kinds next s := by simp only [haccept, EStateM.bind, h]
    refine .of_eq heq fun found s' hok => ?_
    obtain ⟨hwithin, hknown⟩ := hs.accept hok
    refine ⟨?_, hwithin⟩
    cases found with
    | none => exact .none
    | some token => exact .some ⟨⟨rfl, (hknown token rfl).1⟩, (hknown token rfl).2⟩

end

/-- All readers go hand in hand if the scopes agree on the names in the text. -/
theorem parallel_handInHand {text : List Char} {ctx ctx' : Context} (hscope : ctx.scope.AgreeOn text ctx'.scope)
    (hr : ctx.rules.AlikeIn text ctx'.rules) :
    Parallel ctx ctx' (fun t t' => t' = t ∧ t.KnownIn text) Eq (HandInHand text) where
  pure value _ hs := .ok value hs
  exhausted _ _ _ := .exhausted _ _
  exhausted' _ _ _ := .exhausted' _ _
  fail h _ _ := h ▸ .error _ _ _
  bind := HandInHand.bind
  atEnd s hs := .ok rfl ⟨hs.naming, suffix_of_reaches s.cursor.committed.reaches_skip hs.committed,
    suffix_of_reaches s.cursor.committed.reaches_skip hs.committed, fun _ h => by cases h⟩
  peek := handInHand_peek hr
  accept := handInHand_accept hr
  setState next _ hs := .ok rfl (hs.setState next)
  error kinds _ _ := .error _ _ _
  statementError kinds _ _ := .error _ _ _
  kind h := congrArg Token.kind h.1
  payload h := congrArg Token.payload h.1
  located h _ := by rw [h.1]
  malformed h _ := by rw [h.1]
  text h _ := congrArg Token.text h.1
  unsupported h _ := by rw [h.1]
  resolveVariable {S _ t t'} h hk s hs := by
    obtain ⟨rfl, hknown⟩ := h
    unfold Reader.resolveVariable Scope.resolveVariable
    rw [hscope.vars _ (hknown hk)]
    split
    · exact .ok rfl hs
    · exact .error _ _ _
  resolveFunction {S _ t t'} h hk s hs := by
    obtain ⟨rfl, hknown⟩ := h
    unfold Reader.resolveFunction Scope.resolveFunction
    rw [hscope.functions _ (hknown hk)]
    split
    · exact .ok rfl hs
    · exact .error _ _ _

end Reader

/-! ### Rules and programs -/

section
variable {text : List Char} {scope scope' : Scope} (h : scope.AgreeOn text scope')
include h

theorem Rule.readWithin_alikeIn : ∀ depth depth',
    (readWithin scope depth).AlikeIn text (readWithin scope' depth')
  | 0, _ => fun _ _ _ => .exhausted _
  | _ + 1, 0 => fun _ _ _ => .exhausted' _
  | depth + 1, depth' + 1 => fun rule p hp => by
    have hparallel : Parallel ⟨scope, readWithin scope depth⟩ ⟨scope', readWithin scope' depth'⟩ _ _ _ :=
      parallel_handInHand h (readWithin_alikeIn depth depth')
    obtain ⟨α, make, x, y, hsame, hx, hy⟩ := hparallel.body rule (.ofPlace p) (.ofPlace p)
    unfold readWithin
    rw [hx, hy]
    refine (hsame.run (Construct.naming (.rule rule)) hp).wrap ?_
    rintro _ _ ⟨tree, -⟩
    rfl

theorem parallel_context : Parallel scope.context scope'.context (fun t t' => t' = t ∧ t.KnownIn text) Eq
    (HandInHand text) :=
  parallel_handInHand h fun rule p hp => Rule.readWithin_alikeIn h _ _ rule p hp

end

/-- Programs are read alike, each in its own scope. -/
theorem Program.read_alikeIn {text : String} {scope scope' : Scope} (h : scope.AgreeOn text.toList scope') :
    SideBySide Eq (fun result result' => result.1 = result'.1 ∧ result.2.AgreeOn text.toList result'.2)
      (read scope text) (read scope' text) := by
  have hstart : (Place.start text.toList).rest <:+ text.toList := List.suffix_refl _
  refine .bind ((parallel_context h).programLocals.run (Construct.naming .program) hstart) ?_
  rintro _ _ ⟨locals, hq⟩
  have hparallel := parallel_context (h.declareAll locals)
  have hbody (n m : Nat) := hparallel.bind_eq (hparallel.setState Grammar.ProgramState.body)
    fun _ => hparallel.programBody n m
  refine .bind ((hbody _ _).run (Construct.naming .program) hq) ?_
  rintro _ _ ⟨body, -⟩
  dsimp only
  split
  · exact .ok ⟨rfl, h.declareAll locals⟩
  · exact .error rfl

/-- Compilation depends only on the names in the text. Two hosts that publish the same under each of them, or
    both nothing, give the same artifact or the same error, with its position and its message. -/
theorem compile_eq_of_agreeOn {text : String} {host host' : HostScope} (h : host.AgreeOn text.toList host')
    (signature : Signature) : compile text signature host = compile text signature host' := by
  unfold compile
  cases signature.validate with
  | error cause => rfl
  | ok _ =>
    dsimp only
    have hread := Program.read_alikeIn (Scope.agreeOn_bind signature h)
    have hout (scope : Scope) : Program.read scope text ≠ .error .exhausted := fun hout => Program.foundFrom_of_read hout
    generalize hleft : Program.read (.bind signature host) text = r,
      hright : Program.read (.bind signature host') text = r' at hread
    cases hread with
    | exhausted => exact absurd hleft (hout _)
    | exhausted' => exact absurd hright (hout _)
    | @ok result result' value =>
      obtain ⟨p, scope⟩ := result
      obtain ⟨p', scope'⟩ := result'
      obtain ⟨rfl, hscope⟩ := value
      dsimp only
      rw [hscope.localCount]
    | error stops =>
      cases stops
      rfl

theorem isValue_integer : ∀ ty ∈ [Ty.integer], ty.isValue := List.forall_mem_singleton.mpr rfl

/-- A host with a global and a function that a program uses, and others that it does not. -/
def ampleHost : HostScope :=
  ⟨[("limit", ⟨2⟩), ("g", ⟨1⟩), ("x", ⟨0⟩)],
    [("log", ⟨⟨1⟩, ⟨[.integer], .void⟩, isValue_integer⟩), ("f", ⟨⟨0⟩, ⟨[.integer], .integer⟩, isValue_integer⟩)]⟩

/-- The host without the others. -/
def spareHost : HostScope := ⟨[("g", ⟨1⟩)], [("f", ⟨⟨0⟩, ⟨[.integer], .integer⟩, isValue_integer⟩)]⟩

theorem ampleHost_agreeOn_spareHost {text : List Char} (hlimit : ¬ "limit".toList <:+: text)
    (hx : ¬ "x".toList <:+: text) (hlog : ¬ "log".toList <:+: text) : ampleHost.AgreeOn text spareHost := by
  have hother (name other : String) (hname : Mentions text name) (h : ¬ other.toList <:+: text) : (name == other) = false := by
    refine beq_eq_false_iff_ne.mpr ?_
    rintro rfl
    exact h hname.2
  refine ⟨fun name hname => ?_, fun name hname => ?_⟩
  · simp only [HostScope.globalNamed?, ampleHost, spareHost, List.lookup_cons, hother name "limit" hname hlimit,
      hother name "x" hname hx]
  · simp only [HostScope.functionNamed?, ampleHost, spareHost, List.lookup_cons, hother name "log" hname hlog]

/-- A program that compiles on both hosts, and one with a name that neither of them publishes. -/
theorem compile_eq_of_agreeOn_spare :
    compile "g = f(a); return g;" ⟨[⟨"a", .integer⟩], .integer⟩ ampleHost =
      compile "g = f(a); return g;" ⟨[⟨"a", .integer⟩], .integer⟩ spareHost ∧
    (compile "g = f(a); return g;" ⟨[⟨"a", .integer⟩], .integer⟩ spareHost).isOk ∧
    compile "g = f(b); return g;" ⟨[], .integer⟩ ampleHost = compile "g = f(b); return g;" ⟨[], .integer⟩ spareHost ∧
    ¬ (compile "g = f(b); return g;" ⟨[], .integer⟩ spareHost).isOk := by
  have hfirst : ampleHost.AgreeOn "g = f(a); return g;".toList spareHost :=
    ampleHost_agreeOn_spareHost (by decide +kernel) (by decide +kernel) (by decide +kernel)
  have hsecond : ampleHost.AgreeOn "g = f(b); return g;".toList spareHost :=
    ampleHost_agreeOn_spareHost (by decide +kernel) (by decide +kernel) (by decide +kernel)
  exact ⟨compile_eq_of_agreeOn hfirst _, by decide +kernel, compile_eq_of_agreeOn hsecond _, by decide +kernel⟩

end HostScript
