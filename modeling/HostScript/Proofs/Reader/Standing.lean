import HostScript.Proofs.Reader.Layout
import HostScript.Proofs.Reader.Moves

/-! Where a reader stands.

A stream stands at a place in a state if it would peek there as a fresh stream does; whether it has
peeked already makes no difference. `Reads` says what a reader gives from any stream that stands
somewhere, and where the stream stands then; `Declines` that it fails with an error that lets another
form be tried. -/

namespace HostScript

variable {S : Type}

namespace TokenStream

/-- The stream that has consumed all text before a place and looked at nothing behind it. -/
def fresh (g : Grammar S) (state : S) (p : Place) : TokenStream S := ⟨g, state, .ofPlace p, none, []⟩

variable [DecidableEq S] {rules : RuleReader} {g : Grammar S} {state : S} {p q : Place} {s s' : TokenStream S}

/-- The stream peeks as a fresh one does, and is a fresh one if it forgets what it saw. -/
structure Stands (rules : RuleReader) (g : Grammar S) (state : S) (p : Place) (s : TokenStream S) : Prop where
  revert : s.revert = fresh g state p
  peek : s.peek rules = (fresh g state p).peek rules

theorem stands_fresh (rules : RuleReader) (g : Grammar S) (state : S) (p : Place) :
    Stands rules g state p (fresh g state p) := ⟨rfl, rfl⟩

theorem Stands.setState (h : Stands rules g state p s) (next : S) : s.setState next = fresh g next p := by
  have hs : s.setState next = { s.revert with state := next } := rfl
  rw [hs, h.revert]
  rfl

theorem Stands.grammar_eq (h : Stands rules g state p s) : s.grammar = g := congrArg TokenStream.grammar h.revert

theorem Stands.state_eq (h : Stands rules g state p s) : s.state = state := congrArg TokenStream.state h.revert

theorem Stands.release (h : Stands rules g state p s) : s.release = .ofPlace p := by
  rw [TokenStream.release, h.revert]
  rfl

/-- What comes next at a place: a token and the place behind it, or nothing that the state allows. -/
def Finds (rules : RuleReader) (g : Grammar S) (state : S) (p : Place) : Option (Token × Place) → Prop
  | some (token, q) => ∃ failures, (fresh g state p).peek rules =
      (.ok (some token), ⟨g, state, ⟨p, q⟩, some (some token), failures⟩)
  | none => ∃ peeked failures, (fresh g state p).peek rules =
      (.ok none, ⟨g, state, ⟨p, peeked⟩, some none, failures⟩)

/-- A peek changes nothing about where the stream stands. -/
theorem Stands.of_peek (h : Stands rules g state p s) {found : Option (Token × Place)}
    (hf : Finds rules g state p found) :
    ∃ s', s.peek rules = (.ok (found.map Prod.fst), s') ∧ Stands rules g state p s' := by
  rw [h.peek]
  rcases found with _ | ⟨token, q⟩
  · obtain ⟨peeked, failures, hp⟩ := hf
    exact ⟨_, hp, rfl, hp.symm⟩
  · obtain ⟨failures, hp⟩ := hf
    exact ⟨_, hp, rfl, hp.symm⟩

/-- A token that was found is consumed. -/
theorem Stands.of_commit (h : Stands rules g state p s) {token : Token} (hf : Finds rules g state p (some (token, q)))
    (next : S) : ∃ s', s.peek rules = (.ok (some token), s') ∧ s'.commit.1 = some token ∧
      s'.commit.2.setState next = fresh g next q := by
  obtain ⟨failures, hp⟩ := hf
  rw [h.peek]
  exact ⟨_, hp, rfl, rfl⟩

end TokenStream

open TokenStream

/-! ### Readers -/

namespace Reader

variable [DecidableEq S] {α β : Type} {ctx : Context} {g : Grammar S} {state state₁ state₂ next : S} {p p₁ p₂ q : Place}
  {kinds : List TokenKind} {token : Token}

/-- From where the stream stands the reader gives `a`, and then stands in a state at a place. -/
def Reads (ctx : Context) (g : Grammar S) (x : Reader S α) (state : S) (p : Place) (a : α) (state₁ : S) (p₁ : Place) :
    Prop :=
  ∀ s, Stands ctx.rules g state p s → ∃ s₁, x s = .ok a s₁ ∧ Stands ctx.rules g state₁ p₁ s₁

/-- The reader fails, and another form may be tried. -/
def Declines (ctx : Context) (g : Grammar S) (x : Reader S α) (state : S) (p : Place) : Prop :=
  ∀ s, Stands ctx.rules g state p s → ∃ cause s₁, x s = .error (.error cause) s₁ ∧ cause.isDefinitive = false

theorem Reads.pure (a : α) : Reads ctx g (Pure.pure a) state p a state p := fun s hs => ⟨s, rfl, hs⟩

theorem Reads.bind {x : Reader S α} {f : α → Reader S β} {a : α} {b : β} (hx : Reads ctx g x state p a state₁ p₁)
    (hf : Reads ctx g (f a) state₁ p₁ b state₂ p₂) : Reads ctx g (x >>= f) state p b state₂ p₂ := by
  intro s hs
  obtain ⟨s₁, hx, hs₁⟩ := hx s hs
  obtain ⟨s₂, hf, hs₂⟩ := hf s₁ hs₁
  refine ⟨s₂, ?_, hs₂⟩
  change EStateM.bind x f s = _
  rw [EStateM.bind, hx]
  exact hf

theorem Declines.bind {x : Reader S α} {f : α → Reader S β} (hx : Declines ctx g x state p) :
    Declines ctx g (x >>= f) state p := by
  intro s hs
  obtain ⟨cause, s₁, hx, hsoft⟩ := hx s hs
  refine ⟨cause, s₁, ?_, hsoft⟩
  change EStateM.bind x f s = _
  rw [EStateM.bind, hx]

theorem Reads.bind_declines {x : Reader S α} {f : α → Reader S β} {a : α} (hx : Reads ctx g x state p a state₁ p₁)
    (hf : Declines ctx g (f a) state₁ p₁) : Declines ctx g (x >>= f) state p := by
  intro s hs
  obtain ⟨s₁, hx, hs₁⟩ := hx s hs
  obtain ⟨cause, s₂, hf, hsoft⟩ := hf s₁ hs₁
  refine ⟨cause, s₂, ?_, hsoft⟩
  change EStateM.bind x f s = _
  rw [EStateM.bind, hx]
  exact hf

theorem Reads.locate {r : Except SemanticError α} {a : α} (h : r = .ok a) (position : Position) :
    Reads ctx g (Reader.locate position r) state p a state p := by
  subst h
  exact .pure a

theorem Reads.setState (next : S) : Reads ctx g (Reader.setState next) state p () next p :=
  fun s hs => ⟨fresh g next p, by rw [← hs.setState next]; rfl, stands_fresh ..⟩

theorem Reads.peek {found : Option (Token × Place)} (hf : Finds ctx.rules g state p found) :
    Reads ctx g (Reader.peek ctx) state p (found.map Prod.fst) state p := by
  intro s hs
  obtain ⟨s₁, hp, hs₁⟩ := hs.of_peek hf
  exact ⟨s₁, by simp only [Reader.peek, hp], hs₁⟩

theorem Reads.test {found : Option (Token × Place)} (hf : Finds ctx.rules g state p found) :
    Reads ctx g (Reader.test ctx kinds) state p (found.any (kinds.contains ·.1.kind)) state p := by
  refine (Reads.peek hf).bind ?_
  cases found with
  | none => exact .pure false
  | some found => exact .pure _

/-- The next token is of one of the kinds. -/
theorem Reads.accept (hf : Finds ctx.rules g state p (some (token, q))) (hk : kinds.contains token.kind) :
    Reads ctx g (Reader.accept ctx kinds next) state p (some token) next q := by
  intro s hs
  obtain ⟨s₁, hp, hc, hn⟩ := hs.of_commit hf next
  refine ⟨fresh g next q, ?_, stands_fresh ..⟩
  have ht : Reader.test ctx kinds s = .ok true s₁ := by
    change EStateM.bind (Reader.peek ctx) _ s = _
    rw [EStateM.bind, Reader.peek, hp]
    simp only [hk]
    rfl
  change EStateM.bind (Reader.test ctx kinds) _ s = _
  rw [EStateM.bind, ht, ← hn, ← hc]
  rfl

/-- The next token, if there is one, is of none of the kinds. -/
theorem Reads.accept_none {found : Option (Token × Place)} (hf : Finds ctx.rules g state p found)
    (hk : found.any (kinds.contains ·.1.kind) = false) :
    Reads ctx g (Reader.accept ctx kinds next) state p none state p := by
  have ht : Reads ctx g (Reader.test ctx kinds) state p _ state p := .test hf
  rw [hk] at ht
  exact ht.bind (.pure none)

theorem Reads.expect (h : Reads ctx g (Reader.accept ctx kinds next) state p (some token) next q) :
    Reads ctx g (Reader.expect ctx kinds next) state p token next q :=
  h.bind (.pure token)

theorem Reads.expectExpression {e : Expr}
    (h : Reads ctx g (Reader.accept ctx [.expression] next) state p (some token) next q)
    (hp : token.payload = .expr e) :
    Reads ctx g (Reader.expectExpression ctx next) state p (e, token.position) next q := by
  refine h.expect.bind ?_
  rw [hp]
  exact .pure _

theorem Reads.expectStatement {t : Stmt} (h : Reads ctx g (Reader.accept ctx kinds next) state p (some token) next q)
    (hp : token.payload = .stmt t) : Reads ctx g (Reader.expectStatement ctx kinds next) state p t next q := by
  refine h.bind ?_
  simp only [hp]
  exact .pure t

theorem Reads.resolveVariable {target : Variable} (h : ctx.scope.variableNamed? token.text = some target) :
    Reads ctx g (Reader.resolveVariable ctx token) state p target state p := by
  simp only [Reader.resolveVariable, Scope.resolveVariable, h]
  exact .pure target

theorem Reads.resolveFunction {function : HostFunction} (h : ctx.scope.functionNamed? token.text = some function) :
    Reads ctx g (Reader.resolveFunction ctx token) state p function state p := by
  simp only [Reader.resolveFunction, Scope.resolveFunction, h]
  exact .pure function

omit [DecidableEq S] in
/-- What is wrong with a token never ends the whole read. -/
theorem isDefinitive_error (s : TokenStream S) (kinds : List TokenKind) : (s.error kinds).isDefinitive = false := by
  unfold TokenStream.error
  dsimp only
  split <;> rfl

theorem Declines.expect (h : Reads ctx g (Reader.accept ctx kinds next) state p none state p) :
    Declines ctx g (Reader.expect ctx kinds next) state p := by
  refine h.bind_declines fun s hs => ?_
  exact ⟨s.error kinds, s, rfl, isDefinitive_error s kinds⟩

theorem Declines.expectExpression (h : Reads ctx g (Reader.accept ctx [.expression] next) state p none state p) :
    Declines ctx g (Reader.expectExpression ctx next) state p :=
  (Declines.expect h).bind

/-! ### Whole rules -/

theorem Reads.run (ctx : Context) (state : S) {x : Reader S α} {a : α} (h : Reads ctx g x g.start p a state q) :
    x.run g (.ofPlace p) = .ok (a, .ofPlace q) := by
  obtain ⟨s, hx, hs⟩ := h _ (stands_fresh ctx.rules g g.start p)
  unfold Reader.run
  rw [show TokenStream.ofCursor g (.ofPlace p) = fresh g g.start p from rfl, hx]
  simp only [hs.release]

theorem Declines.run {x : Reader S α} (h : Declines ctx g x g.start p) :
    ∃ cause, x.run g (.ofPlace p) = .error (.error cause) ∧ cause.isDefinitive = false := by
  obtain ⟨cause, s, hx, hsoft⟩ := h _ (stands_fresh ctx.rules g g.start p)
  refine ⟨cause, ?_, hsoft⟩
  unfold Reader.run
  rw [show TokenStream.ofCursor g (.ofPlace p) = fresh g g.start p from rfl, hx]

end Reader

/-! ### Forms -/

namespace Matcher

variable {rules : RuleReader} {p start q : Place}

/-- The form does not match at a place. -/
def Misses (rules : RuleReader) (p start : Place) (form : Matcher) : Prop :=
  ∃ reason, form.attempt rules ⟨p, start⟩ = .failure reason

theorem scan_of_misses {forms : List Matcher} (h : ∀ form ∈ forms, form.Misses rules p start) :
    ∃ failures, scan rules ⟨p, start⟩ forms = (.ok none, failures) := by
  induction forms with
  | nil => exact ⟨[], rfl⟩
  | cons form forms ih =>
    obtain ⟨reason, hr⟩ := h form List.mem_cons_self
    obtain ⟨failures, hs⟩ := ih fun f hf => h f (List.mem_cons_of_mem form hf)
    exact ⟨⟨form.kind, reason⟩ :: failures, by simp only [scan, hr, hs]⟩

/-- The first form that matches gives the token. -/
theorem scan_of_token {before : List Matcher} (form : Matcher) (after : List Matcher) {token : Token}
    (hb : ∀ other ∈ before, other.Misses rules p start) (hf : form.attempt rules ⟨p, start⟩ = .token token ⟨p, q⟩) :
    ∃ failures, scan rules ⟨p, start⟩ (before ++ form :: after) = (.ok (some (token, ⟨p, q⟩)), failures) := by
  induction before with
  | nil => exact ⟨[], by simp only [List.nil_append, scan, hf]⟩
  | cons other before ih =>
    obtain ⟨reason, hr⟩ := hb other List.mem_cons_self
    obtain ⟨failures, hs⟩ := ih fun f hf => hb f (List.mem_cons_of_mem other hf)
    exact ⟨⟨other.kind, reason⟩ :: failures, by simp only [List.cons_append, scan, hr, hs]⟩

/-- The form is a word. -/
def lexical : Matcher → Bool
  | terminal _ => true
  | rule _ => false

/-- What the first form that matches finds at the front of a text. -/
def find? (w : String) : List Matcher → Option (TokenKind × List Char × Payload)
  | [] => none
  | terminal form :: forms =>
    match form.find? w with
    | some (text, payload) => some (form.kind, text, payload)
    | none => find? w forms
  | rule _ :: forms => find? w forms

/-- Words are told apart by the text alone. -/
theorem scan_lexical : ∀ {forms : List Matcher}, (∀ form ∈ forms, form.lexical) →
    ∃ failures, scan rules ⟨p, start⟩ forms = (.ok ((find? (String.ofList start.rest) forms).map fun (kind, text, payload) =>
      (⟨kind, String.ofList text, start.position, payload⟩, ⟨p, start.drop text.length⟩)), failures)
  | [], _ => ⟨[], rfl⟩
  | rule form :: forms, h => by cases h _ List.mem_cons_self
  | terminal form :: forms, h => by
    obtain ⟨failures, ih⟩ := scan_lexical fun other ho => h other (List.mem_cons_of_mem _ ho)
    cases hfind : form.find? (String.ofList start.rest) with
    | none =>
      obtain ⟨reason, hr⟩ := Terminal.failure_of_find? (p := p) hfind
      exact ⟨⟨form.kind, reason⟩ :: failures, by simp only [scan, attempt, hr, ih, find?, hfind]; rfl⟩
    | some found =>
      obtain ⟨text, payload⟩ := found
      have ht := Terminal.attempt_of_find? (p := p) hfind
      exact ⟨[], by simp only [scan, attempt, ht, find?, hfind, Option.map_some]⟩

end Matcher

namespace Rule

variable {rules : RuleReader} {form : Rule} {p start q : Place}

theorem attempt_of_ok {payload : Payload} (h : rules form (.ofPlace start) = .ok (payload, .ofPlace q))
    (hr : start.Reaches q) :
    ∃ text, form.attempt rules ⟨p, start⟩ = .token ⟨form.kind, text, start.position, payload⟩ ⟨p, q⟩ := by
  obtain ⟨front, hcut⟩ := hr.cut?_eq
  refine ⟨String.ofList front, ?_⟩
  have hfork : Cursor.fork ⟨p, start⟩ = .ofPlace start := rfl
  simp only [attempt, hfork, h]
  simp only [Cursor.ofPlace, Cursor.cut?, hcut, Option.map_some]

theorem misses_of_error {cause : CompileError} (h : rules form (.ofPlace start) = .error (.error cause))
    (hsoft : cause.isDefinitive = false) : (Matcher.rule form).Misses rules p start := by
  have hfork : Cursor.fork ⟨p, start⟩ = .ofPlace start := rfl
  refine ⟨"cannot parse " ++ form.kind.text ++ ": " ++ cause.essence, ?_⟩
  simp [Matcher.attempt, attempt, hfork, h, hsoft]

end Rule

namespace TokenStream

variable [DecidableEq S] {rules : RuleReader} {g : Grammar S} {state : S} {p start : Place}

theorem finds_of_scan (hstate : state ≠ g.stop) (hskip : (Cursor.ofPlace p).skipBlanks = ⟨p, start⟩)
    {found : Option (Token × Place)} {failures : List Failure}
    (hs : Matcher.scan rules ⟨p, start⟩ (g.matchers state) =
      (.ok (found.map fun (token, q) => (token, ⟨p, q⟩)), failures)) : Finds rules g state p found := by
  have hcursor : (Cursor.ofPlace p).revert.skipBlanks = ⟨p, start⟩ := hskip
  rcases found with _ | ⟨token, q⟩
  · exact ⟨start, failures, by simp only [peek, fresh, if_neg hstate, hcursor, hs, Option.map_none]⟩
  · exact ⟨failures, by simp only [peek, fresh, if_neg hstate, hcursor, hs, Option.map_some]⟩

end TokenStream

end HostScript
