import HostScript.Proofs.Reader.Composition
import HostScript.Proofs.Stream.Lookahead

/-! Readers that proceed.

A reader proceeds if it gives a result and stands further on, or finds an error that names a place it has
come by; it is never sent into the middle of a character and never out of steps. A token leads forward
because no word of a grammar is empty (`Proper`), and a rule because it arrives behind some text
(`Arrives`). The moves proceed wherever all forms do that they try (`Ready`). -/

namespace HostScript

variable {S : Type}

/-! ### Places further on -/

namespace Place

variable {p q : Place} {position : Position}

theorem Reaches.length_le (h : p.Reaches q) : q.rest.length ≤ p.rest.length := by
  obtain ⟨front, hrest, -⟩ := h
  rw [hrest, List.length_append]
  exact Nat.le_add_left _ _

theorem Reaches.offset_le (h : p.Reaches q) : p.position.offset ≤ q.position.offset := by
  obtain ⟨front, -, hposition⟩ := h
  rw [hposition, offset_afterAll]
  exact Nat.le_add_right _ _

theorem Reaches.offset_lt (h : p.Reaches q) (hlt : q.rest.length < p.rest.length) :
    p.position.offset < q.position.offset := by
  obtain ⟨front, hrest, hposition⟩ := h
  rw [hposition, offset_afterAll]
  cases front with
  | nil =>
    rw [hrest] at hlt
    exact absurd hlt (Nat.lt_irrefl _)
  | cons c front =>
    have hsize := c.utf8Size_pos
    rw [bytes]
    omega

theorem Spans.length_lt {text : List Char} (h : p.Spans text q) (hne : text ≠ []) : q.rest.length < p.rest.length := by
  have := List.length_pos_iff.mpr hne
  rw [h.rest, List.length_append]
  omega

theorem reaches_skip (p : Place) : p.Reaches p.skip := p.spans_skip.reaches

/-- Some place at or behind `p` has the position. -/
def Meets (p : Place) (position : Position) : Prop := ∃ q, p.Reaches q ∧ q.position = position

theorem meets_self (p : Place) : p.Meets p.position := ⟨p, .refl p, rfl⟩

theorem Meets.mono (h : q.Meets position) (hpq : p.Reaches q) : p.Meets position := by
  obtain ⟨r, hqr, hr⟩ := h
  exact ⟨r, hpq.trans hqr, hr⟩

end Place

/-- The position in the text that an error names. -/
def CompileError.position? : CompileError → Option Position
  | unexpectedToken position .. | unrecognizedToken position _ | unrecognizedStatement position _
  | unsupportedIdentifier position _ | unresolvedIdentifier position .. => some position
  | typeMismatch (.source position) .. | argumentCount (.source position) .. => some position
  | typeMismatch .entryPoint .. | argumentCount .entryPoint .. | unreachableReturn | invalidPattern .. => none

namespace Stop

/-- The read found an error, which names a place at or behind `p` if it names one. -/
def FoundFrom (p : Place) : Stop → Prop
  | .error cause => ∀ position ∈ cause.position?, p.Meets position
  | .split | .exhausted => False

theorem FoundFrom.mono {p q : Place} : ∀ {reason : Stop}, reason.FoundFrom q → p.Reaches q → reason.FoundFrom p
  | .error _, h, hpq => fun position hposition => (h position hposition).mono hpq

theorem foundFrom_of_position {p : Place} {position : Position} {cause : CompileError}
    (h : cause.position? = some position) (hp : p.Meets position) : (Stop.error cause).FoundFrom p := by
  intro other hother
  rw [h] at hother
  cases hother
  exact hp

end Stop

/-- What comes of reading at `p`: a result behind some text, or an error. -/
structure Arrives {α : Type} (p : Place) (r : Except Stop (α × Cursor)) : Prop where
  ok : ∀ {a : α} {behind : Cursor}, r = .ok (a, behind) →
    ∃ q, behind = .ofPlace q ∧ p.Reaches q ∧ q.rest.length < p.rest.length
  error : ∀ {reason : Stop}, r = .error reason → reason.FoundFrom p

/-! ### Forms -/

/-- What the pattern matches has a character. -/
def Pattern.proper : Pattern → Bool
  | sign s | keyword s => !s.toList.isEmpty
  | name | number => true

theorem Pattern.ne_nil_of_match? {text w : List Char} : ∀ {pattern : Pattern}, pattern.proper →
    pattern.match? text = some w → w ≠ []
  | sign s, hp, h => by
    cases eq_of_match?_sign h
    simpa [proper] using hp
  | keyword k, hp, h => by
    obtain ⟨tail, rfl⟩ := append_of_match? h
    obtain ⟨rfl, -⟩ := eq_of_match?_keyword h
    simpa [proper] using hp
  | name, _, h => by
    obtain ⟨c, cs, hw, -⟩ := cons_of_isName (isName_of_match? h)
    rw [String.toList_ofList] at hw
    rw [hw]
    exact List.cons_ne_nil c cs
  | number, _, h => by
    obtain ⟨c, cs, hw, -⟩ := cons_of_isNumber (isNumber_of_match? h)
    rw [String.toList_ofList] at hw
    rw [hw]
    exact List.cons_ne_nil c cs

namespace Matcher

/-- The form consumes something when it matches as a word. -/
def proper : Matcher → Bool
  | terminal form => form.pattern.proper
  | rule _ => true

/-- The rule of a form that is one. -/
def rule? : Matcher → Option Rule
  | terminal _ => none
  | rule form => some form

end Matcher

namespace Grammar

/-- No word that the grammar allows is empty. -/
def Proper (g : Grammar S) : Prop := ∀ state, (g.matchers state).all Matcher.proper

/-- The rules that are tried in a state. -/
def rulesIn (g : Grammar S) (state : S) : List Rule := (g.matchers state).filterMap Matcher.rule?

end Grammar

theorem Construct.proper (construct : Construct) : construct.grammar.Proper := by
  intro state
  cases construct with
  | rule rule => cases rule <;> cases state <;> rfl
  | program => cases state <;> rfl

namespace Rule

variable {rules : RuleReader} {rule : Rule} {p start : Place}

/-- The stream is led to the very place at which the rule arrived. -/
theorem lands_of_attempt (h : Arrives start (rules rule (.ofPlace start))) {token : Token} {behind : Cursor}
    (ha : rule.attempt rules ⟨p, start⟩ = .token token behind) :
    ∃ payload q, rules rule (.ofPlace start) = .ok (payload, .ofPlace q) ∧ behind = ⟨p, q⟩ ∧ start.Reaches q ∧
      q.rest.length < start.rest.length := by
  obtain ⟨payload, inner, text, q, hread, hcut, -, rfl⟩ := attempt_eq_token ha
  obtain ⟨r, rfl, hreaches, hlt⟩ := h.ok hread
  obtain ⟨front, hcut'⟩ := hreaches.cut?_eq
  rw [show (Cursor.ofPlace r).committed = r from rfl, hcut'] at hcut
  cases hcut
  exact ⟨payload, _, hread, rfl, hreaches, hlt⟩

theorem foundFrom_of_attempt (h : Arrives start (rules rule (.ofPlace start))) {reason : Stop}
    (ha : rule.attempt rules ⟨p, start⟩ = .stop reason) : reason.FoundFrom start := by
  have hfork : Cursor.fork ⟨p, start⟩ = .ofPlace start := rfl
  unfold attempt at ha
  rw [hfork] at ha
  split at ha
  next payload inner hread =>
    obtain ⟨r, rfl, hreaches, -⟩ := h.ok hread
    obtain ⟨front, hcut⟩ := hreaches.cut?_eq
    have hcursor : (Cursor.mk p start).cut? (r.position.offset - start.position.offset) = some (front, ⟨p, r⟩) := by
      simp only [Cursor.cut?, hcut, Option.map_some]
    dsimp only at ha
    rw [show (Cursor.ofPlace r).committed = r from rfl, hcursor] at ha
    cases ha
  next cause hread =>
    split at ha
    · cases ha
      exact h.error hread
    · cases ha
  next reason' _ hread =>
    cases ha
    exact h.error hread

end Rule

/-- A token leads further on, and what ends the read is an error. -/
structure Matcher.Arrives (rules : RuleReader) (p start : Place) (form : Matcher) : Prop where
  token : ∀ {token : Token} {q : Place}, form.attempt rules ⟨p, start⟩ = .token token ⟨p, q⟩ →
    start.Reaches q ∧ q.rest.length < start.rest.length
  stop : ∀ {reason : Stop}, form.attempt rules ⟨p, start⟩ = .stop reason → reason.FoundFrom start

/-- Every form of the state arrives from the place. -/
def Context.Ready (ctx : Context) (g : Grammar S) (state : S) (p : Place) : Prop :=
  ∀ form ∈ g.matchers state, form.Arrives ctx.rules p p.skip

/-- In a state of a proper grammar only the rules can fail to arrive. -/
theorem Grammar.Proper.ready {g : Grammar S} (hg : g.Proper) {ctx : Context} {state : S} {p : Place}
    (hr : ∀ rule ∈ g.rulesIn state, HostScript.Arrives p.skip (ctx.rules rule (.ofPlace p.skip))) :
    ctx.Ready g state p := by
  intro form hmem
  cases form with
  | terminal form =>
    have hproper : form.pattern.proper := List.all_eq_true.mp (hg state) _ hmem
    refine ⟨fun ha => ?_, fun ha => ?_⟩
    · obtain ⟨w, payload, hmatch, -, -, hbehind⟩ := Terminal.attempt_eq_token ha
      cases hbehind
      obtain ⟨tail, htail⟩ := Pattern.append_of_match? hmatch
      have hspans := Place.spans_drop htail
      exact ⟨hspans.reaches, hspans.length_lt (Pattern.ne_nil_of_match? hproper hmatch)⟩
    · simp only [Matcher.attempt, Terminal.attempt] at ha
      split at ha
      · cases ha
      · split at ha <;> cases ha
  | rule rule =>
    have harrives := hr rule (List.mem_filterMap.mpr ⟨_, hmem, rfl⟩)
    refine ⟨fun ha => ?_, Rule.foundFrom_of_attempt harrives⟩
    obtain ⟨-, q, -, hq, hreaches, hlt⟩ := Rule.lands_of_attempt harrives ha
    cases hq
    exact ⟨hreaches, hlt⟩

theorem Grammar.Proper.ready_of_words {g : Grammar S} (hg : g.Proper) {ctx : Context} {state : S} {p : Place}
    (h : g.rulesIn state = []) : ctx.Ready g state p := by
  refine hg.ready fun rule hmem => ?_
  rw [h] at hmem
  cases hmem

namespace TokenStream

variable {s s' : TokenStream S}

theorem position?_error (s : TokenStream S) (kinds : List TokenKind) :
    (s.error kinds).position? = some s.position := by
  unfold error
  dsimp only
  split <;> rfl

theorem position?_statementError (s : TokenStream S) (kinds : List TokenKind) :
    (s.statementError kinds).position? = some s.position := by
  have h := position?_error s kinds
  unfold statementError
  split
  next heq => rwa [heq] at h
  next heq => rwa [heq] at h
  next => exact h

/-- Where a statement is expected the error says so, whatever was found. -/
theorem statementError_eq (s : TokenStream S) (kinds : List TokenKind) :
    ∃ diagnostic, s.statementError kinds = .unrecognizedStatement s.position diagnostic := by
  by_cases h : (s.grammar.matchers s.state).any (kinds.contains ·.kind)
  · simp only [statementError, error, if_pos h]
    exact ⟨_, rfl⟩
  · simp only [statementError, error, if_neg h]
    exact ⟨_, rfl⟩

/-- Behind a peek the position is that of a place where a token was looked for. -/
theorem Stands.meets_position [DecidableEq S] {read : RuleReader} {g : Grammar S} {state : S} {p : Place}
    (hs : Stands read g state p s) {seen : Option Token} (h : s.peek read = (.ok seen, s')) : p.Meets s'.position := by
  have hpeeked := peek_fresh read g state p
  rw [← hs.peek, h] at hpeeked
  cases hpeeked with
  | stopped => exact p.meets_self
  | nothing => exact ⟨p.skip, p.reaches_skip, rfl⟩
  | found failures mem attempt => exact ⟨p.skip, p.reaches_skip, (Matcher.spans_of_attempt attempt).1.symm⟩

/-- Behind a peek from where no blank comes next the position is still the same. -/
theorem Stands.position_eq [DecidableEq S] {read : RuleReader} {g : Grammar S} {state : S} {p : Place}
    (hs : Stands read g state p s) {seen : Option Token} (h : s.peek read = (.ok seen, s')) (hp : p.skip = p) :
    s'.position = p.position := by
  have hpeeked := peek_fresh read g state p
  rw [← hs.peek, h] at hpeeked
  cases hpeeked with
  | stopped => rfl
  | nothing => exact congrArg Place.position hp
  | found failures mem attempt => exact (Matcher.spans_of_attempt attempt).1.trans (congrArg Place.position hp)

end TokenStream

open TokenStream

namespace Reader

/-! ### Readers -/

variable {α β : Type}

variable [DecidableEq S] {ctx : Context} {g : Grammar S} {origin p q : Place} {state next : S} {kinds : List TokenKind}
  {x : Reader S α} {post : α → S → Place → Prop}

/-- From where the stream stands the reader gives a result and stands further on, or it finds an error
    that names no place before `origin`. -/
structure Proceeds (ctx : Context) (g : Grammar S) (origin : Place) (x : Reader S α) (state : S) (p : Place)
    (post : α → S → Place → Prop) : Prop where
  ok : ∀ {s s' : TokenStream S} {a : α}, Stands ctx.rules g state p s → x s = .ok a s' →
    ∃ state' q, Stands ctx.rules g state' q s' ∧ p.Reaches q ∧ post a state' q
  error : ∀ {s s' : TokenStream S} {reason : Stop}, Stands ctx.rules g state p s → x s = .error reason s' →
    reason.FoundFrom origin

namespace Proceeds

theorem pure {a : α} (h : post a state p) : Proceeds ctx g origin (Pure.pure a) state p post where
  ok hs hx := by
    cases hx
    exact ⟨state, p, hs, .refl p, h⟩
  error _ hx := by cases hx

theorem bind {f : α → Reader S β} {mid : α → S → Place → Prop} {post : β → S → Place → Prop}
    (hx : Proceeds ctx g origin x state p mid)
    (hf : ∀ a state₁ q, p.Reaches q → mid a state₁ q → Proceeds ctx g origin (f a) state₁ q post) :
    Proceeds ctx g origin (x >>= f) state p post where
  ok hs h := by
    obtain ⟨a, s₁, ha, hfa⟩ := EStateM.ok_of_bind h
    obtain ⟨state₁, q, hs₁, hpq, hmid⟩ := hx.ok hs ha
    obtain ⟨state₂, r, hs₂, hqr, hpost⟩ := (hf a state₁ q hpq hmid).ok hs₁ hfa
    exact ⟨state₂, r, hs₂, hpq.trans hqr, hpost⟩
  error hs h := by
    rcases EStateM.error_of_bind h with ha | ⟨a, s₁, ha, hfa⟩
    · exact hx.error hs ha
    · obtain ⟨state₁, q, hs₁, hpq, hmid⟩ := hx.ok hs ha
      exact (hf a state₁ q hpq hmid).error hs₁ hfa

theorem mono {post' : α → S → Place → Prop} (hx : Proceeds ctx g origin x state p post)
    (h : ∀ a state' q, p.Reaches q → post a state' q → post' a state' q) : Proceeds ctx g origin x state p post' where
  ok hs hok := by
    obtain ⟨state', q, hs', hpq, hpost⟩ := hx.ok hs hok
    exact ⟨state', q, hs', hpq, h _ _ _ hpq hpost⟩
  error := hx.error

/-- What is read behind consumed text ends behind it too. -/
theorem behind (hlt : q.rest.length < p.rest.length) (hx : Proceeds ctx g origin x state q fun _ _ _ => True) :
    Proceeds ctx g origin x state q fun _ _ r => r.rest.length < p.rest.length :=
  hx.mono fun _ _ _ hqr _ => Nat.lt_of_le_of_lt hqr.length_le hlt

/-- The stream stands as before. -/
def Unmoved (state : S) (p : Place) (_ : α) (state' : S) (q : Place) : Prop := state' = state ∧ q = p

theorem unmoved (hx : Proceeds ctx g origin x state p (Unmoved state p)) (h : ∀ a, post a state p) :
    Proceeds ctx g origin x state p post := by
  refine hx.mono fun a state' q _ hq => ?_
  obtain ⟨rfl, rfl⟩ := hq
  exact h a

theorem unmoved_bind {f : α → Reader S β} {post : β → S → Place → Prop}
    (hx : Proceeds ctx g origin x state p (Unmoved state p)) (hf : ∀ a, Proceeds ctx g origin (f a) state p post) :
    Proceeds ctx g origin (x >>= f) state p post := by
  refine .bind hx fun a state₁ q _ hq => ?_
  obtain ⟨rfl, rfl⟩ := hq
  exact hf a

theorem fail {cause : CompileError} {position : Position} (h : cause.position? = some position)
    (ho : origin.Meets position) : Proceeds ctx g origin (Reader.fail cause : Reader S α) state p post where
  ok _ hx := by cases hx
  error _ hx := by
    cases hx
    exact Stop.foundFrom_of_position h ho

theorem locate {r : Except SemanticError α} {position : Position} (ho : origin.Meets position) :
    Proceeds ctx g origin (Reader.locate position r) state p (Unmoved state p) := by
  cases r with
  | ok a => exact .pure ⟨rfl, rfl⟩
  | error e => exact .fail (by cases e <;> rfl) ho

theorem setState : Proceeds ctx g origin (Reader.setState next) state p (Unmoved next p) where
  ok {s s' a} hs hx := by
    change EStateM.Result.ok () (s.setState next) = _ at hx
    cases hx
    exact ⟨next, p, hs.setState next ▸ stands_fresh .., .refl p, rfl, rfl⟩
  error _ hx := by cases hx

theorem setState_bind {f : Unit → Reader S α} (hf : ∀ a, Proceeds ctx g origin (f a) next p post) :
    Proceeds ctx g origin (Reader.setState next >>= f) state p post := by
  refine .bind .setState fun a state₁ q _ hq => ?_
  obtain ⟨rfl, rfl⟩ := hq
  exact hf a

theorem atEnd : Proceeds ctx g origin Reader.atEnd state p (Unmoved state p.skip) where
  ok {s s' a} hs hx := by
    have hend : s.atEnd.2 = fresh g state p.skip := by
      rw [TokenStream.atEnd, hs.revert]
      rfl
    change EStateM.Result.ok s.atEnd.1 s.atEnd.2 = _ at hx
    rw [hend] at hx
    cases hx
    exact ⟨state, p.skip, stands_fresh .., p.reaches_skip, rfl, rfl⟩
  error _ hx := by cases hx

/-! ### Moves -/

/-- A peek keeps the stream where it stands. What ends it is an error that a form found. -/
theorem peek (ho : origin.Reaches p) (hr : ctx.Ready g state p) :
    Proceeds ctx g origin (Reader.peek ctx) state p (Unmoved state p) where
  ok hs hx := by
    obtain ⟨found, -, -, hs'⟩ := hs.finds (peek_eq_ok hx)
    exact ⟨state, p, hs', .refl p, rfl, rfl⟩
  error {s s' reason} hs hx := by
    have hpeeked := peek_fresh ctx.rules g state p
    rw [← hs.peek] at hpeeked
    unfold Reader.peek at hx
    generalize s.peek ctx.rules = outcome at hpeeked hx
    cases hpeeked with
    | stopped | nothing | found => cases hx
    | failed failures mem attempt =>
      cases hx
      exact ((hr _ mem).stop attempt).mono (ho.trans p.reaches_skip)

theorem test (ho : origin.Reaches p) (hr : ctx.Ready g state p) :
    Proceeds ctx g origin (Reader.test ctx kinds) state p (Unmoved state p) := by
  refine .unmoved_bind (.peek ho hr) fun found => ?_
  cases found <;> exact .pure ⟨rfl, rfl⟩

/-- What is known behind a token that was consumed. -/
structure Consumed (origin p : Place) (next : S) (token : Token) (state : S) (q : Place) : Prop where
  state_eq : state = next
  shorter : q.rest.length < p.rest.length
  meets : origin.Meets token.position

/-- The next token is consumed, or the stream stands as before. -/
theorem accept (ho : origin.Reaches p) (hr : ctx.Ready g state p) :
    Proceeds ctx g origin (Reader.accept ctx kinds next) state p fun found state' q =>
      (∃ token, found = some token ∧ Consumed origin p next token state' q) ∨ (found = none ∧ state' = state ∧ q = p) where
  ok {s s' a} hs hx := by
    rcases accept_cases hs hx with ⟨token, q, rfl, -, hfinds, rfl⟩ | ⟨rfl, hs', -⟩
    · obtain ⟨form, hmem, -, ha⟩ := hfinds.form
      obtain ⟨hreaches, hlt⟩ := (hr form hmem).token ha
      obtain ⟨hposition, -⟩ := Matcher.spans_of_attempt ha
      refine ⟨next, q, stands_fresh .., p.reaches_skip.trans hreaches, .inl ⟨token, rfl, rfl, ?_, ?_⟩⟩
      · exact Nat.lt_of_lt_of_le hlt p.reaches_skip.length_le
      · rw [hposition]
        exact p.skip.meets_self.mono (ho.trans p.reaches_skip)
    · exact ⟨state, p, hs', .refl p, .inr ⟨rfl, rfl, rfl⟩⟩
  error hs hx := by
    rcases EStateM.error_of_bind hx with htest | ⟨b, s₁, -, hx⟩
    · exact (Proceeds.test ho hr).error hs htest
    · cases b <;> cases hx

/-- What follows an optional token is read behind it, or from the same place without it. -/
theorem accept_bind {f : Option Token → Reader S α} (ho : origin.Reaches p) (hr : ctx.Ready g state p)
    (hsome : ∀ token q, origin.Reaches q → Consumed origin p next token next q →
      Proceeds ctx g origin (f (some token)) next q post)
    (hnone : Proceeds ctx g origin (f none) state p post) :
    Proceeds ctx g origin (Reader.accept ctx kinds next >>= f) state p post := by
  refine .bind (.accept ho hr) fun found state₁ q hpq hfound => ?_
  rcases hfound with ⟨token, rfl, hconsumed⟩ | ⟨rfl, rfl, rfl⟩
  · cases hconsumed.state_eq
    exact hsome token q (ho.trans hpq) hconsumed
  · exact hnone

/-- What follows a token that must come. Without it the error is told by the stream as it stands. -/
theorem required_bind {f : Option Token → Reader S α} (error : TokenStream S → CompileError)
    (herror : ∀ s, (error s).position? = some s.position) (hnone : ∀ s, f none s = .error (.error (error s)) s)
    (ho : origin.Reaches p) (hr : ctx.Ready g state p)
    (hsome : ∀ token q, origin.Reaches q → Consumed origin p next token next q →
      Proceeds ctx g origin (f (some token)) next q post) :
    Proceeds ctx g origin (Reader.accept ctx kinds next >>= f) state p post where
  ok hs h := by
    obtain ⟨found, s₁, ha, hf⟩ := EStateM.ok_of_bind h
    obtain ⟨state₁, q, hs₁, hpq, ⟨token, rfl, hconsumed⟩ | ⟨rfl, -⟩⟩ := (Proceeds.accept ho hr).ok hs ha
    · cases hconsumed.state_eq
      obtain ⟨state₂, r, hs₂, hqr, hpost⟩ := (hsome token q (ho.trans hpq) hconsumed).ok hs₁ hf
      exact ⟨state₂, r, hs₂, hpq.trans hqr, hpost⟩
    · rw [hnone] at hf
      cases hf
  error hs h := by
    rcases EStateM.error_of_bind h with ha | ⟨found, s₁, ha, hf⟩
    · exact (Proceeds.accept ho hr).error hs ha
    obtain ⟨state₁, q, hs₁, hpq, ⟨token, rfl, hconsumed⟩ | ⟨rfl, -⟩⟩ := (Proceeds.accept ho hr).ok hs ha
    · cases hconsumed.state_eq
      exact (hsome token q (ho.trans hpq) hconsumed).error hs₁ hf
    · rcases accept_eq_ok ha with ⟨_, _, hsome, -⟩ | ⟨-, seen, hpeek, -⟩
      · cases hsome
      have hmeets := (hs.meets_position hpeek).mono ho
      rw [hnone] at hf
      cases hf
      exact Stop.foundFrom_of_position (herror _) hmeets

theorem expect (ho : origin.Reaches p) (hr : ctx.Ready g state p) :
    Proceeds ctx g origin (Reader.expect ctx kinds next) state p (Consumed origin p next) :=
  required_bind (·.error kinds) (position?_error · kinds) (fun _ => rfl) ho hr fun _ _ _ h => .pure h

/-- What follows a token that `expect` gives. -/
theorem expect_bind {f : Token → Reader S α} (ho : origin.Reaches p) (hr : ctx.Ready g state p)
    (hf : ∀ token q, origin.Reaches q → Consumed origin p next token next q →
      Proceeds ctx g origin (f token) next q post) :
    Proceeds ctx g origin (Reader.expect ctx kinds next >>= f) state p post := by
  refine .bind (.expect ho hr) fun token state₁ q hpq hconsumed => ?_
  cases hconsumed.state_eq
  exact hf token q (ho.trans hpq) hconsumed

theorem expectExpression (ho : origin.Reaches p) (hr : ctx.Ready g state p) :
    Proceeds ctx g origin (Reader.expectExpression ctx next) state p fun a state' q =>
      state' = next ∧ q.rest.length < p.rest.length ∧ origin.Meets a.2 := by
  refine .expect_bind ho hr fun token q _ hconsumed => ?_
  split
  · exact .pure ⟨rfl, hconsumed.shorter, hconsumed.meets⟩
  · exact .fail rfl hconsumed.meets

theorem expectStatement (ho : origin.Reaches p) (hr : ctx.Ready g state p) :
    Proceeds ctx g origin (Reader.expectStatement ctx kinds next) state p fun _ state' q =>
      state' = next ∧ q.rest.length < p.rest.length := by
  refine required_bind (·.statementError kinds) (position?_statementError · kinds) (fun _ => rfl) ho hr
    fun token q _ hconsumed => ?_
  dsimp only
  split
  · exact .pure ⟨rfl, hconsumed.shorter⟩
  · exact .fail rfl hconsumed.meets

theorem expectExpression_bind {f : Expr × Position → Reader S α} (ho : origin.Reaches p) (hr : ctx.Ready g state p)
    (hf : ∀ tree position q, origin.Reaches q → q.rest.length < p.rest.length → origin.Meets position →
      Proceeds ctx g origin (f (tree, position)) next q post) :
    Proceeds ctx g origin (Reader.expectExpression ctx next >>= f) state p post := by
  refine .bind (.expectExpression ho hr) fun a state₁ q hpq h => ?_
  obtain ⟨rfl, hlt, hmeets⟩ := h
  exact hf a.1 a.2 q (ho.trans hpq) hlt hmeets

theorem expectStatement_bind {f : Stmt → Reader S α} (ho : origin.Reaches p) (hr : ctx.Ready g state p)
    (hf : ∀ tree q, origin.Reaches q → q.rest.length < p.rest.length → Proceeds ctx g origin (f tree) next q post) :
    Proceeds ctx g origin (Reader.expectStatement ctx kinds next >>= f) state p post := by
  refine .bind (.expectStatement ho hr) fun tree state₁ q hpq h => ?_
  obtain ⟨rfl, hlt⟩ := h
  exact hf tree q (ho.trans hpq) hlt

theorem unresolved {name : String} {position : Position} {kind : SymbolKind} (ho : origin.Meets position) :
    Proceeds ctx g origin (Reader.fail (Reader.unresolved name position kind) : Reader S α) state p post := by
  unfold Reader.unresolved
  split <;> exact .fail rfl ho

theorem resolveVariable {name : Token} (ho : origin.Meets name.position) :
    Proceeds ctx g origin (Reader.resolveVariable ctx name) state p (Unmoved state p) := by
  unfold Reader.resolveVariable Scope.resolveVariable
  cases ctx.scope.variableNamed? name.text with
  | none => exact unresolved ho
  | some target => exact .pure ⟨rfl, rfl⟩

theorem resolveFunction {name : Token} (ho : origin.Meets name.position) :
    Proceeds ctx g origin (Reader.resolveFunction ctx name) state p (Unmoved state p) := by
  unfold Reader.resolveFunction Scope.resolveFunction
  cases ctx.scope.functionNamed? name.text with
  | none => exact unresolved ho
  | some function => exact .pure ⟨rfl, rfl⟩

theorem of_run (h : Proceeds ctx g origin x g.start p post) {a : α} {behind : Cursor}
    (hrun : x.run g (.ofPlace p) = .ok (a, behind)) : ∃ state q, behind = .ofPlace q ∧ p.Reaches q ∧ post a state q := by
  obtain ⟨s', hx, rfl⟩ := run_eq_ok hrun
  obtain ⟨state, q, hs', hpq, hpost⟩ := h.ok (stands_fresh ctx.rules g g.start p) hx
  exact ⟨state, q, hs'.release, hpq, hpost⟩

theorem foundFrom_of_run (h : Proceeds ctx g origin x g.start p post) {reason : Stop}
    (hrun : x.run g (.ofPlace p) = .error reason) : reason.FoundFrom origin := by
  unfold Reader.run at hrun
  split at hrun
  next => cases hrun
  next hx =>
    cases hrun
    exact h.error (stands_fresh ctx.rules g g.start p) hx

/-- A whole rule arrives if its reader proceeds from the start of its grammar and consumes text. -/
theorem arrives (h : Proceeds ctx g p x g.start p fun _ _ q => q.rest.length < p.rest.length) :
    Arrives p (x.run g (.ofPlace p)) where
  ok hrun := by
    obtain ⟨-, q, hq⟩ := h.of_run hrun
    exact ⟨q, hq⟩
  error := h.foundFrom_of_run

end Proceeds

end Reader
end HostScript
