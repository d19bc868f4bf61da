import HostScript.Proofs.Reader.Progress

/-! Reading ends on every text, and its bounds do not show.

Where rules may nest more deeply or loops may take more steps, a read gives what it gave before unless it
ran out (`Agrees`). It never does, so it goes as if there were no bounds at all: a loop takes as many
steps as it likes, and a rule reads the rules inside it just as it is read itself. -/

namespace HostScript

/-- Wherever `rules` does not run out of steps, `rules'` reads the same. -/
def RuleReader.Agrees (rules rules' : RuleReader) : Prop :=
  ∀ rule p, rules rule (.ofPlace p) = .error .exhausted ∨ rules rule (.ofPlace p) = rules' rule (.ofPlace p)

theorem RuleReader.Agrees.refl (rules : RuleReader) : rules.Agrees rules := fun _ _ => .inr rfl

/-! ### Forms -/

section
variable {rules rules' : RuleReader} (hr : rules.Agrees rules') {cursor : Cursor}
include hr

theorem Matcher.agrees_attempt (form : Matcher) :
    form.attempt rules cursor = .stop .exhausted ∨ form.attempt rules cursor = form.attempt rules' cursor := by
  cases form with
  | terminal form => exact .inr rfl
  | rule form =>
    simp only [attempt, Rule.attempt, Cursor.fork]
    rcases hr form cursor.peeked with h | h
    · rw [h]
      exact .inl rfl
    · rw [h]
      exact .inr rfl

theorem Matcher.agrees_scan (forms : List Matcher) :
    (∃ failures, scan rules cursor forms = (.error .exhausted, failures)) ∨
      scan rules cursor forms = scan rules' cursor forms := by
  induction forms with
  | nil => exact .inr rfl
  | cons form forms ih =>
    simp only [scan]
    rcases form.agrees_attempt hr with h | h
    · rw [h]
      exact .inl ⟨[], rfl⟩
    rw [h]
    cases form.attempt rules' cursor with
    | token | stop => exact .inr rfl
    | failure reason =>
      rcases ih with ⟨failures, ih⟩ | ih
      · exact .inl ⟨_, by rw [ih]⟩
      · exact .inr (by rw [ih])

theorem TokenStream.agrees_peek {S : Type} [DecidableEq S] (s : TokenStream S) :
    (∃ s', s.peek rules = (.error .exhausted, s')) ∨ s.peek rules = s.peek rules' := by
  cases hl : s.lookahead with
  | some found => exact .inr (by simp only [peek, hl])
  | none =>
    simp only [peek, hl]
    by_cases hstate : s.state = s.grammar.stop
    · exact .inr (by rw [if_pos hstate, if_pos hstate])
    rw [if_neg hstate, if_neg hstate]
    rcases Matcher.agrees_scan hr (s.grammar.matchers s.state) with ⟨failures, h⟩ | h
    · exact .inl ⟨_, by rw [h]⟩
    · exact .inr (by rw [h])

end

/-! ### Readers -/

namespace Reader

variable {S α : Type}

/-- Wherever `x` does not run out of steps, `y` does the same. -/
def Agrees (x y : Reader S α) : Prop := ∀ s, (∃ s', x s = .error .exhausted s') ∨ x s = y s

theorem Agrees.refl (x : Reader S α) : Agrees x x := fun _ => .inr rfl

theorem Agrees.bind {β : Type} {x y : Reader S α} {f g : α → Reader S β} (hx : Agrees x y)
    (hf : ∀ a, Agrees (f a) (g a)) : Agrees (x >>= f) (y >>= g) := by
  intro s
  change (∃ s', EStateM.bind x f s = _) ∨ EStateM.bind x f s = EStateM.bind y g s
  simp only [EStateM.bind]
  rcases hx s with ⟨s', h⟩ | h
  · exact .inl ⟨s', by rw [h]⟩
  rw [← h]
  cases x s with
  | ok a s₁ => exact hf a s₁
  | error reason s₁ => exact .inr rfl

theorem agrees_peek [DecidableEq S] {scope : Scope} {rules rules' : RuleReader} (hr : rules.Agrees rules') :
    Agrees (Reader.peek ⟨scope, rules⟩ : Reader S _) (Reader.peek ⟨scope, rules'⟩) := by
  intro s
  simp only [Reader.peek]
  rcases s.agrees_peek hr with ⟨s', h⟩ | h
  · exact .inl ⟨s', by rw [h]⟩
  · exact .inr (by rw [h])

theorem congruence_agrees (scope : Scope) {rules rules' : RuleReader} (hr : rules.Agrees rules') :
    Congruence scope rules rules' fun _ _ => Agrees where
  pure _ := .refl _
  exhausted _ := fun s => .inl ⟨s, rfl⟩
  throw _ := .refl _
  bind := .bind
  get := .refl _
  peek := agrees_peek hr
  commit := .refl _
  setState _ := .refl _

theorem Agrees.run {x y : Reader S α} (h : Agrees x y) (g : Grammar S) (cursor : Cursor) :
    x.run g cursor = .error .exhausted ∨ x.run g cursor = y.run g cursor := by
  unfold Reader.run
  rcases h (.ofCursor g cursor) with ⟨s', h⟩ | h
  · exact .inl (by rw [h])
  · exact .inr (by rw [h])

/-! ### Loops -/

section
variable [DecidableEq S]

/-- In the state, the reader does not run out if it has as many steps as the length of the text behind it
    asks for, and more steps make no difference. -/
def Bounded (ctx : Context) (g : Grammar S) (state : S) (x : Nat → Reader S α) (steps : Nat → Nat) : Prop :=
  ∀ p s extra, TokenStream.Stands ctx.rules g state p s →
    (∀ s', x (steps p.rest.length) s ≠ .error .exhausted s') ∧
      x (steps p.rest.length + extra) s = x (steps p.rest.length) s

theorem bounded_of_agrees {ctx : Context} {g : Grammar S} {state : S} {x : Nat → Reader S α} {steps : Nat → Nat}
    (hx : ∀ {p s s' reason}, TokenStream.Stands ctx.rules g state p s → x (steps p.rest.length) s = .error reason s' →
      reason.FoundFrom p)
    (ha : ∀ {n m}, n ≤ m → Agrees (x n) (x m)) : Bounded ctx g state x steps := by
  intro p s extra hs
  have hne : ∀ s', x (steps p.rest.length) s ≠ .error .exhausted s' := fun s' h => hx hs h
  refine ⟨hne, ?_⟩
  rcases ha (Nat.le_add_right (steps p.rest.length) extra) s with ⟨s', h⟩ | h
  · exact absurd h (hne s')
  · exact h.symm

end

theorem agrees_programBody (ctx : Context) {n m : Nat} (h : n ≤ m) : Agrees (programBody ctx n) (programBody ctx m) := by
  induction n generalizing m with
  | zero => exact fun s => .inl ⟨s, rfl⟩
  | succ n ih =>
    obtain ⟨m, rfl⟩ := Nat.exists_eq_add_of_le' h
    refine .bind (.refl _) fun ended => ?_
    cases ended with
    | true => exact .refl _
    | false => exact .bind (.refl _) fun first => .bind (ih (Nat.le_add_left n m)) fun _ => .refl _

/-- No loop of a reader runs out of steps. -/
structure LoopsBounded (ctx : Context) : Prop where
  subexpression : ∀ ceiling state, Bounded ctx .expression state (subexpression ctx · ceiling) (2 * · + 2)
  operators : ∀ ceiling left state, Bounded ctx .expression state (operators ctx · ceiling left) (2 * · + 1)
  operand : ∀ state, Bounded ctx .expression state (operand ctx) (2 * · + 1)
  callArgs : ∀ state, Bounded ctx .expression state (callArgs ctx) (2 * · + 4)
  moreArgs : ∀ state, Bounded ctx .expression state (moreArgs ctx) (2 * · + 3)
  declaredNames : ∀ known state, Bounded ctx .declaration state (declaredNames ctx · known) (· + 1)
  blockBody : Bounded ctx .blockStatement .inBlock (blockBody ctx) (· + 1)
  programBody : ∀ state, Bounded ctx .program state (programBody ctx) (· + 1)

theorem loopsBounded (scope : Scope) : LoopsBounded scope.context := by
  have hR := congruence_agrees scope (.refl (Rule.read scope))
  have hproceed {p n} := expressionsProceed scope.context p n
  constructor
  case subexpression =>
    intro ceiling state
    exact bounded_of_agrees (hproceed.subexpression (.refl _) (Nat.le_refl _)).error
      fun h => (hR.expressions h).subexpression ceiling
  case operators =>
    intro ceiling left state
    exact bounded_of_agrees (hproceed.operators (.refl _) (Nat.le_refl _)).error
      fun h => (hR.expressions h).operators ceiling left
  case operand =>
    intro state
    exact bounded_of_agrees (hproceed.operand (.refl _) (Nat.le_refl _)).error fun h => (hR.expressions h).operand
  case callArgs =>
    intro state
    exact bounded_of_agrees (hproceed.callArgs (.refl _) (Nat.le_refl _)).error fun h => (hR.expressions h).callArgs
  case moreArgs =>
    intro state
    exact bounded_of_agrees (hproceed.moreArgs (.refl _) (Nat.le_refl _)).error fun h => (hR.expressions h).moreArgs
  case declaredNames =>
    intro known state
    exact bounded_of_agrees (proceeds_declaredNames (.refl _) (Nat.lt_succ_self _)).error
      fun h => hR.declaredNames h known
  case blockBody =>
    have hcovers {depth} := Rule.covers_context scope depth
    exact bounded_of_agrees (proceeds_blockBody hcovers (.refl _) (Nat.lt_succ_self _) (Nat.le_refl _)).error hR.blockBody
  case programBody =>
    intro state
    exact bounded_of_agrees (proceeds_programBody (.refl _) (Nat.lt_succ_self _)).error (agrees_programBody scope.context)

end Reader

/-! ### Rules -/

theorem Arrives.ne_exhausted {α : Type} {p : Place} {r : Except Stop (α × Cursor)} (h : Arrives p r) :
    r ≠ .error .exhausted := fun hr => h.error hr

namespace Rule

variable {scope : Scope}

theorem agrees_body {rules rules' : RuleReader} (hr : rules.Agrees rules') (rule : Rule) (cursor : Cursor) :
    rule.body ⟨scope, rules⟩ cursor = .error .exhausted ∨
      rule.body ⟨scope, rules⟩ cursor = rule.body ⟨scope, rules'⟩ cursor := by
  obtain ⟨α, make, x, y, h, hx, hy⟩ := (Reader.congruence_agrees scope hr).body rule cursor
  rw [hx, hy]
  rcases h.run (Construct.rule rule).grammar cursor with h | h
  · exact .inl (by rw [h]; rfl)
  · exact .inr (by rw [h])

theorem agrees_succ (scope : Scope) : ∀ depth, (readWithin scope depth).Agrees (readWithin scope (depth + 1))
  | 0 => fun _ _ => .inl rfl
  | depth + 1 => fun rule p => agrees_body (agrees_succ scope depth) rule (.ofPlace p)

/-- A read that ends ends alike with any more depth. -/
theorem readWithin_add {depth : Nat} {rule : Rule} {p : Place}
    (h : readWithin scope depth rule (.ofPlace p) ≠ .error .exhausted) (extra : Nat) :
    readWithin scope (depth + extra) rule (.ofPlace p) = readWithin scope depth rule (.ofPlace p) := by
  induction extra with
  | zero => rfl
  | succ extra ih =>
    rcases agrees_succ scope (depth + extra) rule p with hout | heq
    · exact absurd (ih.symm.trans hout) h
    · exact heq.symm.trans ih

/-- Whatever the bound of a nested read was, it reads what is read without one. -/
theorem agrees_read (scope : Scope) (depth : Nat) : (readWithin scope depth).Agrees (read scope) := by
  intro rule p
  by_cases h : readWithin scope depth rule (.ofPlace p) = .error .exhausted
  · exact .inl h
  refine .inr ?_
  rcases Nat.le_total depth (Rule.depth (.ofPlace p)) with hle | hle
  · obtain ⟨extra, hextra⟩ := Nat.exists_eq_add_of_le hle
    rw [read, hextra, readWithin_add h]
  · obtain ⟨extra, rfl⟩ := Nat.exists_eq_add_of_le hle
    exact readWithin_add (arrives_read scope rule p).ne_exhausted extra

/-- A rule reads the rules inside it as it is read itself. -/
theorem read_eq_body (scope : Scope) (rule : Rule) (p : Place) :
    read scope rule (.ofPlace p) = rule.body scope.context (.ofPlace p) := by
  have hne := (arrives_read scope rule p).ne_exhausted
  rcases agrees_body (agrees_read scope (Rule.depth (.ofPlace p) - 1)) rule (.ofPlace p) with h | h
  · exact absurd h hne
  · exact h

end Rule

/-- Reading ends. Every loop is done within a number of steps that the text behind it bounds. Every rule is
    read to an end from every place: no depth beyond the one that the text behind it allows makes a
    difference, and at that depth a rule reads the rules inside it as it is read itself. Every text is read
    to an end as a program. -/
theorem reading_terminates (scope : Scope) :
    Reader.LoopsBounded scope.context ∧
    (∀ rule p, Rule.read scope rule (.ofPlace p) ≠ .error .exhausted ∧
      Rule.read scope rule (.ofPlace p) = rule.body scope.context (.ofPlace p) ∧
      ∀ extra, Rule.readWithin scope (Rule.depth (.ofPlace p) + extra) rule (.ofPlace p) =
        Rule.read scope rule (.ofPlace p)) ∧
    ∀ text, Program.read scope text ≠ .error .exhausted := by
  refine ⟨Reader.loopsBounded scope, fun rule p => ?_, fun text h => Program.foundFrom_of_read h⟩
  have hne := (Rule.arrives_read scope rule p).ne_exhausted
  exact ⟨hne, Rule.read_eq_body scope rule p, Rule.readWithin_add hne⟩

end HostScript
