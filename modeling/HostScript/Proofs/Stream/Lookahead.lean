import HostScript.Proofs.Reader.Trails

/-! Streams look ahead without a trace.

All that a peek can do from a fresh stream is said once (`Peeked`). A stream stands where its committed
place is whatever operations were done on it, so it peeks there as a fresh one does, and the committed
place only moves forward, when a token is consumed or the end of the text is asked for. -/

namespace HostScript

/-- A scan ends early only where a form does. -/
theorem Matcher.scan_eq_error {read : RuleReader} {cursor : Cursor} {reason : Stop} : ∀ {forms : List Matcher}
    {failures : List Failure}, scan read cursor forms = (.error reason, failures) →
      ∃ form ∈ forms, form.attempt read cursor = .stop reason
  | form :: forms, failures, h => by
    unfold scan at h
    split at h
    next => cases h
    next ha =>
      cases h
      exact ⟨form, List.mem_cons_self, ha⟩
    next =>
      cases hs : scan read cursor forms with
      | mk found failures =>
        rw [hs] at h
        cases h
        obtain ⟨other, hmem, ha⟩ := scan_eq_error hs
        exact ⟨other, List.mem_cons_of_mem form hmem, ha⟩

namespace TokenStream

variable {S : Type} [DecidableEq S] {read : RuleReader} {g : Grammar S} {state : S} {p : Place} {s : TokenStream S}

/-! ### Peeking -/

/-- What a peek from a fresh stream comes to: nothing is read in the last state; elsewhere no form
    matches, one gives a token, or one ends the whole read. -/
inductive Peeked (read : RuleReader) (g : Grammar S) (state : S) (p : Place) :
    Except Stop (Option Token) × TokenStream S → Prop
  | stopped : Peeked read g state p (.ok none, ⟨g, state, ⟨p, p⟩, some none, []⟩)
  | nothing (failures : List Failure) : Peeked read g state p (.ok none, ⟨g, state, ⟨p, p.skip⟩, some none, failures⟩)
  | found {form : Matcher} {token : Token} {q : Place} (failures : List Failure) (mem : form ∈ g.matchers state)
      (attempt : form.attempt read ⟨p, p.skip⟩ = .token token ⟨p, q⟩) :
      Peeked read g state p (.ok (some token), ⟨g, state, ⟨p, q⟩, some (some token), failures⟩)
  | failed {form : Matcher} {reason : Stop} (failures : List Failure) (mem : form ∈ g.matchers state)
      (attempt : form.attempt read ⟨p, p.skip⟩ = .stop reason) :
      Peeked read g state p (.error reason, ⟨g, state, ⟨p, p.skip⟩, none, failures⟩)

theorem peek_fresh (read : RuleReader) (g : Grammar S) (state : S) (p : Place) :
    Peeked read g state p ((fresh g state p).peek read) := by
  have hskip : (Cursor.ofPlace p).revert.skipBlanks = ⟨p, p.skip⟩ := rfl
  simp only [peek, fresh, hskip]
  by_cases hstate : state = g.stop
  · rw [if_pos hstate]
    exact .stopped
  rw [if_neg hstate]
  rcases hscan : Matcher.scan read ⟨p, p.skip⟩ (g.matchers state) with ⟨reason | (_ | ⟨token, behind⟩), failures⟩
  · obtain ⟨form, hmem, ha⟩ := Matcher.scan_eq_error hscan
    exact .failed failures hmem ha
  · exact .nothing failures
  · obtain ⟨form, hmem, ha⟩ := Matcher.scan_eq_some hscan
    obtain ⟨-, q, rfl, -⟩ := Matcher.spans_of_attempt ha
    exact .found failures hmem ha

/-- A stream that has not looked ahead stands where it has committed. -/
theorem stands_of_none (h : s.lookahead = none) : Stands read s.grammar s.state s.cursor.committed s := by
  obtain ⟨g, state, cursor, lookahead, failures⟩ := s
  cases h
  exact ⟨rfl, rfl⟩

/-- What the stream keeps is what a peek came to. -/
theorem Stands.peeked (hs : Stands read g state p s) {found : Option Token} (h : s.lookahead = some found) :
    Peeked read g state p (.ok found, s) := by
  have hpeek : s.peek read = (.ok found, s) := by simp only [TokenStream.peek, h]
  rw [← hpeek, hs.peek]
  exact peek_fresh read g state p

omit [DecidableEq S] in
/-- A token that was found is one that a form of the state gave behind the blanks. -/
theorem Peeked.form {outcome : Except Stop (Option Token) × TokenStream S} (h : Peeked read g state p outcome)
    {token : Token} (hl : outcome.2.lookahead = some (some token)) :
    ∃ form ∈ g.matchers state, form.attempt read ⟨p, p.skip⟩ = .token token ⟨p, outcome.2.cursor.peeked⟩ := by
  cases h with
  | stopped => cases hl
  | nothing => cases hl
  | found failures mem attempt =>
    cases hl
    exact ⟨_, mem, attempt⟩
  | failed => cases hl

/-- The token that a stream keeps leads from behind the blanks to the peeked place. -/
theorem Stands.token (hs : Stands read g state p s) {token : Token} (hl : s.lookahead = some (some token)) :
    token.position = p.skip.position ∧ p.skip.Spans token.text.toList s.cursor.peeked := by
  obtain ⟨form, -, ha⟩ := (hs.peeked hl).form hl
  obtain ⟨hposition, q, hq, hspans⟩ := Matcher.spans_of_attempt ha
  cases hq
  exact ⟨hposition, hspans⟩

/-! ### Operations -/

/-- What can be asked of a stream. -/
inductive Operation (S : Type) where
  | peek
  | commit
  | revert
  | setState (state : S)
  | atEnd
  | position
  | error (expected : List TokenKind)

/-- The stream behind an operation. -/
def after (read : RuleReader) (s : TokenStream S) : Operation S → TokenStream S
  | .peek => (s.peek read).2
  | .commit => s.commit.2
  | .revert => s.revert
  | .setState state => s.setState state
  | .atEnd => s.atEnd.2
  | .position | .error _ => s

/-- The stream behind a run of operations. -/
def afterAll (read : RuleReader) (s : TokenStream S) (ops : List (Operation S)) : TokenStream S :=
  ops.foldl (after read) s

/-- The stream stands where it has committed. -/
def Steady (read : RuleReader) (s : TokenStream S) : Prop := Stands read s.grammar s.state s.cursor.committed s

/-- The operations that may move the committed place: consuming a token that was found, and asking for
    the end of the text. -/
def mayCommit (s : TokenStream S) : Operation S → Bool
  | .commit => s.found?.isSome
  | .atEnd => true
  | _ => false

omit [DecidableEq S] in
theorem commit_cases (s : TokenStream S) :
    (∃ token, s.lookahead = some (some token) ∧
      s.commit = (some token, { s with cursor := s.cursor.commit, lookahead := none })) ∨
    (s.found? = none ∧ s.commit = (none, s)) := by
  unfold commit found?
  rcases s.lookahead with _ | _ | token
  · exact .inr ⟨rfl, rfl⟩
  · exact .inr ⟨rfl, rfl⟩
  · exact .inl ⟨token, rfl, rfl⟩

/-- A peek leaves the stream where it stands. -/
theorem Steady.of_peek (hs : s.Steady read) : (s.peek read).2.Steady read ∧ (s.peek read).2.grammar = s.grammar ∧
    (s.peek read).2.cursor.committed = s.cursor.committed := by
  have hpeeked := peek_fresh read s.grammar s.state s.cursor.committed
  rw [← Stands.peek hs] at hpeeked
  -- the stream that was reached peeks again as it did before
  have hagain := Stands.peek hs
  generalize s.peek read = outcome at hpeeked hagain
  cases hpeeked with
  | stopped => exact ⟨⟨rfl, hagain⟩, rfl, rfl⟩
  | nothing failures => exact ⟨⟨rfl, hagain⟩, rfl, rfl⟩
  | found failures mem attempt => exact ⟨⟨rfl, hagain⟩, rfl, rfl⟩
  | failed failures mem attempt => exact ⟨stands_of_none rfl, rfl, rfl⟩

/-- What one operation does to the place where the stream stands. -/
theorem Steady.after (hs : s.Steady read) (op : Operation S) : (s.after read op).Steady read ∧
    (s.after read op).grammar = s.grammar ∧ s.cursor.committed.Reaches (s.after read op).cursor.committed ∧
    ((s.after read op).cursor.committed = s.cursor.committed ∨ s.mayCommit op = true) := by
  cases op with
  | peek =>
    obtain ⟨hsteady, hgrammar, hcommitted⟩ := hs.of_peek
    exact ⟨hsteady, hgrammar, hcommitted ▸ .refl _, .inl hcommitted⟩
  | commit =>
    rcases s.commit_cases with ⟨token, hl, hcommit⟩ | ⟨-, hcommit⟩
    · have hreaches := s.cursor.committed.spans_skip.reaches.trans (Stands.token hs hl).2.reaches
      have hfound : s.found? = some token := by
        rw [found?, hl]
        rfl
      simp only [TokenStream.after, hcommit, mayCommit, hfound]
      exact ⟨stands_of_none rfl, trivial, hreaches, .inr rfl⟩
    · simp only [TokenStream.after, hcommit]
      exact ⟨hs, trivial, .refl _, .inl trivial⟩
  | revert => exact ⟨stands_of_none rfl, rfl, .refl _, .inl rfl⟩
  | setState state => exact ⟨stands_of_none rfl, rfl, .refl _, .inl rfl⟩
  | atEnd => exact ⟨stands_of_none rfl, rfl, s.cursor.committed.spans_skip.reaches, .inr rfl⟩
  | position | error => exact ⟨hs, rfl, .refl _, .inl rfl⟩

theorem steady_ofCursor (read : RuleReader) (g : Grammar S) (cursor : Cursor) : (ofCursor g cursor).Steady read :=
  stands_of_none rfl

/-- What all operations do. -/
theorem Steady.afterAll (hs : s.Steady read) (ops : List (Operation S)) : (s.afterAll read ops).Steady read ∧
    (s.afterAll read ops).grammar = s.grammar ∧ s.cursor.committed.Reaches (s.afterAll read ops).cursor.committed := by
  induction ops generalizing s with
  | nil => exact ⟨hs, rfl, .refl _⟩
  | cons op ops ih =>
    obtain ⟨hsteady, hgrammar, hreaches, -⟩ := hs.after op
    obtain ⟨hsteady', hgrammar', hreaches'⟩ := ih hsteady
    exact ⟨hsteady', hgrammar'.trans hgrammar, hreaches.trans hreaches'⟩

/-- Whatever was asked of a stream, it peeks as a stream does that is made at its committed place and put
    in its state. Nothing but consuming a token that was found and asking for the end of the text moves
    that place, and these only forward. -/
theorem lookahead_transparent (g : Grammar S) (read : RuleReader) (cursor : Cursor) (ops : List (Operation S)) :
    let s := (ofCursor g cursor).afterAll read ops
    cursor.committed.Reaches s.cursor.committed ∧
      s.peek read = ((ofCursor g (.ofPlace s.cursor.committed)).setState s.state).peek read ∧
      ∀ op, s.cursor.committed.Reaches (s.after read op).cursor.committed ∧
        ((s.after read op).cursor.committed = s.cursor.committed ∨ s.mayCommit op = true) := by
  obtain ⟨hsteady, hgrammar, hreaches⟩ := (steady_ofCursor read g cursor).afterAll ops
  refine ⟨hreaches, ?_, fun op => (hsteady.after op).2.2⟩
  have hfresh : (ofCursor g (.ofPlace ((ofCursor g cursor).afterAll read ops).cursor.committed)).setState
      ((ofCursor g cursor).afterAll read ops).state =
        fresh g ((ofCursor g cursor).afterAll read ops).state ((ofCursor g cursor).afterAll read ops).cursor.committed := rfl
  rw [hfresh, Stands.peek hsteady, hgrammar]
  rfl

end TokenStream
end HostScript
