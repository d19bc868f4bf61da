import HostScript.Proofs.Stream.Tiling
import Mathlib.Data.List.Induction

/-! Where the failures told in an error come from.

A stream keeps why forms did not match, but not where it tried them. A ledger notes the state and the place
beside each failure, so it tells which failures an error reports from elsewhere: those of a token that was
consumed while nothing has made the stream forget them, and no others. -/

namespace HostScript

variable {S : Type}

/-- The failures of a scan are those of its forms. -/
theorem Matcher.attempt_of_mem_failures {read : RuleReader} {cursor : Cursor} {failure : Failure} :
    ∀ {forms : List Matcher}, failure ∈ (scan read cursor forms).2 →
      ∃ form ∈ forms, form.kind = failure.kind ∧ form.attempt read cursor = .failure failure.reason
  | form :: forms, h => by
    unfold scan at h
    cases ha : form.attempt read cursor with
    | token token behind =>
      rw [ha] at h
      cases h
    | stop reason =>
      rw [ha] at h
      cases h
    | failure reason =>
      rw [ha] at h
      rcases List.mem_cons.mp h with rfl | h
      · exact ⟨form, List.mem_cons_self, rfl, ha⟩
      · obtain ⟨other, hmem, hother⟩ := attempt_of_mem_failures h
        exact ⟨other, List.mem_cons_of_mem form hmem, hother⟩

namespace TokenStream

/-- A failure with the state and the committed place from which the form was tried. -/
structure Note (S : Type) where
  failure : Failure
  state : S
  place : Place

/-- A form of the state, tried behind the blanks at the place, did not match for the reason noted. -/
def Note.Recorded (read : RuleReader) (g : Grammar S) (note : Note S) : Prop :=
  ∃ form ∈ g.matchers note.state, form.kind = note.failure.kind ∧
    form.attempt read ⟨note.place, note.place.skip⟩ = .failure note.failure.reason

/-- The operation makes a stream forget the failures it keeps, or scan anew. -/
def Operation.forgets : Operation S → Bool
  | .peek | .revert | .setState _ | .atEnd => true
  | .commit | .position | .error _ => false

variable [DecidableEq S] {read : RuleReader} {g : Grammar S} {s : TokenStream S}

/-- What a peek keeps was recorded where the stream stands. -/
theorem recorded_of_peek (read : RuleReader) (hl : s.lookahead = none) :
    (s.peek read).2.state = s.state ∧
      ∀ failure ∈ (s.peek read).2.failures, Note.Recorded read s.grammar ⟨failure, s.state, s.cursor.committed⟩ := by
  have hskip : s.cursor.revert.skipBlanks = ⟨s.cursor.committed, s.cursor.committed.skip⟩ := rfl
  simp only [TokenStream.peek, hl, hskip]
  by_cases hstate : s.state = s.grammar.stop
  · rw [if_pos hstate]
    exact ⟨rfl, List.forall_mem_nil _⟩
  rw [if_neg hstate]
  have hrecorded : ∀ failure ∈ (Matcher.scan read ⟨s.cursor.committed, s.cursor.committed.skip⟩
      (s.grammar.matchers s.state)).2, Note.Recorded read s.grammar ⟨failure, s.state, s.cursor.committed⟩ :=
    fun failure h => Matcher.attempt_of_mem_failures h
  rcases hscan : Matcher.scan read ⟨s.cursor.committed, s.cursor.committed.skip⟩ (s.grammar.matchers s.state) with
    ⟨reason | (_ | ⟨token, behind⟩), failures⟩ <;> rw [hscan] at hrecorded
  · exact ⟨rfl, hrecorded⟩
  · exact ⟨rfl, hrecorded⟩
  · exact ⟨rfl, hrecorded⟩

/-- The last token found was consumed, and nothing has been asked since that makes the stream forget. -/
def JustConsumed (read : RuleReader) (s : TokenStream S) (ops : List (Operation S)) : Prop :=
  ∃ before behind, ops = before ++ .commit :: behind ∧ (s.afterAll read before).found?.isSome ∧
    ∀ op ∈ behind, op.forgets = false

theorem justConsumed_concat {ops : List (Operation S)} {op : Operation S} :
    JustConsumed read s (ops ++ [op]) ↔
      (op = .commit ∧ (s.afterAll read ops).found?.isSome) ∨ (op.forgets = false ∧ JustConsumed read s ops) := by
  constructor
  · rintro ⟨before, behind, hops, hfound, hbehind⟩
    rcases List.eq_nil_or_concat behind with rfl | ⟨behind, last, rfl⟩
    · obtain ⟨rfl, hop⟩ := List.append_inj' hops rfl
      cases hop
      exact .inl ⟨rfl, hfound⟩
    · rw [List.concat_eq_append] at hops hbehind
      rw [← List.cons_append, ← List.append_assoc] at hops
      obtain ⟨rfl, hop⟩ := List.append_inj' hops rfl
      cases hop
      rw [List.forall_mem_append] at hbehind
      exact .inr ⟨hbehind.2 op List.mem_cons_self, before, behind, rfl, hfound, hbehind.1⟩
  · rintro (⟨rfl, hfound⟩ | ⟨hop, before, behind, rfl, hfound, hbehind⟩)
    · exact ⟨ops, [], rfl, hfound, List.forall_mem_nil _⟩
    · refine ⟨before, behind ++ [op], by rw [List.append_assoc, List.cons_append], hfound, ?_⟩
      exact List.forall_mem_append.mpr ⟨hbehind, List.forall_mem_singleton.mpr hop⟩

/-! ### Ledgers -/

/-- A stream and a note on each failure that it keeps. -/
structure Ledger (S : Type) where
  stream : TokenStream S
  notes : List (Note S)

namespace Ledger

variable {ctx : Context} {ledger : Ledger S} {consumed : Prop}

/-- A ledger without notes. -/
def start (g : Grammar S) (cursor : Cursor) : Ledger S := ⟨ofCursor g cursor, []⟩

/-- A peek that scans makes the notes anew. -/
def step (read : RuleReader) (ledger : Ledger S) : Operation S → Ledger S
  | .peek =>
    match ledger.stream.lookahead with
    | some _ => ledger
    | none =>
      let s := (ledger.stream.peek read).2
      ⟨s, s.failures.map fun failure => ⟨failure, ledger.stream.state, ledger.stream.cursor.committed⟩⟩
  | .commit => { ledger with stream := ledger.stream.commit.2 }
  | .position | .error _ => ledger
  | op => ⟨ledger.stream.after read op, []⟩

/-- The ledger behind a run of operations. -/
def steps (read : RuleReader) (ledger : Ledger S) (ops : List (Operation S)) : Ledger S := ops.foldl (step read) ledger

/-- The notes on the failures that an error tells if one of the kinds is expected. -/
def reported (ledger : Ledger S) (expected : List TokenKind) : List (Note S) :=
  if (ledger.stream.grammar.matchers ledger.stream.state).any (expected.contains ·.kind) then
    ledger.notes.filter (expected.contains ·.failure.kind)
  else []

omit [DecidableEq S] in
theorem mem_notes_of_reported {expected : List TokenKind} {note : Note S} (h : note ∈ ledger.reported expected) :
    note ∈ ledger.notes := by
  unfold reported at h
  split at h
  · exact (List.mem_filter.mp h).1
  · cases h

theorem stream_step (ledger : Ledger S) (op : Operation S) :
    (ledger.step read op).stream = ledger.stream.after read op := by
  cases op with
  | peek =>
    simp only [step, after]
    cases hl : ledger.stream.lookahead with
    | none => rfl
    | some found => simp only [TokenStream.peek, hl]
  | _ => rfl

theorem stream_steps (ledger : Ledger S) (ops : List (Operation S)) :
    (ledger.steps read ops).stream = ledger.stream.afterAll read ops :=
  (List.foldl_hom stream fun ledger op => (ledger.stream_step op).symm).symm

omit [DecidableEq S] in
/-- An error tells the reasons of the failures that are reported, and if there are none it does not depend
    on what the stream keeps. -/
theorem error_eq (h : ledger.notes.map Note.failure = ledger.stream.failures) (expected : List TokenKind) :
    ledger.stream.error expected =
      if (ledger.reported expected).isEmpty then { ledger.stream with failures := [] }.error expected
      else .unrecognizedToken ledger.stream.position
        ("; ".intercalate ((ledger.reported expected).map (·.failure.reason))) := by
  have hreasons : (ledger.stream.failures.filter (expected.contains ·.kind)).map Failure.reason =
      (ledger.notes.filter (expected.contains ·.failure.kind)).map (·.failure.reason) := by
    rw [← h, List.filter_map, List.map_map]
    rfl
  unfold error reported
  rw [hreasons]
  by_cases hcandidate : (ledger.stream.grammar.matchers ledger.stream.state).any (expected.contains ·.kind)
  · simp only [hcandidate, if_true, List.isEmpty_map]
    cases (ledger.notes.filter (expected.contains ·.failure.kind)).isEmpty <;> rfl
  · simp only [hcandidate]
    rfl

/-- What the notes say of the failures that the stream keeps. They were recorded in its state, and at its
    committed place unless the token found there was just consumed. -/
structure Kept (read : RuleReader) (g : Grammar S) (consumed : Prop) (ledger : Ledger S) : Prop where
  steady : ledger.stream.Steady read
  grammar : ledger.stream.grammar = g
  failures : ledger.notes.map Note.failure = ledger.stream.failures
  recorded : ∀ note ∈ ledger.notes, note.state = ledger.stream.state ∧ note.Recorded read g
  unread : consumed → ledger.stream.lookahead = none
  current : ¬consumed → ∀ note ∈ ledger.notes, note.place = ledger.stream.cursor.committed
  stale : consumed → ∀ note ∈ ledger.notes,
    note.place.position.offset < ledger.stream.cursor.committed.position.offset

theorem kept_start (read : RuleReader) (g : Grammar S) (cursor : Cursor) : (start g cursor).Kept read g False where
  steady := steady_ofCursor read g cursor
  grammar := rfl
  failures := rfl
  recorded := List.forall_mem_nil _
  unread := False.elim
  current _ := List.forall_mem_nil _
  stale := False.elim

/-- A token that is found lies ahead of the committed place. -/
theorem offset_lt_of_found (hr : ∀ {state q}, ctx.Ready g state q) (hs : s.Steady ctx.rules) (hg : s.grammar = g)
    {token : Token} (hl : s.lookahead = some (some token)) :
    s.cursor.committed.position.offset < s.cursor.peeked.position.offset := by
  obtain ⟨form, hmem, ha⟩ := (Stands.peeked hs hl).form hl
  obtain ⟨hreaches, hlt⟩ := (hr form (hg ▸ hmem)).token ha
  have hskip := s.cursor.committed.reaches_skip.offset_le
  exact Nat.lt_of_le_of_lt hskip (hreaches.offset_lt hlt)

/-- A stream that has looked ahead has consumed nothing since it scanned. -/
theorem Kept.not_consumed (h : ledger.Kept read g consumed) {found : Option Token}
    (hl : ledger.stream.lookahead = some found) : ¬consumed := by
  intro hc
  rw [h.unread hc] at hl
  cases hl

/-- An operation that leaves the ledger alone. -/
theorem Kept.of_iff {consumed' : Prop} (h : ledger.Kept read g consumed) (hiff : consumed' ↔ consumed) :
    ledger.Kept read g consumed' := by
  rwa [propext hiff]

/-- An operation after which nothing is kept. -/
theorem Kept.of_forgotten (h : ledger.Kept read g consumed) {consumed' : Prop} {s : TokenStream S}
    (hgrammar : s.grammar = ledger.stream.grammar) (hl : s.lookahead = none) (hfailures : s.failures = [])
    (hconsumed : ¬consumed') : Kept read g consumed' ⟨s, []⟩ where
  steady := stands_of_none hl
  grammar := hgrammar.trans h.grammar
  failures := hfailures.symm
  recorded := List.forall_mem_nil _
  unread hc := absurd hc hconsumed
  current _ := List.forall_mem_nil _
  stale hc := absurd hc hconsumed

theorem Kept.peek (h : ledger.Kept read g consumed) {consumed' : Prop} (hconsumed : ¬consumed') :
    (ledger.step read .peek).Kept read g consumed' := by
  unfold Ledger.step
  cases hl : ledger.stream.lookahead with
  | some found => exact h.of_iff ⟨fun hc => absurd hc hconsumed, fun hc => absurd hc (h.not_consumed hl)⟩
  | none =>
    obtain ⟨hsteady, hgrammar, hcommitted⟩ := h.steady.of_peek
    obtain ⟨hstate, hrecorded⟩ := recorded_of_peek read hl
    refine ⟨hsteady, hgrammar.trans h.grammar, ?_, ?_, fun hc => absurd hc hconsumed, fun _ => ?_,
      fun hc => absurd hc hconsumed⟩
    · simp [Function.comp_def]
    · intro note hnote
      obtain ⟨failure, hfailure, rfl⟩ := List.mem_map.mp hnote
      exact ⟨hstate.symm, h.grammar ▸ hrecorded failure hfailure⟩
    · intro note hnote
      obtain ⟨failure, hfailure, rfl⟩ := List.mem_map.mp hnote
      exact hcommitted.symm

theorem Kept.commit (hr : ∀ {state q}, ctx.Ready g state q) (h : ledger.Kept ctx.rules g consumed) :
    (ledger.step ctx.rules .commit).Kept ctx.rules g (ledger.stream.found?.isSome ∨ consumed) := by
  unfold Ledger.step
  rcases ledger.stream.commit_cases with ⟨token, hl, hcommit⟩ | ⟨hfound, hcommit⟩
  · rw [hcommit]
    have hfound : ledger.stream.found?.isSome := by simp [found?, hl]
    refine ⟨stands_of_none rfl, h.grammar, h.failures, h.recorded, fun _ => rfl, fun hc => absurd (.inl hfound) hc,
      fun _ note hnote => ?_⟩
    rw [h.current (h.not_consumed hl) note hnote]
    exact offset_lt_of_found hr h.steady h.grammar hl
  · rw [hcommit, hfound]
    exact h.of_iff (by simp)

/-- What one operation does to the ledger. -/
theorem Kept.step (hr : ∀ {state q}, ctx.Ready g state q) (h : ledger.Kept ctx.rules g consumed) (op : Operation S) :
    (ledger.step ctx.rules op).Kept ctx.rules g
      ((op = .commit ∧ ledger.stream.found?.isSome) ∨ (op.forgets = false ∧ consumed)) := by
  cases op with
  | peek => exact h.peek (by simp [Operation.forgets])
  | commit => exact (h.commit hr).of_iff (by simp [Operation.forgets])
  | revert | setState | atEnd => exact h.of_forgotten rfl rfl rfl (by simp [Operation.forgets])
  | position | error => exact h.of_iff (by simp [Operation.forgets])

/-- What all operations do. -/
theorem kept_steps (hr : ∀ {state q}, ctx.Ready g state q) (cursor : Cursor) (ops : List (Operation S)) :
    ((start g cursor).steps ctx.rules ops).Kept ctx.rules g (JustConsumed ctx.rules (ofCursor g cursor) ops) := by
  induction ops using List.reverseRecOn with
  | nil =>
    refine (kept_start ctx.rules g cursor).of_iff ⟨?_, False.elim⟩
    rintro ⟨before, behind, hops, -⟩
    exact absurd hops.symm (by simp)
  | append_singleton ops op ih =>
    have hconcat : (start g cursor).steps ctx.rules (ops ++ [op]) =
        ((start g cursor).steps ctx.rules ops).step ctx.rules op := by simp [Ledger.steps]
    rw [hconcat]
    refine (ih.step hr op).of_iff ?_
    rw [stream_steps]
    exact justConsumed_concat

end Ledger
end TokenStream

open TokenStream

/-- The failures that an error of a construct's stream tells are noted in a ledger of all that was asked of
    the stream. Each was recorded by a form of the present state; and it was recorded at the committed place
    unless a token was just consumed, with nothing asked since that makes the stream forget. -/
theorem failures_reported (scope : Scope) (construct : Construct) (cursor : Cursor)
    (ops : List (Operation construct.State)) (expected : List TokenKind) :
    let s := (ofCursor construct.grammar cursor).afterAll (Rule.read scope) ops
    let ledger := (Ledger.start construct.grammar cursor).steps (Rule.read scope) ops
    ledger.stream = s ∧ ledger.notes.map Note.failure = s.failures ∧
      (s.error expected =
        if (ledger.reported expected).isEmpty then { s with failures := [] }.error expected
        else .unrecognizedToken s.position ("; ".intercalate ((ledger.reported expected).map (·.failure.reason)))) ∧
      ∀ note ∈ ledger.reported expected, note.state = s.state ∧ note.Recorded (Rule.read scope) construct.grammar ∧
        (note.place = s.cursor.committed ↔ ¬JustConsumed (Rule.read scope) (ofCursor construct.grammar cursor) ops) := by
  have hready {state q} : scope.context.Ready construct.grammar state q := construct.proper.ready_context
  have hkept := Ledger.kept_steps hready cursor ops
  have hstream : ((Ledger.start construct.grammar cursor).steps (Rule.read scope) ops).stream =
      (ofCursor construct.grammar cursor).afterAll (Rule.read scope) ops := Ledger.stream_steps _ ops
  have herror := Ledger.error_eq hkept.failures expected
  dsimp only
  rw [← hstream]
  refine ⟨rfl, hkept.failures, herror, fun note hnote => ?_⟩
  have hmem := Ledger.mem_notes_of_reported hnote
  obtain ⟨hstate, hrecorded⟩ := hkept.recorded note hmem
  refine ⟨hstate, hrecorded, fun hplace hjust => ?_, fun hjust => hkept.current hjust note hmem⟩
  have hlt := hkept.stale hjust note hmem
  rw [hplace] at hlt
  exact absurd hlt (Nat.lt_irrefl _)

/-- Behind the number of `1-2`, with the minus ahead, the stream of an expression says that no sign matches:
    these failures were recorded at the number. A stream that has forgotten them does not say so, and a peek
    finds the minus. -/
theorem failures_reported_behind_number :
    let s := (ofCursor (Construct.rule .expression).grammar (.ofString "1-2")).afterAll (Rule.read {}) [.peek, .commit]
    s.error [.unaryOperator] = .unrecognizedToken ⟨1, 1, 2⟩
        "no match for '\\+' regex; no match for '\\-' regex; no match for '!' regex" ∧
      s.revert.error [.unaryOperator] = .unrecognizedToken ⟨1, 1, 2⟩ "expected unary operator, found '-2'" ∧
      (s.after (Rule.read {}) .peek).found?.map (fun token => (token.kind, token.text, token.position)) =
        some (.unaryOperator, "-", ⟨1, 1, 2⟩) := by
  decide +kernel

end HostScript
