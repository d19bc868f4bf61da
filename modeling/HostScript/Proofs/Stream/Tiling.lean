import HostScript.Proofs.Reader.Derivations
import HostScript.Proofs.Reader.Termination

/-! Tokens tile the text that is consumed.

A log keeps the tokens that were consumed from a stream. Whatever is done with the stream, the text up to
the committed place is that of these tokens, one behind the other, with nothing but blanks between them.
A rule never asks for the end of the text, so it ends right behind the last token that it consumed; the
texts of its tokens are the words of which its tree is made. -/

namespace HostScript

variable {S : Type}

/-! ### Tiles -/

namespace Place

variable {p q r : Place}

/-- Only blanks stand between the two places. -/
def Blank (p q : Place) : Prop := ∃ gap, p.Spans gap q ∧ ∀ c ∈ gap, isBlank c

theorem Blank.refl (p : Place) : p.Blank p := ⟨[], .refl p, List.forall_mem_nil _⟩

theorem Blank.trans (h₁ : p.Blank q) (h₂ : q.Blank r) : p.Blank r := by
  obtain ⟨gap, hgap, hblank⟩ := h₁
  obtain ⟨gap', hgap', hblank'⟩ := h₂
  exact ⟨gap ++ gap', hgap.trans hgap', List.forall_mem_append.mpr ⟨hblank, hblank'⟩⟩

theorem blank_skip (p : Place) : p.Blank p.skip := ⟨_, p.spans_skip, isBlank_of_mem_takeWhile⟩

end Place

/-- From the first place to the last the text is that of the tokens in order. Each has a text, which stands
    behind blanks at the position that the token names. -/
inductive Tiles : Place → List Token → Place → Prop
  | nil (p : Place) : Tiles p [] p
  | cons {p start q r : Place} {token : Token} {tokens : List Token} (gap : p.Blank start)
      (position : token.position = start.position) (text : token.text ≠ "") (spans : start.Spans token.text.toList q)
      (rest : Tiles q tokens r) : Tiles p (token :: tokens) r

theorem Tiles.snoc {p q start r : Place} {tokens : List Token} {token : Token} (h : Tiles p tokens q)
    (gap : q.Blank start) (position : token.position = start.position) (text : token.text ≠ "")
    (spans : start.Spans token.text.toList r) : Tiles p (tokens ++ [token]) r := by
  induction h with
  | nil p => exact .cons gap position text spans (.nil r)
  | cons gap' position' text' spans' _ ih => exact .cons gap' position' text' spans' (ih gap)

namespace TokenStream

variable [DecidableEq S]

/-- No token that was found is empty. -/
theorem Stands.text_ne {ctx : Context} {g : Grammar S} {state : S} {p : Place} {s : TokenStream S} {token : Token}
    (hs : Stands ctx.rules g state p s) (hr : ctx.Ready g state p) (hl : s.lookahead = some (some token)) :
    token.text ≠ "" := by
  intro hempty
  obtain ⟨form, hmem, ha⟩ := (hs.peeked hl).form hl
  have hlt := ((hr form hmem).token ha).2
  have hspans := (hs.token hl).2.rest
  rw [hempty] at hspans
  rw [hspans] at hlt
  exact absurd hlt (Nat.lt_irrefl _)

/-! ### Logs -/

/-- A stream, the tokens consumed from it so far, and whether the end of the text was asked for behind the
    last of them. -/
structure Log (S : Type) where
  stream : TokenStream S
  tokens : List Token
  ended : Bool

namespace Log

variable {ctx : Context} {read : RuleReader} {g : Grammar S} {p : Place} {log : Log S}

/-- A log without tokens. -/
def start (g : Grammar S) (p : Place) : Log S := ⟨ofCursor g (.ofPlace p), [], false⟩

/-- A commit logs the token it consumes; the question for the end is noted until the next one. -/
def step (read : RuleReader) (log : Log S) : Operation S → Log S
  | .commit =>
    match log.stream.commit with
    | (some token, s) => ⟨s, log.tokens ++ [token], false⟩
    | (none, s) => { log with stream := s }
  | .atEnd => { log with stream := log.stream.atEnd.2, ended := true }
  | op => { log with stream := log.stream.after read op }

/-- The log behind a run of operations. -/
def steps (read : RuleReader) (log : Log S) (ops : List (Operation S)) : Log S := ops.foldl (step read) log

theorem stream_step (log : Log S) (op : Operation S) : (log.step read op).stream = log.stream.after read op := by
  cases op with
  | commit =>
    simp only [step, after]
    cases log.stream.commit with
    | mk consumed s => cases consumed <;> rfl
  | _ => rfl

theorem stream_steps (log : Log S) (ops : List (Operation S)) :
    (log.steps read ops).stream = log.stream.afterAll read ops := by
  induction ops generalizing log with
  | nil => rfl
  | cons op ops ih => exact (ih (log.step read op)).trans (by rw [stream_step]; rfl)

theorem ended_step {op : Operation S} (h : log.ended = false) (hop : op ≠ .atEnd) :
    (log.step read op).ended = false := by
  cases op with
  | commit =>
    simp only [step]
    cases log.stream.commit with
    | mk consumed s =>
      cases consumed with
      | some token => rfl
      | none => exact h
  | atEnd => exact absurd rfl hop
  | _ => exact h

theorem ended_steps {ops : List (Operation S)} (h : log.ended = false) (hops : .atEnd ∉ ops) :
    (log.steps read ops).ended = false := by
  induction ops generalizing log with
  | nil => exact h
  | cons op ops ih =>
    rw [List.mem_cons, not_or] at hops
    exact ih (ended_step h (Ne.symm hops.1)) hops.2

/-- The tokens of the log tile the text up to the committed place, but for blanks that were skipped in
    search of the end of the text. -/
structure Tiled (read : RuleReader) (g : Grammar S) (p : Place) (log : Log S) : Prop where
  steady : log.stream.Steady read
  grammar : log.stream.grammar = g
  tiles : ∃ q, Tiles p log.tokens q ∧ q.Blank log.stream.cursor.committed ∧
    (log.ended = true ∨ log.stream.cursor.committed = q)

theorem tiled_start (read : RuleReader) (g : Grammar S) (p : Place) : (start g p).Tiled read g p :=
  ⟨steady_ofCursor read g (.ofPlace p), rfl, p, .nil p, .refl p, .inr rfl⟩

/-- An operation that neither consumes a token nor moves the committed place. -/
theorem Tiled.of_committed_eq {log' : Log S} (h : log.Tiled read g p) (hsteady : log'.stream.Steady read)
    (hgrammar : log'.stream.grammar = log.stream.grammar)
    (hcommitted : log'.stream.cursor.committed = log.stream.cursor.committed) (htokens : log'.tokens = log.tokens)
    (hended : log'.ended = log.ended) : log'.Tiled read g p where
  steady := hsteady
  grammar := hgrammar.trans h.grammar
  tiles := by
    rw [hcommitted, htokens, hended]
    exact h.tiles

theorem Tiled.step (hr : ∀ {state q}, ctx.Ready g state q) (h : log.Tiled ctx.rules g p) (op : Operation S) :
    (log.step ctx.rules op).Tiled ctx.rules g p := by
  cases op with
  | commit =>
    rcases log.stream.commit_cases with ⟨token, hl, hcommit⟩ | ⟨-, hcommit⟩
    · simp only [Log.step, hcommit]
      obtain ⟨q, htiles, hblank, -⟩ := h.tiles
      obtain ⟨hposition, hspans⟩ := Stands.token h.steady hl
      have htext : token.text ≠ "" := Stands.text_ne h.steady (h.grammar ▸ hr) hl
      exact ⟨stands_of_none rfl, h.grammar, _, htiles.snoc (hblank.trans (Place.blank_skip _)) hposition htext hspans,
        .refl _, .inr rfl⟩
    · simp only [Log.step, hcommit]
      exact h
  | peek =>
    obtain ⟨hsteady, hgrammar, hcommitted⟩ := h.steady.of_peek
    exact h.of_committed_eq hsteady hgrammar hcommitted rfl rfl
  | atEnd =>
    obtain ⟨q, htiles, hblank, -⟩ := h.tiles
    exact ⟨stands_of_none rfl, h.grammar, q, htiles, hblank.trans (Place.blank_skip _), .inl rfl⟩
  | revert | setState => exact h.of_committed_eq (stands_of_none rfl) rfl rfl rfl rfl
  | position | error => exact h

theorem Tiled.steps (hr : ∀ {state q}, ctx.Ready g state q) (h : log.Tiled ctx.rules g p) (ops : List (Operation S)) :
    (log.steps ctx.rules ops).Tiled ctx.rules g p := by
  induction ops generalizing log with
  | nil => exact h
  | cons op ops ih => exact ih (h.step hr op)

/-- As long as nobody asks for the end of the text, the committed place is the end of the last token. -/
theorem tiles_steps (hr : ∀ {state q}, ctx.Ready g state q) {ops : List (Operation S)} (hops : .atEnd ∉ ops) :
    Tiles p ((start g p).steps ctx.rules ops).tokens ((start g p).steps ctx.rules ops).stream.cursor.committed := by
  have hended : ((start g p).steps ctx.rules ops).ended = false := ended_steps rfl hops
  obtain ⟨q, htiles, -, hend⟩ := ((tiled_start ctx.rules g p).steps hr ops).tiles
  rw [hended] at hend
  rwa [hend.resolve_left Bool.false_ne_true]

end Log
end TokenStream

open TokenStream

namespace Reader

variable {α β : Type}

/-! ### Moves -/

/-- The stream that a reader leaves, whether it gives a result or stops. -/
def leaves (x : Reader S α) (s : TokenStream S) : TokenStream S :=
  match x s with
  | .ok _ s' | .error _ s' => s'

/-- What follows leaves the stream alone. -/
theorem leaves_bind {x : Reader S α} {f : α → Reader S β} (hf : ∀ a s, (f a).leaves s = s) (s : TokenStream S) :
    (x >>= f).leaves s = x.leaves s := by
  change (match EStateM.bind x f s with | .ok _ s' | .error _ s' => s') = _
  unfold leaves EStateM.bind
  cases x s with
  | ok a s' => exact hf a s'
  | error reason s' => rfl

variable [DecidableEq S]

/-- What can be done with the stream of a reader: the operations of the stream, and the moves of which the
    rules are written. -/
inductive Move (S : Type) where
  | operation (op : Operation S)
  | peek
  | test (kinds : List TokenKind)
  | accept (kinds : List TokenKind) (next : S)
  | expect (kinds : List TokenKind) (next : S)
  | expectExpression (next : S)
  | expectStatement (kinds : List TokenKind) (next : S)
  | setState (state : S)
  | atEnd
  | resolveVariable (name : Token)
  | resolveFunction (name : Token)

namespace Move

/-- The stream behind a move. -/
def stream (ctx : Context) (s : TokenStream S) : Move S → TokenStream S
  | operation op => s.after ctx.rules op
  | peek => (Reader.peek ctx).leaves s
  | test kinds => (Reader.test ctx kinds).leaves s
  | accept kinds next => (Reader.accept ctx kinds next).leaves s
  | expect kinds next => (Reader.expect ctx kinds next).leaves s
  | expectExpression next => (Reader.expectExpression ctx next).leaves s
  | expectStatement kinds next => (Reader.expectStatement ctx kinds next).leaves s
  | setState state => (Reader.setState state).leaves s
  | atEnd => Reader.atEnd.leaves s
  | resolveVariable name => (Reader.resolveVariable ctx name).leaves s
  | resolveFunction name => (Reader.resolveFunction ctx name).leaves s

/-- The operations on the stream when a token of one of the kinds may be consumed. -/
def acceptance (ctx : Context) (s : TokenStream S) (kinds : List TokenKind) (next : S) : List (Operation S) :=
  match (s.peek ctx.rules).1 with
  | .ok (some token) => if kinds.contains token.kind then [.peek, .commit, .setState next] else [.peek]
  | _ => [.peek]

/-- The operations on the stream that a move comes to. -/
def operations (ctx : Context) (s : TokenStream S) : Move S → List (Operation S)
  | operation op => [op]
  | peek | test _ => [.peek]
  | accept kinds next | expect kinds next | expectStatement kinds next => acceptance ctx s kinds next
  | expectExpression next => acceptance ctx s [.expression] next
  | setState state => [.setState state]
  | atEnd => [.atEnd]
  | resolveVariable _ | resolveFunction _ => []

variable {ctx : Context}

theorem leaves_peek (s : TokenStream S) : (Reader.peek ctx).leaves s = (s.peek ctx.rules).2 := by
  unfold leaves Reader.peek
  cases s.peek ctx.rules with
  | mk outcome s' => cases outcome <;> rfl

theorem leaves_test (kinds : List TokenKind) (s : TokenStream S) :
    (Reader.test ctx kinds).leaves s = (s.peek ctx.rules).2 := by
  refine (leaves_bind (fun found s => ?_) s).trans (leaves_peek s)
  cases found <;> rfl

theorem leaves_accept (kinds : List TokenKind) (next : S) (s : TokenStream S) :
    (Reader.accept ctx kinds next).leaves s = s.afterAll ctx.rules (acceptance ctx s kinds next) := by
  have hpeek : s.after ctx.rules .peek = (s.peek ctx.rules).2 := rfl
  change leaves (EStateM.bind (EStateM.bind (Reader.peek ctx) _) _) s = _
  unfold leaves acceptance EStateM.bind Reader.peek
  rcases h : s.peek ctx.rules with ⟨reason | (_ | token), s₁⟩ <;> rw [h] at hpeek
  · exact hpeek.symm
  · exact hpeek.symm
  dsimp only
  cases hk : kinds.contains token.kind with
  | false => exact hpeek.symm
  | true =>
    rw [if_pos rfl, afterAll, List.foldl_cons, hpeek]
    rfl

theorem leaves_expect (kinds : List TokenKind) (next : S) (s : TokenStream S) :
    (Reader.expect ctx kinds next).leaves s = (Reader.accept ctx kinds next).leaves s := by
  refine leaves_bind (fun found s => ?_) s
  cases found <;> rfl

/-- A move does to the stream what its operations do. -/
theorem stream_eq (m : Move S) (s : TokenStream S) : m.stream ctx s = s.afterAll ctx.rules (m.operations ctx s) := by
  cases m with
  | operation op => rfl
  | peek => exact leaves_peek s
  | test kinds => exact leaves_test kinds s
  | accept kinds next => exact leaves_accept kinds next s
  | expect kinds next => exact (leaves_expect kinds next s).trans (leaves_accept kinds next s)
  | expectExpression next =>
    refine ((leaves_bind (fun token s => ?_) s).trans (leaves_expect [.expression] next s)).trans (leaves_accept _ next s)
    cases token.payload.expr? <;> rfl
  | expectStatement kinds next =>
    refine (leaves_bind (fun found s => ?_) s).trans (leaves_accept kinds next s)
    cases found with
    | none => rfl
    | some token =>
      dsimp only
      cases token.payload.stmt? <;> rfl
  | setState state => rfl
  | atEnd => rfl
  | resolveVariable name =>
    simp only [stream, Reader.resolveVariable]
    cases ctx.scope.resolveVariable name.text name.position <;> rfl
  | resolveFunction name =>
    simp only [stream, Reader.resolveFunction]
    cases ctx.scope.resolveFunction name.text name.position <;> rfl

end Move

end Reader

/-! ### Whole reads -/

namespace TokenStream.Log

variable [DecidableEq S] {ctx : Context} {g : Grammar S} {p : Place} {log : Log S}

/-- The log behind a sequence of moves. -/
def follow (ctx : Context) (log : Log S) (moves : List (Reader.Move S)) : Log S :=
  moves.foldl (fun log m => log.steps ctx.rules (m.operations ctx log.stream)) log

theorem stream_follow (log : Log S) (moves : List (Reader.Move S)) :
    (log.follow ctx moves).stream = moves.foldl (Reader.Move.stream ctx) log.stream := by
  induction moves generalizing log with
  | nil => rfl
  | cons m moves ih =>
    have hm : (log.steps ctx.rules (m.operations ctx log.stream)).stream = m.stream ctx log.stream :=
      (stream_steps log _).trans (m.stream_eq log.stream).symm
    exact (ih _).trans (by rw [hm]; rfl)

theorem Tiled.follow (hr : ∀ {state q}, ctx.Ready g state q) (h : log.Tiled ctx.rules g p)
    (moves : List (Reader.Move S)) : (log.follow ctx moves).Tiled ctx.rules g p := by
  induction moves generalizing log with
  | nil => exact h
  | cons m moves ih => exact ih (h.steps hr _)

end TokenStream.Log

theorem Tiles.eq_of_nil {p q : Place} (h : Tiles p [] q) : q = p := by
  cases h
  rfl

/-- A trail is what operations on a stream consume, in the states in which its tokens are found. -/
theorem TokenStream.Log.steps_trail [DecidableEq S] {rules : RuleReader} {g : Grammar S} {p q : Place}
    {tokens : List Token} (h : Trail rules g p tokens q) : ∀ (state : S) (taken : List Token),
      ∃ ops last, .atEnd ∉ ops ∧
        Log.steps rules ⟨fresh g state p, taken, false⟩ ops = ⟨fresh g last q, taken ++ tokens, false⟩ := by
  induction h with
  | nil p => exact fun state taken => ⟨[], state, List.not_mem_nil, by rw [List.append_nil]; rfl⟩
  | @cons p q r found token tokens hfound _ ih =>
    intro state taken
    obtain ⟨ops, last, hops, hsteps⟩ := ih found (taken ++ [token])
    refine ⟨.setState found :: .peek :: .commit :: .setState found :: ops, last, by simpa using hops, ?_⟩
    obtain ⟨failures, hpeek⟩ := hfound
    have hfirst : Log.steps rules ⟨fresh g state p, taken, false⟩ [.setState found, .peek, .commit, .setState found] =
        ⟨fresh g found q, taken ++ [token], false⟩ := by
      change Log.step rules (Log.step rules ⟨((fresh g found p).peek rules).2, taken, false⟩ .commit) (.setState found) = _
      rw [hpeek]
      rfl
    rw [List.append_cons, ← hsteps, ← hfirst]
    rfl

/-- The words of which a rule makes what it reads: a spelling of an expression, the listed names of a
    declaration, the words from which a statement is derived. -/
def Rule.MadeOf (scope : Scope) (payload : Payload) (ws : List String) : Rule → Prop
  | expression => ∃ e, payload = .expr e ∧ e.Spelled BinaryOp.loosest ws
  | declaration => ∃ listed, payload = .stmt (.declare listed.eraseDups) ∧ listed ≠ [] ∧
      (∀ name ∈ listed, isName name ∧ isKeyword name = false) ∧ ws = (Stmt.declare listed).words
  | statement | assignment | returnStatement | ifStatement | blockStatement => ∃ t, payload = .stmt t ∧ t.MadeOf scope ws

/-- The tokens of a rule lead to where it ends, and what it reads is made of their texts. -/
theorem Rule.trail_of_read {scope : Scope} {rule : Rule} {p : Place} {payload : Payload} {behind : Cursor}
    (h : read scope rule (.ofPlace p) = .ok (payload, behind)) :
    ∃ q tokens, behind = .ofPlace q ∧ Trail (read scope) (Construct.rule rule).grammar p tokens q ∧
      rule.MadeOf scope payload (tokens.map (·.text)) := by
  rw [read_eq_body] at h
  have hstmt {S : Type} [DecidableEq S] {g : Grammar S} {r : Except Stop (Stmt × Cursor)}
      (h : wrap .stmt r = .ok (payload, behind))
      (hr : ∀ {t : Stmt}, r = .ok (t, behind) → ∃ q, behind = .ofPlace q ∧ Reader.MadeAt scope.context g t p q) :
      ∃ q tokens, behind = .ofPlace q ∧ Trail (read scope) g p tokens q ∧
        ∃ t, payload = .stmt t ∧ t.MadeOf scope (tokens.map (·.text)) := by
    obtain ⟨t, hread, rfl⟩ := wrap_eq_ok h
    obtain ⟨q, hq, ws, hpasses, hmade, -⟩ := hr hread
    obtain ⟨tokens, htrail, rfl⟩ := hpasses.trail
    exact ⟨q, tokens, hq, htrail, t, rfl, hmade⟩
  have hderives : scope.context.rules.Derives scope.context.scope := derives_read
  cases rule with
  | expression =>
    obtain ⟨e, hread, rfl⟩ := wrap_eq_ok h
    obtain ⟨q, hq, ws, hpasses, hspelled⟩ := Reader.covers_of_expression hread
    obtain ⟨tokens, htrail, rfl⟩ := hpasses.trail
    exact ⟨q, tokens, hq, htrail, e, rfl, hspelled⟩
  | declaration =>
    obtain ⟨t, hread, rfl⟩ := wrap_eq_ok h
    obtain ⟨listed, q, hq, rfl, hne, hnames, hpasses⟩ := Reader.derives_declaration hread
    obtain ⟨tokens, htrail, hwords⟩ := hpasses.trail
    exact ⟨q, tokens, hq, htrail, listed, rfl, hne, hnames, hwords⟩
  | statement => exact hstmt h (Reader.derives_statement hderives)
  | assignment => exact hstmt h (Reader.derives_assignment hderives)
  | returnStatement => exact hstmt h (Reader.derives_returnStatement hderives)
  | ifStatement => exact hstmt h (Reader.derives_ifStatement hderives)
  | blockStatement => exact hstmt h (Reader.derives_blockStatement hderives)

/-- A rule that is read consumes the tokens of its tree and ends right behind the last of them. -/
theorem Rule.tiles_of_read {scope : Scope} {rule : Rule} {p : Place} {payload : Payload} {behind : Cursor}
    (h : read scope rule (.ofPlace p) = .ok (payload, behind)) :
    ∃ ops,
      let log := (Log.start (Construct.rule rule).grammar p).steps (read scope) ops
      .atEnd ∉ ops ∧ behind = log.stream.release ∧ log.tokens ≠ [] ∧ Tiles p log.tokens behind.committed ∧
        rule.MadeOf scope payload (log.tokens.map (·.text)) := by
  obtain ⟨q, hq, -, hlt⟩ := (arrives_read scope rule p).ok h
  obtain ⟨_, tokens, hbehind, htrail, hmade⟩ := trail_of_read h
  cases hq.symm.trans hbehind
  obtain ⟨ops, last, hops, hsteps⟩ := Log.steps_trail htrail (Construct.rule rule).grammar.start []
  have hlog : (Log.start (Construct.rule rule).grammar p).steps (read scope) ops =
    ⟨fresh (Construct.rule rule).grammar last q, tokens, false⟩ := hsteps
  have hready {state q} : scope.context.Ready (Construct.rule rule).grammar state q :=
    (Construct.proper (.rule rule)).ready_context
  have htiles : Tiles p ((Log.start (Construct.rule rule).grammar p).steps (read scope) ops).tokens
      ((Log.start (Construct.rule rule).grammar p).steps (read scope) ops).stream.cursor.committed :=
    Log.tiles_steps hready hops
  rw [hlog] at htiles
  refine ⟨ops, hops, ?_⟩
  rw [hlog, hq]
  refine ⟨rfl, fun hnil => ?_, htiles, hmade⟩
  have hsame : q = p := Tiles.eq_of_nil (hnil ▸ htiles)
  rw [hsame] at hlt
  exact absurd hlt (Nat.lt_irrefl _)

/-- Whatever moves are made on the stream of a construct from any place, its committed place stands behind
    the tokens consumed by them, which tile the text before it; only where the end of the text was asked for
    do blanks behind the last one count as consumed. A rule that is read consumes the tokens of whose texts
    its tree is made, up to the end of the last of them and nothing behind it. -/
theorem tokens_tile (scope : Scope) :
    (∀ (construct : Construct) (p : Place) (moves : List (Reader.Move construct.State)),
      let log := (Log.start construct.grammar p).follow scope.context moves
      log.stream = moves.foldl (Reader.Move.stream scope.context) (ofCursor construct.grammar (.ofPlace p)) ∧
        ∃ q, Tiles p log.tokens q ∧ q.Blank log.stream.cursor.committed ∧
          (log.ended = true ∨ log.stream.cursor.committed = q)) ∧
    ∀ (rule : Rule) (p : Place) (payload : Payload) (behind : Cursor),
      Rule.read scope rule (.ofPlace p) = .ok (payload, behind) →
        p.position.offset < behind.committed.position.offset ∧ ∃ ops,
          let log := (Log.start (Construct.rule rule).grammar p).steps (Rule.read scope) ops
          .atEnd ∉ ops ∧ behind = log.stream.release ∧ log.tokens ≠ [] ∧ Tiles p log.tokens behind.committed ∧
            rule.MadeOf scope payload (log.tokens.map (·.text)) := by
  refine ⟨fun construct p moves => ⟨Log.stream_follow _ moves, ?_⟩, fun rule p payload behind h => ⟨?_, ?_⟩⟩
  · have hready {state q} : scope.context.Ready construct.grammar state q := construct.proper.ready_context
    exact ((Log.tiled_start _ _ p).follow hready moves).tiles
  · obtain ⟨q, rfl, hreaches, hlt⟩ := (Rule.arrives_read scope rule p).ok h
    exact hreaches.offset_lt hlt
  · exact Rule.tiles_of_read h

/-- The blanks before the next statement are left to it. -/
theorem tokens_tile_statement : ∃ payload behind,
    Rule.read { vars := [⟨"x", .parameter 0, .integer⟩] } .blockStatement (.ofPlace (.start "  x+1 ; y".toList)) =
        .ok (payload, behind) ∧ behind.committed.rest = " y".toList ∧ ∃ tokens, tokens ≠ [] ∧
      Tiles (.start "  x+1 ; y".toList) tokens behind.committed := by
  have hread : (Rule.read { vars := [⟨"x", .parameter 0, .integer⟩] } .blockStatement
      (.ofPlace (.start "  x+1 ; y".toList))).toOption.map (·.2.committed.rest) = some " y".toList := by decide +kernel
  obtain ⟨⟨payload, behind⟩, hp, hrest⟩ := Option.map_eq_some_iff.mp hread
  have h := Except.eq_ok_of_toOption hp
  obtain ⟨-, ops, -, -, hne, htiles, -⟩ := (tokens_tile _).2 _ _ payload behind h
  exact ⟨payload, behind, h, hrest, _, hne, htiles⟩

end HostScript
