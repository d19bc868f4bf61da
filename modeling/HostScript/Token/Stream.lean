import HostScript.Grammar
import HostScript.Text.Cursor

/-! Streams of tokens with one token of lookahead.

A stream holds a grammar, its state and a cursor. To peek is to skip the blanks behind the committed
place and try the forms of the state in order; the outcome is kept until the token is committed or
the state changes. Why forms did not match is kept for messages. A form that is a whole rule is read
by a function given from outside, on a cursor of its own; a definitive error there is the outcome of
the peek, any other error only says that this form does not match. -/

namespace HostScript

/-- How a rule is read from a cursor: its tree and the cursor behind it. -/
abbrev RuleReader := Rule → Cursor → Except Stop (Payload × Cursor)

/-- Why a form of the given kind did not match. -/
structure Failure where
  kind : TokenKind
  reason : String
  deriving DecidableEq

/-- The outcome of trying one form: a token and the cursor behind it, no match, or the end of the
    whole read. -/
inductive Attempt where
  | token (token : Token) (cursor : Cursor)
  | failure (reason : String)
  | stop (reason : Stop)

namespace Terminal

/-- Match a word at the peeked place. -/
def attempt (form : Terminal) (cursor : Cursor) : Attempt :=
  match form.pattern.match? cursor.rest with
  | none => .failure ("no match for '" ++ form.pattern.text ++ "' regex")
  | some text =>
    match form.read text with
    | .error reason => .failure reason
    | .ok payload =>
      .token ⟨form.kind, String.ofList text, cursor.peeked.position, payload⟩ (cursor.drop text.length)

end Terminal

namespace Rule

/-- The rule is read on a fork of the cursor, which is then moved over the bytes that were read. -/
def attempt (form : Rule) (read : RuleReader) (cursor : Cursor) : Attempt :=
  match read form cursor.fork with
  | .ok (payload, behind) =>
    let start := cursor.peeked.position
    match cursor.cut? (behind.committed.position.offset - start.offset) with
    | some (text, cursor) => .token ⟨form.kind, String.ofList text, start, payload⟩ cursor
    | none => .stop .split
  | .error (.error cause) =>
    if cause.isDefinitive then .stop (.error cause)
    else .failure ("cannot parse " ++ form.kind.text ++ ": " ++ cause.essence)
  | .error reason => .stop reason

end Rule

namespace Matcher

/-- Try one form at the peeked place. -/
def attempt (form : Matcher) (read : RuleReader) (cursor : Cursor) : Attempt :=
  match form with
  | terminal form => form.attempt cursor
  | rule form => form.attempt read cursor

/-- Try the forms in order. The failures are those of the forms tried in vain. -/
def scan (read : RuleReader) (cursor : Cursor) :
    List Matcher → Except Stop (Option (Token × Cursor)) × List Failure
  | [] => (.ok none, [])
  | form :: forms =>
    match form.attempt read cursor with
    | .token token behind => (.ok (some (token, behind)), [])
    | .stop reason => (.error reason, [])
    | .failure reason =>
      let (found, failures) := scan read cursor forms
      (found, ⟨form.kind, reason⟩ :: failures)

end Matcher

/-- The lookahead is none before a peek; then it is the token found, if any. -/
structure TokenStream (S : Type) where
  grammar : Grammar S
  state : S
  cursor : Cursor
  lookahead : Option (Option Token)
  failures : List Failure

namespace TokenStream

variable {S : Type}

/-- A stream in the first state of its grammar. -/
def ofCursor (grammar : Grammar S) (cursor : Cursor) : TokenStream S :=
  ⟨grammar, grammar.start, cursor, none, []⟩

/-- Find the next token, unless that was done already. A peek that stops finds nothing, so the next one
    tries again. -/
def peek [DecidableEq S] (read : RuleReader) (s : TokenStream S) : Except Stop (Option Token) × TokenStream S :=
  match s.lookahead with
  | some found => (.ok found, s)
  | none =>
    let cursor := s.cursor.revert
    if s.state = s.grammar.stop then
      (.ok none, { s with cursor := cursor, lookahead := some none, failures := [] })
    else
      let cursor := cursor.skipBlanks
      match Matcher.scan read cursor (s.grammar.matchers s.state) with
      | (.ok (some (token, behind)), failures) =>
        (.ok (some token), { s with cursor := behind, lookahead := some (some token), failures := failures })
      | (.ok none, failures) => (.ok none, { s with cursor := cursor, lookahead := some none, failures := failures })
      | (.error reason, failures) => (.error reason, { s with cursor := cursor, failures := failures })

/-- Consume the token found by the last peek. -/
def commit (s : TokenStream S) : Option Token × TokenStream S :=
  match s.lookahead with
  | some (some token) => (some token, { s with cursor := s.cursor.commit, lookahead := none })
  | _ => (none, s)

/-- Forget the last peek. -/
def revert (s : TokenStream S) : TokenStream S :=
  { s with cursor := s.cursor.revert, lookahead := none, failures := [] }

/-- Go to another state; what was peeked belonged to the old one. -/
def setState (s : TokenStream S) (state : S) : TokenStream S := { s with state := state }.revert

/-- The token found by the last peek. -/
def found? (s : TokenStream S) : Option Token := s.lookahead.join

/-- Where the next token starts or would start. -/
def position (s : TokenStream S) : Position :=
  match s.found? with
  | some token => token.position
  | none => s.cursor.peeked.position

/-- Skip and commit the blanks; then tell whether all text is committed. -/
def atEnd (s : TokenStream S) : Bool × TokenStream S :=
  let s := s.revert
  let (ended, cursor) := s.cursor.atEnd
  (ended, { s with cursor := cursor })

/-- The cursor behind the last token that was consumed. -/
def release (s : TokenStream S) : Cursor := s.revert.cursor

/-- The next token as shown in messages. -/
def describeNext (s : TokenStream S) : String :=
  match s.found? with
  | some token => if token.text.isEmpty then token.kind.text else "'" ++ token.text ++ "'"
  | none => s.cursor.describeNext

/-- What is wrong when one of the kinds is expected. If the state has a form of such a kind, the
    reasons why those forms failed are told. -/
def error (s : TokenStream S) (expected : List TokenKind) : CompileError :=
  let expectedText := " or ".intercalate (expected.map TokenKind.text)
  if (s.grammar.matchers s.state).any (expected.contains ·.kind) then
    let reasons := (s.failures.filter (expected.contains ·.kind)).map Failure.reason
    .unrecognizedToken s.position <|
      if reasons.isEmpty then expectedFound expectedText s.describeNext else "; ".intercalate reasons
  else .unexpectedToken s.position expectedText s.describeNext

/-- The same for the expectation of a statement. -/
def statementError (s : TokenStream S) (expected : List TokenKind) : CompileError :=
  match s.error expected with
  | .unrecognizedToken position diagnostic => .unrecognizedStatement position diagnostic
  | .unexpectedToken position expected found => .unrecognizedStatement position (expectedFound expected found)
  | error => error

end TokenStream
end HostScript
