import HostScript.Token.Stream

/-! Readers: steps on a token stream that give a result or stop, and the moves from which the rules
are written. A reader that stops still leaves a stream. -/

namespace HostScript

/-- Steps on a token stream over the states `S`. -/
abbrev Reader (S : Type) := EStateM Stop (TokenStream S)

/-- What a rule reads against: the names in scope and how the rules inside it are read. -/
structure Context where
  scope : Scope
  rules : RuleReader

namespace Reader

variable {S : Type}

/-- Refuse the text. -/
def fail {α : Type} (cause : CompileError) : Reader S α := throw (.error cause)

/-- Give a semantic error the position of a token. -/
def locate {α : Type} (position : Position) : Except SemanticError α → Reader S α
  | .ok a => pure a
  | .error e => fail (e.locate (.source position))

/-- Read a whole rule from a cursor. -/
def run {α : Type} (reader : Reader S α) (grammar : Grammar S) (cursor : Cursor) : Except Stop (α × Cursor) :=
  match reader (.ofCursor grammar cursor) with
  | .ok a s => .ok (a, s.release)
  | .error reason _ => .error reason

/-- Go to another state, without the lookahead. -/
def setState (state : S) : Reader S Unit := modify (·.setState state)

/-- Skip blanks and tell whether all text is consumed. -/
def atEnd : Reader S Bool := modifyGet (·.atEnd)

variable [DecidableEq S] (ctx : Context)

/-- The next token, which is not consumed. A definitive error inside a rule ends this reader as well. -/
def peek : Reader S (Option Token) := fun s =>
  match s.peek ctx.rules with
  | (.ok found, s) => .ok found s
  | (.error reason, s) => .error reason s

/-- Whether the next token is of one of the kinds. -/
def test (kinds : List TokenKind) : Reader S Bool := do
  match ← peek ctx with
  | some token => return kinds.contains token.kind
  | none => return false

/-- Consume the next token if it is of one of the kinds, and go to the next state. -/
def accept (kinds : List TokenKind) (next : S) : Reader S (Option Token) := do
  if ← test ctx kinds then
    let token ← modifyGet (·.commit)
    setState next
    return token
  else return none

/-- Consume a token of one of the kinds; any other is an error. -/
def expect (kinds : List TokenKind) (next : S) : Reader S Token := do
  match ← accept ctx kinds next with
  | some token => return token
  | none => fail ((← get).error kinds)

/-- The error for a token that does not carry what its place needs. -/
def malformed (token : Token) (kind : TokenKind) : CompileError :=
  .unexpectedToken token.position kind.text ("'" ++ token.text ++ "'")

/-- Read an expression and tell where it starts. -/
def expectExpression (next : S) : Reader S (Expr × Position) := do
  let token ← expect ctx [.expression] next
  match token.payload.expr? with
  | some tree => return (tree, token.position)
  | none => fail (malformed token .expression)

/-- Read a statement of one of the kinds. -/
def expectStatement (kinds : List TokenKind) (next : S) : Reader S Stmt := do
  match ← accept ctx kinds next with
  | some token =>
    match token.payload.stmt? with
    | some tree => return tree
    | none => fail (malformed token .statement)
  | none => fail ((← get).statementError kinds)

/-- The error for a name that is not in scope. -/
def unresolved (name : String) (position : Position) (kind : SymbolKind) : CompileError :=
  if isKeyword name then .unsupportedIdentifier position name
  else .unresolvedIdentifier position kind name

end Reader

namespace Scope

/-- The variable of a name; a keyword gives an error of its own. -/
def resolveVariable (scope : Scope) (name : String) (position : Position) : Except CompileError Variable :=
  match scope.variableNamed? name with
  | some target => .ok target
  | none => .error (Reader.unresolved name position .var)

/-- The function of a name; a keyword gives an error of its own. -/
def resolveFunction (scope : Scope) (name : String) (position : Position) : Except CompileError HostFunction :=
  match scope.functionNamed? name with
  | some function => .ok function
  | none => .error (Reader.unresolved name position .function)

end Scope

namespace Reader

variable {S : Type}

/-- The variable that a token names. -/
def resolveVariable (ctx : Context) (name : Token) : Reader S Variable :=
  match ctx.scope.resolveVariable name.text name.position with
  | .ok target => pure target
  | .error cause => fail cause

/-- The function that a token names. -/
def resolveFunction (ctx : Context) (name : Token) : Reader S HostFunction :=
  match ctx.scope.resolveFunction name.text name.position with
  | .ok function => pure function
  | .error cause => fail cause

end Reader
end HostScript
