import HostScript.Text.Place
import HostScript.Value

/-! What can be wrong with a text or a tree, and the words for it.

A semantic error is found in a tree, where there are no positions; `locate` gives it one. A compile
error is definitive if no other way to read the text can avoid it. -/

namespace HostScript

/-- Where an error was found: in the text, or in the type of the entry point. -/
inductive Location where
  | source (position : Position)
  | entryPoint
  deriving DecidableEq

/-- The place as messages name it. -/
def Location.text : Location → String
  | source position => position.text
  | entryPoint => "<entry point>"

/-- What a name was looked up as. -/
inductive SymbolKind where
  | var
  | function
  deriving DecidableEq

/-- The word for what was looked up. -/
def SymbolKind.text : SymbolKind → String
  | var => "variable"
  | function => "function"

/-- What is wrong with a source text. A program that may end without a return has no place to blame. -/
inductive CompileError where
  | unexpectedToken (position : Position) (expected found : String)
  | unrecognizedToken (position : Position) (diagnostic : String)
  | unrecognizedStatement (position : Position) (diagnostic : String)
  | typeMismatch (location : Location) (construct : String) (argument : Option Nat)
      (expected actual : Ty)
  | argumentCount (location : Location) (construct : String) (expected actual : Nat)
  | unsupportedIdentifier (position : Position) (name : String)
  | unresolvedIdentifier (position : Position) (kind : SymbolKind) (name : String)
  | unreachableReturn
  | invalidPattern (pattern reason : String)
  deriving DecidableEq

/-- What is wrong with the parts of a tree. -/
inductive SemanticError where
  | typeMismatch (construct : String) (argument : Option Nat) (expected actual : Ty)
  | argumentCount (construct : String) (expected actual : Nat)
  deriving DecidableEq

/-- The words that single out one argument of a construct. -/
def argumentText : Option Nat → String
  | some index => " (argument #" ++ Decimal.ofNat index ++ ")"
  | none => ""

namespace SemanticError

/-- Give a semantic error its place. -/
def locate : SemanticError → Location → CompileError
  | typeMismatch construct argument expected actual, location =>
    .typeMismatch location construct argument expected actual
  | argumentCount construct expected actual, location =>
    .argumentCount location construct expected actual

/-- The message of an error that has no place yet. -/
def message : SemanticError → String
  | typeMismatch construct argument expected actual =>
    s!"type mismatch for {construct}{argumentText argument}: expected '{expected.text}', got '{actual.text}'"
  | argumentCount construct expected actual =>
    s!"arguments number mismatch for {construct}: expected {Decimal.ofNat expected}, got {Decimal.ofNat actual}"

end SemanticError

/-- The words for a token that is not the one wanted. -/
def expectedFound (expected found : String) : String := s!"expected {expected}, found {found}"

namespace CompileError

/-- The message, which names the place unless there is none. -/
def message : CompileError → String
  | unexpectedToken position expected found =>
    s!"Unexpected token at {position.text}: {expectedFound expected found}"
  | unrecognizedToken position diagnostic =>
    s!"Unrecognized token at {position.text}: {diagnostic}"
  | unrecognizedStatement position diagnostic =>
    s!"Unrecognized statement at {position.text}: {diagnostic}"
  | typeMismatch location construct argument expected actual =>
    s!"Type mismatch at {location.text} for {construct}{argumentText argument}: expected '{expected.text}', got '{actual.text}'"
  | argumentCount location construct expected actual =>
    s!"Arguments number mismatch at {location.text} for {construct}: expected {Decimal.ofNat expected}, got {Decimal.ofNat actual}"
  | unsupportedIdentifier position name =>
    s!"Unsupported identifier '{name}' at {position.text} (matches keyword)"
  | unresolvedIdentifier position kind name =>
    s!"Unresolved {kind.text} '{name}' at {position.text}"
  | unreachableReturn => "End of function is reachable without any return statement"
  | invalidPattern pattern reason => s!"Invalid token pattern '{pattern}': {reason}"

/-- Whether the error ends the whole read instead of letting another form be tried. -/
def isDefinitive : CompileError → Bool
  | typeMismatch .. | argumentCount .. | unsupportedIdentifier .. | unresolvedIdentifier ..
  | invalidPattern .. => true
  | unexpectedToken .. | unrecognizedToken .. | unrecognizedStatement .. | unreachableReturn => false

/-- The message without the place, for use inside another message. -/
def essence : CompileError → String
  | unexpectedToken _ expected found => expectedFound expected found
  | unrecognizedToken _ diagnostic | unrecognizedStatement _ diagnostic => diagnostic
  | error => error.message

end CompileError

/-- Why a read ends without a result: the text is refused, the cursor was sent into the middle of a
    character, or the step budget ran out. -/
inductive Stop where
  | error (cause : CompileError)
  | split
  | exhausted
  deriving DecidableEq

end HostScript
