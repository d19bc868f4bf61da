import HostScript.Token
import HostScript.Token.Pattern

/-! Grammars as tables: for every state the forms of the next token, in the order in which they are
tried. A form is a word of the text or a whole rule. -/

namespace HostScript

/-- A word of the text. A `name` may be any identifier, a `reference` no keyword. -/
inductive Terminal where
  | sign (kind : TokenKind) (text : String)
  | keyword (kind : TokenKind) (word : String)
  | name
  | reference
  | integer
  | boolean (value : Bool)
  | unary (op : UnaryOp)
  | binary (op : BinaryOp)
  deriving DecidableEq

namespace Terminal

/-- The kind of token that the form makes. -/
def kind : Terminal → TokenKind
  | sign kind _ | keyword kind _ => kind
  | name | reference => .name
  | integer | boolean _ => .literal
  | unary _ => .unaryOperator
  | binary _ => .binaryOperator

/-- How the form is spelled. -/
def pattern : Terminal → Pattern
  | sign _ text => .sign text
  | keyword _ word => .keyword word
  | name | reference => .name
  | integer => .number
  | boolean value => .keyword (Value.boolean value).text
  | unary op => .sign op.symbol
  | binary op => .sign op.symbol

/-- What a matched text stands for, or what is wrong with it. -/
def read : Terminal → List Char → Except String Payload
  | sign .. , _ | keyword .. , _ | name, _ => .ok .none
  | reference, text =>
    if isKeyword (String.ofList text) then
      .error ("'" ++ String.ofList text ++ "' is a keyword, not an identifier")
    else .ok .none
  | integer, text =>
    if Decimal.value text < integerLimit then .ok (.constant (.integer (Int64.ofNat (Decimal.value text))))
    else .error ("integer literal " ++ String.ofList text ++ " does not fit in 64 bits")
  | boolean value, _ => .ok (.constant (.boolean value))
  | unary op, _ => .ok (.unary op)
  | binary op, _ => .ok (.binary op)

end Terminal

/-- One form of a token. -/
inductive Matcher where
  | terminal (form : Terminal)
  | rule (form : Rule)
  deriving DecidableEq

/-- The kind of token that the form makes, whether a word or a rule. -/
def Matcher.kind : Matcher → TokenKind
  | terminal form => form.kind
  | rule form => form.kind

/-- A table over the states `S`. Nothing is read in the state `stop`. -/
structure Grammar (S : Type) where
  start : S
  stop : S
  matchers : S → List Matcher

end HostScript
