import HostScript.Stmt

/-! Tokens. A token is a word of the text or, for the rules that are read as one piece, a whole
expression or statement; its payload is what the text stands for. -/

namespace HostScript

/-- What a token is, for the reader that asks for it. -/
inductive TokenKind where
  | name
  | literal
  | unaryOperator
  | binaryOperator
  | comma
  | leftPar
  | rightPar
  | leftBrace
  | rightBrace
  | assign
  | semicolon
  | varWord
  | returnWord
  | ifWord
  | elseWord
  | expression
  | declaration
  | assignment
  | returnStatement
  | ifStatement
  | blockStatement
  | statement
  deriving DecidableEq

/-- The kind as it is named in messages. -/
def TokenKind.text : TokenKind → String
  | name => "identifier"
  | literal => "literal"
  | unaryOperator => "unary operator"
  | binaryOperator => "binary operator"
  | comma => "','"
  | leftPar => "'('"
  | rightPar => "')'"
  | leftBrace => "'\x7b'"
  | rightBrace => "'\x7d'"
  | assign => "'='"
  | semicolon => "';'"
  | varWord => "'var'"
  | returnWord => "'return'"
  | ifWord => "'if'"
  | elseWord => "'else'"
  | expression => "expression"
  | declaration => "variable declaration"
  | assignment => "assignment"
  | returnStatement => "return statement"
  | ifStatement => "if statement"
  | blockStatement => "block or expression statement"
  | statement => "statement"

/-- The parts of a program that are read as one piece. -/
inductive Rule where
  | expression
  | statement
  | declaration
  | assignment
  | returnStatement
  | ifStatement
  | blockStatement
  deriving DecidableEq

/-- The kind of the token that a rule gives. -/
def Rule.kind : Rule → TokenKind
  | expression => .expression
  | statement => .statement
  | declaration => .declaration
  | assignment => .assignment
  | returnStatement => .returnStatement
  | ifStatement => .ifStatement
  | blockStatement => .blockStatement

/-- What a token stands for beyond its text. -/
inductive Payload where
  | none
  | constant (value : Value)
  | unary (op : UnaryOp)
  | binary (op : BinaryOp)
  | expr (tree : Expr)
  | stmt (tree : Stmt)

namespace Payload

/-- The value of a literal. -/
def constant? : Payload → Option Value
  | constant value => some value
  | _ => .none

/-- The operator in front of an operand. -/
def unary? : Payload → Option UnaryOp
  | unary op => some op
  | _ => .none

/-- The operator between two operands. -/
def binary? : Payload → Option BinaryOp
  | binary op => some op
  | _ => .none

/-- The tree of an expression. -/
def expr? : Payload → Option Expr
  | expr tree => some tree
  | _ => .none

/-- The tree of a statement. -/
def stmt? : Payload → Option Stmt
  | stmt tree => some tree
  | _ => .none

end Payload

/-- A token with its text, which starts at the position. -/
structure Token where
  kind : TokenKind
  text : String
  position : Position
  payload : Payload

/-- The words of the language that are not names. -/
def keywords : List String := ["true", "false", "var", "return", "if", "else"]

/-- Whether a word is kept from being a name. -/
def isKeyword (name : String) : Bool := keywords.contains name

end HostScript
