import HostScript.Grammar

/-! The grammars of the language, one for each construct. -/

namespace HostScript
namespace Grammar

/-- Between arguments and between declared names. -/
def comma : Matcher := .terminal (.sign .comma ",")
/-- Opens a group, arguments or a condition. -/
def leftPar : Matcher := .terminal (.sign .leftPar "(")
/-- Closes what `leftPar` opened. -/
def rightPar : Matcher := .terminal (.sign .rightPar ")")
/-- Opens a block. -/
def leftBrace : Matcher := .terminal (.sign .leftBrace "\x7b")
/-- Closes a block. -/
def rightBrace : Matcher := .terminal (.sign .rightBrace "\x7d")
/-- Between the target of an assignment and its value. -/
def assignSign : Matcher := .terminal (.sign .assign "=")
/-- Ends a statement. -/
def semicolon : Matcher := .terminal (.sign .semicolon ";")

/-! ### Expressions -/

/-- Before an operand, behind one, or behind the expression. -/
inductive ExprState where
  | pre
  | post
  | done
  deriving DecidableEq

/-- Operands and operators in turn. -/
def expression : Grammar ExprState where
  start := .pre
  stop := .done
  matchers
    | .pre => UnaryOp.all.map (.terminal ∘ .unary) ++
        [.terminal (.boolean true), .terminal (.boolean false), leftPar, .terminal .reference, .terminal .integer]
    | .post => BinaryOp.all.map (.terminal ∘ .binary) ++ [comma, rightPar]
    | .done => []

/-! ### Statements -/

/-- Before `var`, before a name, behind a name, or behind the declaration. -/
inductive DeclarationState where
  | begin
  | pre
  | post
  | done
  deriving DecidableEq

/-- The names behind `var`. A keyword matches there as a name, so that it can be refused by its own error. -/
def declaration : Grammar DeclarationState where
  start := .begin
  stop := .done
  matchers
    | .begin => [.terminal (.keyword .varWord "var")]
    | .pre => [.terminal .name]
    | .post => [comma, semicolon]
    | .done => []

/-- Which part of an assignment comes next. -/
inductive AssignState where
  | begin
  | preAssign
  | postAssign
  | postExpr
  | done
  deriving DecidableEq

/-- A variable, the sign and an expression. -/
def assignment : Grammar AssignState where
  start := .begin
  stop := .done
  matchers
    | .begin => [.terminal .reference]
    | .preAssign => [assignSign]
    | .postAssign => [.rule .expression]
    | .postExpr => [semicolon]
    | .done => []

/-- Which part of a return comes next. -/
inductive ReturnState where
  | begin
  | preExpr
  | postExpr
  | done
  deriving DecidableEq

/-- The word and an expression; there is no return without a value. -/
def returnStatement : Grammar ReturnState where
  start := .begin
  stop := .done
  matchers
    | .begin => [.terminal (.keyword .returnWord "return")]
    | .preExpr => [.rule .expression]
    | .postExpr => [semicolon]
    | .done => []

/-- Before the statement, inside its braces, behind its expression, or behind the statement. -/
inductive BlockState where
  | begin
  | inBlock
  | inExpr
  | done
  deriving DecidableEq

/-- A block, an expression with a semicolon or a lone semicolon. -/
def blockStatement : Grammar BlockState where
  start := .begin
  stop := .done
  matchers
    | .begin => [semicolon, leftBrace, .rule .expression]
    | .inBlock => [rightBrace, .rule .statement]
    | .inExpr => [semicolon]
    | .done => []

/-- Which part of a branch comes next. -/
inductive IfState where
  | begin
  | preLeftPar
  | preExpr
  | postExpr
  | preBlock
  | postBlock
  | postElse
  | done
  deriving DecidableEq

/-- The `else` is a form of its own state, which the reader leaves if there is none. -/
def ifStatement : Grammar IfState where
  start := .begin
  stop := .done
  matchers
    | .begin => [.terminal (.keyword .ifWord "if")]
    | .preLeftPar => [leftPar]
    | .preExpr => [.rule .expression]
    | .postExpr => [rightPar]
    | .preBlock => [.rule .statement]
    | .postBlock => [.terminal (.keyword .elseWord "else")]
    | .postElse => [.rule .statement]
    | .done => []

/-- Before the statement or behind it. -/
inductive StatementState where
  | begin
  | done
  deriving DecidableEq

/-- The forms of a statement; a declaration is none of them. -/
def statement : Grammar StatementState where
  start := .begin
  stop := .done
  matchers
    | .begin => [.rule .assignment, .rule .ifStatement, .rule .returnStatement, .rule .blockStatement]
    | .done => []

/-! ### Programs -/

/-- Before the declaration, among the statements, or behind the program. -/
inductive ProgramState where
  | begin
  | body
  | done
  deriving DecidableEq

/-- At most one declaration, then statements. -/
def program : Grammar ProgramState where
  start := .begin
  stop := .done
  matchers
    | .begin => [.rule .declaration]
    | .body => [.rule .statement]
    | .done => []

end Grammar
end HostScript
