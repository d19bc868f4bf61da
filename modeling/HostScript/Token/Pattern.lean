import HostScript.Text.Word

/-! Patterns of words: fixed signs, keywords, names and numbers.

A name is a letter or an underscore followed by letters, digits and underscores, a number a run of
digits, all of ASCII; both reach as far as they can. A keyword must not run on into another word
character. Messages quote a pattern as a regular expression. -/

namespace HostScript

/-- How a word is spelled. -/
inductive Pattern where
  | sign (text : String)
  | keyword (word : String)
  | name
  | number
  deriving DecidableEq

/-- The characters that a name starts with. -/
def isNameStart (c : Char) : Bool := c.isAlpha || c == '_'

/-- The characters that a name goes on with. -/
def isNameChar (c : Char) : Bool := c.isAlphanum || c == '_'

namespace Pattern

/-- The characters that stand for themselves in a regular expression only behind a backslash. -/
def specials : List Char := "\\.+*?()|[]\x7b\x7d^$#&-~".toList

/-- The regular expression that matches just this text. -/
def quote (text : List Char) : List Char :=
  text.flatMap fun c => if specials.contains c then ['\\', c] else [c]

/-- The pattern as a regular expression. -/
def text : Pattern → String
  | sign s => String.ofList (quote s.toList)
  | keyword word => word ++ "\\b"
  | name => "[a-zA-Z_][a-zA-Z_0-9]*"
  | number => "[0-9]+"

/-- What the pattern matches at the front of a text. -/
def match? : Pattern → List Char → Option (List Char)
  | sign s, text => if s.toList.isPrefixOf text then some s.toList else none
  | keyword word, text =>
    if word.toList.isPrefixOf text && !((text.drop word.length).head?.any isWordChar) then some word.toList
    else none
  | name, c :: text => if isNameStart c then some (c :: text.takeWhile isNameChar) else none
  | name, [] => none
  | number, text =>
    let digits := text.takeWhile Char.isDigit
    if digits.isEmpty then none else some digits

end Pattern
end HostScript
