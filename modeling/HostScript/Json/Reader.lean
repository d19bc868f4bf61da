import HostScript.Json.Basic

/-! Reading JSON, strictly: no comma too many, no control character in a string, no zero in front of
a number. The budget of a read is the length of its text, since every step consumes some. -/

namespace HostScript
namespace Json

/-- The characters that may stand between the parts of a value. -/
def isSpace (c : Char) : Bool := c = ' ' || c = '\t' || c = '\n' || c = '\r'

/-- The text behind the space in front. -/
def skipSpace (text : List Char) : List Char := text.dropWhile isSpace

/-- The spelling of a string behind its opening quote, and the text behind the closing one. -/
def readString : List Char → Option (List Char × List Char)
  | [] => none
  | '"' :: rest => some ([], rest)
  | '\\' :: 'u' :: a :: b :: c :: d :: rest =>
    match codeUnit? a b c d, readString rest with
    | some _, some (spelling, rest) => some ('\\' :: 'u' :: a :: b :: c :: d :: spelling, rest)
    | _, _ => none
  | '\\' :: c :: rest =>
    match shortEscape? c, readString rest with
    | some _, some (spelling, rest) => some ('\\' :: c :: spelling, rest)
    | _, _ => none
  | c :: rest =>
    if c = '\\' || c.toNat < 0x20 then none
    else (readString rest).map fun (spelling, rest) => (c :: spelling, rest)

/-- One digit or more. -/
def readDigits (text : List Char) : Option (List Char × List Char) :=
  let digits := text.takeWhile Char.isDigit
  if digits.isEmpty then none else some (digits, text.dropWhile Char.isDigit)

/-- A whole number without a sign; a zero stands alone. -/
def readWhole : List Char → Option (List Char × List Char)
  | '0' :: rest => if rest.head?.any Char.isDigit then none else some (['0'], rest)
  | text => readDigits text

/-- The part behind a point, if there is one. -/
def readFraction : List Char → Option (List Char × List Char)
  | '.' :: rest => (readDigits rest).map fun (digits, rest) => ('.' :: digits, rest)
  | text => some ([], text)

/-- The exponent, if there is one. -/
def readExponent : List Char → Option (List Char × List Char)
  | c :: rest =>
    if c = 'e' || c = 'E' then
      match rest with
      | s :: rest' =>
        if s = '+' || s = '-' then (readDigits rest').map fun (digits, rest) => (c :: s :: digits, rest)
        else (readDigits rest).map fun (digits, rest) => (c :: digits, rest)
      | [] => none
    else some ([], c :: rest)
  | [] => some ([], [])

/-- The spelling of a number and the text behind it. -/
def readNumber (text : List Char) : Option (List Char × List Char) := do
  let (sign, text) := match text with
    | '-' :: rest => (['-'], rest)
    | text => ([], text)
  let (whole, text) ← readWhole text
  let (fraction, text) ← readFraction text
  let (exponent, text) ← readExponent text
  return (sign ++ whole ++ fraction ++ exponent, text)

mutual

/-- One value and the text behind it; the first argument is the budget. -/
def readValue : Nat → List Char → Option (Json × List Char)
  | 0, _ => none
  | n + 1, text =>
    match skipSpace text with
    | 'n' :: 'u' :: 'l' :: 'l' :: rest => some (.null, rest)
    | 't' :: 'r' :: 'u' :: 'e' :: rest => some (.bool true, rest)
    | 'f' :: 'a' :: 'l' :: 's' :: 'e' :: rest => some (.bool false, rest)
    | '"' :: rest => (readString rest).map fun (spelling, rest) => (.string spelling, rest)
    | '[' :: rest =>
      match skipSpace rest with
      | ']' :: rest => some (.array [], rest)
      | _ => (readItems n rest).map fun (items, rest) => (.array items, rest)
    | '\x7b' :: rest =>
      match skipSpace rest with
      | '\x7d' :: rest => some (.object [], rest)
      | _ => (readFields n rest).map fun (fields, rest) => (.object fields, rest)
    | text => (readNumber text).map fun (spelling, rest) => (.number spelling, rest)

/-- One item or more, up to the closing bracket. -/
def readItems : Nat → List Char → Option (List Json × List Char)
  | 0, _ => none
  | n + 1, text =>
    match readValue n text with
    | none => none
    | some (item, rest) =>
      match skipSpace rest with
      | ',' :: rest => (readItems n rest).map fun (items, rest) => (item :: items, rest)
      | ']' :: rest => some ([item], rest)
      | _ => none

/-- One field or more, up to the closing brace. -/
def readFields : Nat → List Char → Option (List (List Char × Json) × List Char)
  | 0, _ => none
  | n + 1, text =>
    match skipSpace text with
    | '"' :: rest =>
      match readString rest with
      | none => none
      | some (name, rest) =>
        match skipSpace rest with
        | ':' :: rest =>
          match readValue n rest with
          | none => none
          | some (value, rest) =>
            match skipSpace rest with
            | ',' :: rest => (readFields n rest).map fun (fields, rest) => ((name, value) :: fields, rest)
            | '\x7d' :: rest => some ([(name, value)], rest)
            | _ => none
        | _ => none
    | _ => none

end

/-- Read a text that holds one value and nothing else but space. -/
def read? (text : String) : Option Json :=
  let chars := text.toList
  match readValue (2 * chars.length + 1) chars with
  | some (value, rest) => if (skipSpace rest).isEmpty then some value else none
  | none => none

end Json
end HostScript
