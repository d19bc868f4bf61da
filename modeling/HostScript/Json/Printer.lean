import HostScript.Json.Basic

/-! The text of a JSON value: one item or field a line, two blanks deeper at each level. -/

namespace HostScript
namespace Json

/-- A string with its quotes. -/
def quoted (spelling : List Char) : List Char := '"' :: spelling ++ ['"']

/-- A new line with the given number of blanks. -/
def newLine (indent : Nat) : List Char := '\n' :: List.replicate indent ' '

mutual

/-- The text of a value whose first line is already indented. -/
def print (indent : Nat) : Json → List Char
  | null => "null".toList
  | bool true => "true".toList
  | bool false => "false".toList
  | number spelling => spelling
  | string spelling => quoted spelling
  | array [] => ['[', ']']
  | array (item :: items) =>
    '[' :: newLine (indent + 2) ++ print (indent + 2) item ++ printItems (indent + 2) items ++ newLine indent ++ [']']
  | object [] => ['\x7b', '\x7d']
  | object ((name, value) :: fields) =>
    '\x7b' :: newLine (indent + 2) ++ quoted name ++ [':', ' '] ++ print (indent + 2) value ++
      printFields (indent + 2) fields ++ newLine indent ++ ['\x7d']

/-- The items behind the first. -/
def printItems (indent : Nat) : List Json → List Char
  | [] => []
  | item :: items => ',' :: newLine indent ++ print indent item ++ printItems indent items

/-- The fields behind the first. -/
def printFields (indent : Nat) : List (List Char × Json) → List Char
  | [] => []
  | (name, value) :: fields =>
    ',' :: newLine indent ++ quoted name ++ [':', ' '] ++ print indent value ++ printFields indent fields

end

/-- The text of a value, from the margin. -/
def text (value : Json) : String := String.ofList (print 0 value)

end Json
end HostScript
