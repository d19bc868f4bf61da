/-! JSON values as written. Numbers and strings keep their spelling; `escape` and `unescape?` go
between a text and its spelling in a string. Fields stay in the order of the text, and a name may
come twice. -/

namespace HostScript

/-- A value as written. -/
inductive Json where
  | null
  | bool (value : Bool)
  | number (spelling : List Char)
  | string (spelling : List Char)
  | array (items : List Json)
  | object (fields : List (List Char × Json))

namespace Json

/-! ### The spelling of strings -/

/-- The hexadecimal digit of a number below sixteen, in lower case. -/
def hexDigit (n : Nat) : Char := if n < 10 then Char.ofNat (48 + n) else Char.ofNat (87 + n)

/-- The value of a hexadecimal digit in either case. -/
def hexValue? (c : Char) : Option Nat :=
  if '0' ≤ c ∧ c ≤ '9' then some (c.toNat - 48)
  else if 'a' ≤ c ∧ c ≤ 'f' then some (c.toNat - 87)
  else if 'A' ≤ c ∧ c ≤ 'F' then some (c.toNat - 55)
  else none

/-- Quotes, backslashes and control characters are escaped, all else stands for itself. -/
def escapeChar (c : Char) : List Char :=
  if c = '"' then ['\\', '"']
  else if c = '\\' then ['\\', '\\']
  else if c = '\x08' then ['\\', 'b']
  else if c = '\t' then ['\\', 't']
  else if c = '\n' then ['\\', 'n']
  else if c = '\x0c' then ['\\', 'f']
  else if c = '\r' then ['\\', 'r']
  else if c.toNat < 0x20 then ['\\', 'u', '0', '0', hexDigit (c.toNat / 16), hexDigit (c.toNat % 16)]
  else [c]

/-- The spelling of a text between quotes. -/
def escape (text : List Char) : List Char := text.flatMap escapeChar

/-- The character that a one-letter escape stands for. -/
def shortEscape? (c : Char) : Option Char :=
  if c = '"' ∨ c = '\\' ∨ c = '/' then some c
  else if c = 'b' then some '\x08'
  else if c = 'f' then some '\x0c'
  else if c = 'n' then some '\n'
  else if c = 'r' then some '\r'
  else if c = 't' then some '\t'
  else none

/-- The code unit that four hexadecimal digits name. -/
def codeUnit? (a b c d : Char) : Option Nat :=
  match hexValue? a, hexValue? b, hexValue? c, hexValue? d with
  | some a, some b, some c, some d => some (((a * 16 + b) * 16 + c) * 16 + d)
  | _, _, _, _ => none

/-- The spelling as characters and code units. -/
def pieces? : List Char → Option (List (Char ⊕ Nat))
  | [] => some []
  | '\\' :: 'u' :: a :: b :: c :: d :: rest =>
    match codeUnit? a b c d, pieces? rest with
    | some unit, some pieces => some (.inr unit :: pieces)
    | _, _ => none
  | '\\' :: c :: rest =>
    match shortEscape? c, pieces? rest with
    | some c, some pieces => some (.inl c :: pieces)
    | _, _ => none
  | c :: rest => if c = '\\' then none else (pieces? rest).map (.inl c :: ·)

/-- The first code unit of a surrogate pair. -/
def isHighHalf (unit : Nat) : Bool := 0xD800 ≤ unit && unit < 0xDC00

/-- The second code unit of a surrogate pair. -/
def isLowHalf (unit : Nat) : Bool := 0xDC00 ≤ unit && unit < 0xE000

/-- Join the code units of surrogate pairs; a half without the other stands for nothing. -/
def joinUnits? : List (Char ⊕ Nat) → Option (List Char)
  | [] => some []
  | .inl c :: rest => (joinUnits? rest).map (c :: ·)
  | .inr high :: .inr low :: rest =>
    if isHighHalf high then
      if isLowHalf low then
        (joinUnits? rest).map (Char.ofNat (0x10000 + (high - 0xD800) * 0x400 + (low - 0xDC00)) :: ·)
      else none
    else if isLowHalf high then none
    else (joinUnits? (.inr low :: rest)).map (Char.ofNat high :: ·)
  | .inr unit :: rest =>
    if isHighHalf unit || isLowHalf unit then none else (joinUnits? rest).map (Char.ofNat unit :: ·)

/-- The text that a spelling stands for. -/
def unescape? (spelling : List Char) : Option String := ((pieces? spelling).bind joinUnits?).map String.ofList

/-! ### Building values -/

/-- A string for any text. -/
def ofString (text : String) : Json := string (escape text.toList)

end Json
end HostScript
