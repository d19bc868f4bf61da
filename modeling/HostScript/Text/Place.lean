import HostScript.Text.Decimal

/-! Positions and places in a text.

A position counts bytes of the UTF-8 form from zero, lines and columns from one; only a line feed
ends a line, and a column is one character wide whatever its number of bytes. Lines and columns have
32 bits, so a count that is too large wraps. A place is a position together with the text that
follows it. -/

namespace HostScript

/-- A point in a text: the number of bytes before it, its line and its column. -/
structure Position where
  offset : Nat
  line : UInt32
  column : UInt32
  deriving DecidableEq

namespace Position

/-- Where every text starts. -/
def start : Position := ⟨0, 1, 1⟩

/-- The position behind the character `c` that stands at `p`. -/
def after (p : Position) (c : Char) : Position :=
  if c = '\n' then ⟨p.offset + c.utf8Size, p.line + 1, 1⟩
  else ⟨p.offset + c.utf8Size, p.line, p.column + 1⟩

/-- The position behind a whole run of characters. -/
def afterAll (p : Position) (text : List Char) : Position := text.foldl after p

/-- The position as shown in messages: its line and its column. -/
def text (p : Position) : String := Decimal.ofNat p.line.toNat ++ ":" ++ Decimal.ofNat p.column.toNat

end Position

/-- The bound of offsets and sizes, which have 64 bits. -/
def sizeLimit : Nat := 18446744073709551616

/-- Cut a text behind its first `n` bytes, or at its end if it is shorter. There is no cut inside a
    character. -/
def cutBytes : Nat → List Char → Option (List Char × List Char)
  | 0, text => some ([], text)
  | _ + 1, [] => some ([], [])
  | n + 1, c :: text =>
    if c.utf8Size ≤ n + 1 then
      (cutBytes (n + 1 - c.utf8Size) text).map fun (front, back) => (c :: front, back)
    else none

/-- A position and the text behind it. -/
structure Place where
  position : Position
  rest : List Char
  deriving DecidableEq

namespace Place

/-- The place where a text starts. -/
def start (text : List Char) : Place := ⟨.start, text⟩

/-- The place behind the first `count` characters. -/
def drop (p : Place) (count : Nat) : Place :=
  ⟨p.position.afterAll (p.rest.take count), p.rest.drop count⟩

/-- The text of the next `n` bytes and the place behind it; none if that is inside a character. -/
def cut? (p : Place) (n : Nat) : Option (List Char × Place) :=
  (cutBytes n p.rest).map fun (front, back) => (front, ⟨p.position.afterAll front, back⟩)

end Place
end HostScript
