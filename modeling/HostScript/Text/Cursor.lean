import HostScript.Text.Blank
import HostScript.Text.Place

/-! A cursor reads a text with lookahead: a committed place, which only moves forward, and a peeked
place at or behind it, from which the cursor returns to the committed one. -/

namespace HostScript

/-- A reading position with lookahead. -/
structure Cursor where
  committed : Place
  peeked : Place
  deriving DecidableEq

namespace Cursor

/-- A cursor at a place, with nothing peeked. -/
def ofPlace (p : Place) : Cursor := ⟨p, p⟩

/-- A cursor at the start of a text. -/
def ofList (text : List Char) : Cursor := ofPlace (.start text)

/-- A cursor at the start of a string. -/
def ofString (text : String) : Cursor := ofList text.toList

/-- The text behind the peeked place. -/
def rest (c : Cursor) : List Char := c.peeked.rest

/-- A cursor for a nested read: it starts where this one peeks. -/
def fork (c : Cursor) : Cursor := ofPlace c.peeked

/-- Consume what was peeked. -/
def commit (c : Cursor) : Cursor := { c with committed := c.peeked }

/-- Go back to the committed place. -/
def revert (c : Cursor) : Cursor := { c with peeked := c.committed }

/-- Peek past the next `count` characters. -/
def drop (c : Cursor) (count : Nat) : Cursor := { c with peeked := c.peeked.drop count }

/-- Peek past the blanks that come next. -/
def skipBlanks (c : Cursor) : Cursor := c.drop (c.rest.takeWhile isBlank).length

/-- Peek past the next `n` bytes and give their text; none if that ends inside a character. -/
def cut? (c : Cursor) (n : Nat) : Option (List Char × Cursor) :=
  (c.peeked.cut? n).map fun (text, place) => (text, { c with peeked := place })

/-- Peek past the next `n` bytes, or past all text if there is less. There is no such place inside a
    character, nor at an offset that does not fit in 64 bits. -/
def advance? (c : Cursor) (n : Nat) : Option Cursor :=
  if c.peeked.position.offset + n < sizeLimit then (c.cut? n).map (·.2) else none

/-- Skip and commit the blanks; then tell whether all text is committed. -/
def atEnd (c : Cursor) : Bool × Cursor :=
  let c := c.skipBlanks.commit
  (c.committed.rest.isEmpty, c)

/-- The next word as shown in messages: at most sixteen characters up to a blank, in quotes. -/
def describeNext (c : Cursor) : String :=
  let word := (c.rest.takeWhile (!isBlank ·)).take 16
  if word.isEmpty then "end of input" else "'" ++ String.ofList word ++ "'"

/-- The cursor of a text that has its first `n` bytes committed. -/
def startingAt? (text : String) (n : Nat) : Option Cursor :=
  ((ofString text).advance? n).map commit

end Cursor
end HostScript
