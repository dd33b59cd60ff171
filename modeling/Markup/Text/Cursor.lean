import Markup.Text.Bytes
import Markup.Text.Search

/-!
# Text/Cursor — a place in a text from which it is read

A `Cursor` is a text and an offset in it.  All that it reads is a reading of `Cursor.rest`, and
**no move takes it past the end** (`Cursor.offset_le_of_moves`).  At the end it shows a NUL.  The
readers work on lists of characters and need none; a cursor is there for those who read a text by
hand.
-/

namespace Markup.Text

/-- A text and an offset in it. -/
structure Cursor where
  source : List Char
  offset : Nat := 0
deriving DecidableEq, Repr

namespace Cursor

/-- What follows the cursor. -/
def rest (c : Cursor) : List Char := (dropBytes? c.offset c.source).getD []

/-- The cursor is at the end. -/
def isAtEnd (c : Cursor) : Bool := byteSize c.source ≤ c.offset

/-- The cursor at an offset, or at the end if that comes first. -/
def setOffset (c : Cursor) (offset : Nat) : Cursor :=
  { c with offset := min offset (byteSize c.source) }

/-- The cursor at the end. -/
def toEnd (c : Cursor) : Cursor := { c with offset := byteSize c.source }

/-- The cursor behind a text that it is at the beginning of. -/
def skip (c : Cursor) (read : List Char) : Cursor := { c with offset := c.offset + byteSize read }

/-- **The character that stands `n` characters from the cursor**; a NUL past the end. -/
def peekAt (c : Cursor) (n : Nat) : Char := (c.rest[n]?).getD '\x00'

/-- The character at the cursor. -/
def peek (c : Cursor) : Char := c.peekAt 0

/-- The cursor behind the character that it is at. -/
def advance (c : Cursor) : Cursor := c.skip (c.rest.take 1)

/-- The word stands at the cursor. -/
def startsWith (c : Cursor) (word : List Char) : Bool := word.isPrefixOf c.rest

/-- The word stands at the cursor, in any case of its ASCII letters. -/
def startsWithIgnoreCase (c : Cursor) (word : List Char) : Bool :=
  Text.startsWithIgnoreCase word c.rest

/-- The cursor behind a word, if that stands at it. -/
def eat? (c : Cursor) (word : List Char) : Option Cursor :=
  if c.startsWith word then some (c.skip word) else none

/-- The longest text of a class of characters at the cursor, and the cursor behind it. -/
def eatWhile (c : Cursor) (p : Char → Bool) : List Char × Cursor :=
  let read := c.rest.takeWhile p
  (read, c.skip read)

/-- The cursor at the next place where a word stands. -/
def seek? (c : Cursor) (word : List Char) : Option Cursor :=
  (cut word c.rest).map fun parts => c.skip parts.1

/-- The cursor at the next place where a word stands in any case of its ASCII letters. -/
def seekIgnoreCase? (c : Cursor) (word : List Char) : Option Cursor :=
  (cutIgnoreCase word c.rest).map fun parts => c.skip parts.1

end Cursor

end Markup.Text
