import Markup.Text.Bytes
import Markup.Source.Bisection

/-!
# Source/Basic — a text to be parsed, and where each of its bytes stands

A `Source` is a text together with the `Base` at which it stands in a larger file.  Its **index**
holds where lines begin and how many bytes the multi-byte characters before each of them add, so
that `Source.location` finds a line and a column by two bisections and counts nothing.  A `Token`
is a piece of a source with its location at both ends.
-/

namespace Markup

/-- The place in an enclosing file at which a source begins. -/
structure Base where
  offset : Nat := 0
  line : Nat := 1
  col : Nat := 1
deriving DecidableEq, Repr

/-- A **half-open range** of byte offsets, in either order: nothing is promised about its ends. -/
structure Span where
  start : Nat
  stop : Nat
deriving DecidableEq, Inhabited, Repr

/-- Values that cover a range of the source. -/
class Spanned (α : Type) where
  span : α → Span

/-- A **piece of a source** with its offsets in bytes and its lines and columns, both from one. -/
structure Token where
  raw : String
  startOffset : Nat
  endOffset : Nat
  startLine : Nat
  endLine : Nat
  startCol : Nat
  endCol : Nat
deriving DecidableEq, Repr

/-- A token that holds no text. -/
def Token.isEmpty (t : Token) : Bool := t.raw.isEmpty

namespace Text

/-- The offsets just past each line feed of a text that begins at `offset`. -/
def lineStartsFrom (offset : Nat) : List Char → List Nat
  | [] => []
  | c :: cs =>
    if c = '\n' then (offset + 1) :: lineStartsFrom (offset + 1) cs
    else lineStartsFrom (offset + c.utf8Size) cs

/-- The offset of each character of more than one byte, with the number of bytes by which it and
those before it exceed one byte each. -/
def wideCharsFrom (offset surplus : Nat) : List Char → List (Nat × Nat)
  | [] => []
  | c :: cs =>
    if c.utf8Size = 1 then wideCharsFrom (offset + 1) surplus cs
    else
      let surplus := surplus + (c.utf8Size - 1)
      (offset, surplus) :: wideCharsFrom (offset + c.utf8Size) surplus cs

end Text

/-- What is looked up in a text to locate an offset. -/
structure LineIndex where
  /-- The bytes of the whole text. -/
  size : Nat
  /-- Where each line begins. -/
  lineStarts : Array Nat
  /-- Where each wide character begins, with the surplus of bytes up to its end. -/
  wideChars : Array (Nat × Nat)

namespace LineIndex

/-- The index of a text. -/
def ofText (cs : List Char) : LineIndex where
  size := Text.byteSize cs
  lineStarts := (0 :: Text.lineStartsFrom 0 cs).toArray
  wideChars := (Text.wideCharsFrom 0 0 cs).toArray

/-- The bytes by which the characters that begin before `offset` exceed one byte each. -/
def surplusBefore (ix : LineIndex) (offset : Nat) : Nat :=
  match partitionPoint (fun w => w.1 < offset) ix.wideChars with
  | 0 => 0
  | n + 1 => (ix.wideChars[n]?.map Prod.snd).getD 0

/-- The line that holds `offset`, counted from zero. -/
def lineOf (ix : LineIndex) (offset : Nat) : Nat :=
  partitionPoint (fun start => start ≤ offset) ix.lineStarts - 1

/-- The column of `offset` in a line that begins at `lineStart`: one more than the characters
between the two. -/
def column (ix : LineIndex) (lineStart offset : Nat) : Nat :=
  offset - lineStart - (ix.surplusBefore offset - ix.surplusBefore lineStart) + 1

end LineIndex

/-- A **text to be parsed**, with its base and its index. -/
structure Source where
  text : List Char
  base : Base := {}
  index : LineIndex := LineIndex.ofText text
  index_eq : index = LineIndex.ofText text := by rfl

namespace Source

/-- A source of the given text. -/
def ofString (s : String) (base : Base := {}) : Source where
  text := s.toList
  base := base

/-- The text as a string. -/
def content (s : Source) : String := String.ofList s.text

/-- The number of bytes. -/
def size (s : Source) : Nat := s.index.size

/-- The offset in this source of an offset in the enclosing file. -/
def toLocal (s : Source) (absolute : Nat) : Nat := absolute - s.base.offset

/-- **The line and column of an offset**; beyond the end, those of the end.  The base moves the
columns of the first line only. -/
def location (s : Source) (offset : Nat) : Nat × Nat :=
  let offset := min offset s.size
  let line := s.index.lineOf offset
  let col := s.index.column (s.index.lineStarts[line]?.getD 0) offset
  if line = 0 then (s.base.line, col + s.base.col - 1) else (line + s.base.line, col)

/-- The token of a text that stands between two offsets. -/
def tokenOf (s : Source) (raw : List Char) (start stop : Nat) : Token :=
  let (startLine, startCol) := s.location start
  let (endLine, endCol) := s.location stop
  { raw := String.ofList raw
    startOffset := start + s.base.offset
    endOffset := stop + s.base.offset
    startLine, endLine, startCol, endCol }

/-- The **empty token** at the last boundary at or before an offset. -/
def emptyToken (s : Source) (offset : Nat) : Token :=
  let here := Text.floorBoundary offset s.text
  s.tokenOf [] here here

theorem size_eq (s : Source) : s.size = Text.byteSize s.text := by
  simp [size, s.index_eq, LineIndex.ofText]

end Source

end Markup
