import Markup.Source.Basic
import Markup.Text.Search

/-!
# Source/Excerpt — what a message shows of the text around an offset

`Source.context` is the text on either side of an offset, cut by a number of characters and of
lines; `codeFrame` prints the line of an error between its neighbours, numbered, with **carets
under the span**.
-/

namespace Markup

namespace Text

/-- The text up to its `n`-th line feed; the first one when `n` is zero. -/
def takeLines : Nat → List Char → List Char
  | _, [] => []
  | n, c :: cs =>
    if c = '\n' then if n ≤ 1 then [] else c :: takeLines (n - 1) cs
    else c :: takeLines n cs

/-- A text filled up on its left with spaces. -/
def padLeft (width : Nat) (s : String) : String :=
  String.ofList (List.replicate (width - s.length) ' ') ++ s

end Text

namespace Source

/-- **The surroundings of an offset**: on each side at most `maxChars` characters and fewer than
`maxLines` line feeds. -/
def context (s : Source) (offset maxChars maxLines : Nat) : String × String :=
  let here := Text.floorBoundary offset s.text
  let before := ((Text.takeBytes? here s.text).getD []).reverse.take maxChars
  let after := ((Text.dropBytes? here s.text).getD []).take maxChars
  (String.ofList (Text.takeLines maxLines before).reverse,
    String.ofList (Text.takeLines maxLines after))

end Source

/-- What stands under a line to move a caret to its column: its tabs, and spaces for the rest. -/
def caretIndent (line : List Char) (col : Nat) : List Char :=
  (line.take (col - 1)).map fun c => if c = '\t' then '\t' else ' '

/-- **The numbered line that holds `start`, with those before and after it**, and carets up to
`stop` under it; a span that leaves the line, or is empty, has one caret. -/
def codeFrame (text : List Char) (start stop : Nat) : String :=
  let source : Source := { text }
  let (line, col) := source.location start
  let (stopLine, stopCol) := source.location stop
  let lines := text.splitOn '\n'
  let first := max (line - 2) 1
  let last := min (line + 1) lines.length
  let width := (toString last).length
  let carets := if stopLine = line ∧ col < stopCol then stopCol - col else 1
  let shown := ((lines.drop (first - 1)).take (last + 1 - first)).zipIdx first
  let rows := shown.flatMap fun (content, number) =>
    let content := Text.trimEnd (· == '\r') content
    let row := Text.padLeft width (toString number) ++ ": " ++ String.ofList content
    if number = line then
      [row, Text.padLeft (width + 2) "" ++ String.ofList (caretIndent content col) ++
        String.ofList (List.replicate carets '^')]
    else [row]
  "\n".intercalate rows

end Markup
