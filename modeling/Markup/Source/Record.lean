import Markup.Json.Basic
import Markup.Source.Basic

/-!
# Source/Record — tokens as JSON records

`Token.toJson` writes the seven fields of a token, and `Token.ofJson?` reads them back from an
object or from an array in the order of `Token.fieldNames`; **none may be missing**.
-/

namespace Markup

namespace Token

/-- The names of a token's fields in their order. -/
def fieldNames : List String :=
  ["raw", "startOffset", "endOffset", "startLine", "endLine", "startCol", "endCol"]

/-- The token that a record holds; no field may be missing. -/
def ofJson? (value : Json) : Option Token := do
  let columns ← value.columns? fieldNames
  let [raw, startOffset, endOffset, startLine, endLine, startCol, endCol] ← columns.mapM id | none
  return {
    raw := ← raw.toString?
    startOffset := ← startOffset.toNat?
    endOffset := ← endOffset.toNat?
    startLine := ← startLine.toNat?
    endLine := ← endLine.toNat?
    startCol := ← startCol.toNat?
    endCol := ← endCol.toNat? }

/-- The fields of a token's record. -/
def toFields (t : Token) : Json.Fields :=
  [("raw", .string t.raw), ("startOffset", .ofNat t.startOffset), ("endOffset", .ofNat t.endOffset),
    ("startLine", .ofNat t.startLine), ("endLine", .ofNat t.endLine),
    ("startCol", .ofNat t.startCol), ("endCol", .ofNat t.endCol)]

/-- The record of a token. -/
def toJson (t : Token) : Json := .object t.toFields

end Token

end Markup
