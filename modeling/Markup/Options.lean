import Markup.Json.Basic
import Markup.Source.Basic

/-!
# Options — what may differ from one parse to the next

`Options` say where the source stands in a larger file, how deep its roots are and whether it opens
with front matter.  `Options.ofJson?` reads them from a record in which **every field may be
missing**; `Options.base` counts lines and columns from one at least.

These numbers are below `2 ^ 64`, and so is all that is counted up from them: offsets, lines,
columns and depths are natural numbers throughout, and **no sum of theirs is taken to overflow**.
Depths are also subtracted, and there the 64 bits show (`Arena.shiftDepth`).
-/

namespace Markup

/-- The options of one parse. -/
structure Options where
  /-- A leading block between dashes is front matter. -/
  ignoreFrontMatter : Bool := false
  offsetOffset : Nat := 0
  offsetLine : Nat := 0
  offsetColumn : Nat := 0
  /-- The depth of the roots. -/
  depth : Nat := 0
deriving DecidableEq, Repr

namespace Options

/-- The place at which the source begins. -/
def base (o : Options) : Base where
  offset := o.offsetOffset
  line := max o.offsetLine 1
  col := max o.offsetColumn 1

/-- The names of the fields in their order. -/
def fieldNames : List String :=
  ["ignoreFrontMatter", "offsetOffset", "offsetLine", "offsetColumn", "depth"]

/-- The options that a record holds. -/
def ofJson? (value : Json) : Option Options := do
  let [front, offset, line, column, depth] ← value.columns? fieldNames | none
  return {
    ignoreFrontMatter := ← Json.column? Json.toBool? false front
    offsetOffset := ← Json.column? Json.toNat? 0 offset
    offsetLine := ← Json.column? Json.toNat? 0 line
    offsetColumn := ← Json.column? Json.toNat? 0 column
    depth := ← Json.column? Json.toNat? 0 depth }

/-- The record of the options. -/
def toJson (o : Options) : Json :=
  .object [("ignoreFrontMatter", .bool o.ignoreFrontMatter),
    ("offsetOffset", .ofNat o.offsetOffset),
    ("offsetLine", .ofNat o.offsetLine), ("offsetColumn", .ofNat o.offsetColumn),
    ("depth", .ofNat o.depth)]

end Options

end Markup
