import Markup.Error
import Markup.Json.Basic

/-!
# Attribute/Basic — attributes with every part located in the source

`Attribute.read` recognizes the first attribute of a token and slices each part out of the source,
so the parts **abut from the leading spaces to the end quote** and carry their own locations.
-/

namespace Markup

/-- An attribute with a name, a value or both. -/
structure Attribute.Plain where
  /-- The attribute from its name to its end quote. -/
  token : Token
  parts : Attribute.Layout Token
  quoteKind : Option QuoteKind
  /-- The value is computed. -/
  isDynamic : Bool := false
  isDirective : Bool := false
  /-- It may be written more than once on an element. -/
  isDuplicatable : Bool := false
  /-- The name that the attribute stands for when it is written in a shorthand. -/
  potentialName : Option String := none
deriving DecidableEq, Repr

/-- An attribute, or a spread of an expression's properties. -/
inductive Attribute where
  | plain (a : Attribute.Plain)
  | spread (token spacesBefore : Token)
deriving DecidableEq, Repr

namespace Attribute

namespace Plain

/-- The name up to its first colon. -/
def baseName (a : Plain) : String := String.ofList (splitDirective a.parts.name.raw.toList).1

/-- The name after its first colon. -/
def subName (a : Plain) : Option String :=
  (splitDirective a.parts.name.raw.toList).2.map String.ofList

/-- The opening quote, if one was written. -/
def startQuote? (a : Plain) : Option Token :=
  if a.parts.startQuote.isEmpty then none else some a.parts.startQuote

/-- The closing quote, if one was written. -/
def endQuote? (a : Plain) : Option Token :=
  if a.parts.endQuote.isEmpty then none else some a.parts.endQuote

end Plain

/-- The attribute without its leading spaces. -/
def token : Attribute → Token
  | .plain a => a.token
  | .spread token _ => token

/-- The spaces that lead the attribute. -/
def spacesBefore : Attribute → Token
  | .plain a => a.parts.spacesBeforeName
  | .spread _ spaces => spaces

/-- The name as written; spreads share one. -/
def nodeName : Attribute → String
  | .plain a => a.parts.name.raw
  | .spread .. => "#spread"

/-- The text of the attribute with its leading spaces. -/
def fullRaw (a : Attribute) : String := a.spacesBefore.raw ++ a.token.raw

/-- An attribute that spreads an expression. -/
def isSpread : Attribute → Bool
  | .plain _ => false
  | .spread .. => true

/-- The tokens of parts that are written one after the other from an offset on. -/
def Layout.locate (source : Source) (start : Nat) (l : Layout (List Char)) :
    Except Error (Layout Token) := do
  let nameAt := start + Text.byteSize l.spacesBeforeName
  let spacesAt := nameAt + Text.byteSize l.name
  let equalAt := spacesAt + Text.byteSize l.spacesBeforeEqual
  let gapAt := equalAt + Text.byteSize l.equal
  let startQuoteAt := gapAt + Text.byteSize l.spacesAfterEqual
  let valueAt := startQuoteAt + Text.byteSize l.startQuote
  let endQuoteAt := valueAt + Text.byteSize l.value
  let spacesBeforeName ← source.slice ⟨start, nameAt⟩
  let name ← source.slice ⟨nameAt, spacesAt⟩
  let spacesBeforeEqual ← source.slice ⟨spacesAt, equalAt⟩
  let equal ← source.slice ⟨equalAt, gapAt⟩
  let spacesAfterEqual ← source.slice ⟨gapAt, startQuoteAt⟩
  let startQuote ← source.slice ⟨startQuoteAt, valueAt⟩
  let value ← source.slice ⟨valueAt, endQuoteAt⟩
  let endQuote ← source.slice ⟨endQuoteAt, endQuoteAt + Text.byteSize l.endQuote⟩
  return ⟨spacesBeforeName, name, spacesBeforeEqual, equal, spacesAfterEqual, startQuote, value,
    endQuote⟩

/-- **The first attribute of a token**, which is the rest of a start tag.  A value in script quotes
is dynamic. -/
def read (rules : Rules) (source : Source) (rest : Token) : Except Error Attribute := do
  let start := source.toLocal rest.startOffset
  match recognize rules rest.raw.toList with
  | .error failure =>
    throw ⟨.attribute failure.fault, source.emptyToken (start + failure.offset)⟩
  | .ok found =>
    let parts ← found.toLayout.locate source start
    let token ← source.slice
      ⟨source.toLocal parts.name.startOffset, source.toLocal parts.endQuote.endOffset⟩
    if found.spread then return .spread token parts.spacesBeforeName
    let quoteKind := found.quote.map Quote.kind
    return .plain { token, parts, quoteKind, isDynamic := quoteKind == some .script }

/-- The record of an attribute. -/
def toJson : Attribute → Json
  | .plain a =>
    .object [("type", .string "html-attr"), ("nodeName", .string a.parts.name.raw),
      ("raw", .string a.token.raw), ("startOffset", .ofNat a.token.startOffset),
      ("endOffset", .ofNat a.token.endOffset), ("startLine", .ofNat a.token.startLine),
      ("startCol", .ofNat a.token.startCol), ("name", .string a.parts.name.raw),
      ("value", .string a.parts.value.raw),
      ("startQuote", .ofOption (fun t => .string t.raw) a.startQuote?),
      ("endQuote", .ofOption (fun t => .string t.raw) a.endQuote?),
      ("isDynamicValue", .bool a.isDynamic), ("isDirective", .bool a.isDirective),
      ("isDuplicatable", .bool a.isDuplicatable),
      ("potentialName", .ofOption .string a.potentialName)]
  | .spread token _ =>
    .object [("type", .string "spread"), ("nodeName", .string "#spread"),
      ("raw", .string token.raw), ("startOffset", .ofNat token.startOffset),
      ("endOffset", .ofNat token.endOffset)]

end Attribute

end Markup
