import Markup.Attribute.Basic

/-!
# StartTag — a start tag split into its name, its attributes and its closing slash

`StartTag.read` walks through the text of a start tag.  What separates the attributes is **blanks
and slashes**; the tag is self-closing when the walk stops before a slash that only blanks separate
from the closing bracket.  Each attribute takes at least one byte, so the walk ends.
-/

namespace Markup

/-- How a dialect reads the first attribute of the rest of a start tag. -/
abbrev AttributeReader := Source → Token → Except Error Attribute

/-- A start tag. -/
structure StartTag where
  name : String
  attributes : List Attribute
  selfClosing : Bool

/-- The name in an end tag. -/
def endTagName (raw : List Char) : List Char :=
  (match raw with
    | '<' :: '/' :: rest => rest
    | _ => raw).takeWhile fun c => !Text.isNameEnd c

namespace StartTag

/-- A slash that ends the tag. -/
def isClosingSlash (cs : List Char) : Bool :=
  match cs with
  | '/' :: rest => (rest.dropWhile Text.isBlank).head? == some '>'
  | _ => false

/-- What follows the first character after a skipped run is shorter than the text. -/
theorem length_lt_of_dropWhile_eq_cons {p : Char → Bool} {cs tail : List Char} {c : Char}
    (h : cs.dropWhile p = c :: tail) : tail.length < cs.length := by
  have hle := (List.dropWhile_suffix p : cs.dropWhile p <:+ cs).length_le
  rw [h, List.length_cons] at hle
  exact hle

/-- The attributes in `rest`, which begins at `offset` and ends with the tag at `stop`, and what
remains where no more can follow. -/
def attributesFrom (read : AttributeReader) (source : Source) (stop offset : Nat)
    (rest : List Char) : Except Error (List Attribute × List Char) :=
  let spaces := Text.byteSize (rest.takeWhile Text.isBlank)
  match h : rest.dropWhile Text.isBlank with
  | [] => .ok ([], rest)
  | c :: tail =>
    have : tail.length < rest.length := length_lt_of_dropWhile_eq_cons h
    have nonempty : rest ≠ [] := fun e => by simp [e] at h
    if c = '>' ∨ isClosingSlash (c :: tail) then .ok ([], rest)
    else if c = '/' then attributesFrom read source stop (offset + spaces + 1) tail
    else do
      let token ← source.slice ⟨offset, stop⟩
      let first ← read source token
      let consumed := source.toLocal first.token.endOffset - offset
      if hc : consumed = 0 then throw ⟨.noAttribute, source.emptyToken (offset + spaces)⟩
      else
        have := Text.length_dropBytes_lt hc nonempty
        let (others, remainder) ←
          attributesFrom read source stop (offset + consumed) (Text.dropBytes consumed rest)
        return (first :: others, remainder)
termination_by rest.length

/-- **Splits the text of a start tag.** -/
def read (readAttribute : AttributeReader) (source : Source) (token : Token) :
    Except Error StartTag :=
  let raw := token.raw.toList
  let base := source.toLocal token.startOffset
  match raw with
  | '<' :: inner => do
    let name := inner.takeWhile fun c => !Text.isNameEnd c
    if name.isEmpty then throw ⟨.noTagName, token⟩
    let (attributes, remainder) ← attributesFrom readAttribute source (base + Text.byteSize raw)
      (base + 1 + Text.byteSize name) (inner.drop name.length)
    return {
      name := String.ofList name
      attributes
      selfClosing := isClosingSlash (remainder.dropWhile Text.isBlank) }
  | _ => throw ⟨.noBracket, token⟩

end StartTag

end Markup
