/-!
# Text/Classes — the classes of characters that markup is told apart by

Tags are split at **blanks** (`isBlank`, five ASCII characters), tag names end at `isNameEnd`, and
expressions are trimmed of **white space** (`isSpace`), the Unicode property of that name.
`isSpace_of_isBlank` says that every blank is white space; the converse fails at a vertical tab.
-/

namespace Markup.Text

/-- The **blanks** that separate the parts of a tag: space, tab, line feed, carriage return and form
feed. -/
def isBlank (c : Char) : Bool :=
  c == ' ' || c == '\t' || c == '\n' || c == '\r' || c == '\x0c'

/-- An ASCII letter, the only kind that opens a tag name. -/
def isLetter (c : Char) : Bool := c.isAlpha

/-- The characters that end a tag name inside a tag; a NUL does, as the end of the text does. -/
def isNameEnd (c : Char) : Bool :=
  isBlank c || c == '/' || c == '>' || c == '\x00'

/-- The code points with the Unicode property White_Space, as closed ranges in ascending order. -/
def whiteSpace : List (Nat × Nat) :=
  [(0x09, 0x0D), (0x20, 0x20), (0x85, 0x85), (0xA0, 0xA0), (0x1680, 0x1680), (0x2000, 0x200A),
   (0x2028, 0x2029), (0x202F, 0x202F), (0x205F, 0x205F), (0x3000, 0x3000)]

/-- A character with the Unicode property **White_Space**. -/
def isSpace (c : Char) : Bool :=
  whiteSpace.any fun r => r.1 ≤ c.toNat && c.toNat ≤ r.2

theorem isBlank_iff {c : Char} :
    isBlank c = true ↔ c = ' ' ∨ c = '\t' ∨ c = '\n' ∨ c = '\r' ∨ c = '\x0c' := by
  simp [isBlank, or_assoc]

/-- **Blanks are white space.** -/
theorem isSpace_of_isBlank {c : Char} (h : isBlank c = true) : isSpace c = true := by
  rcases isBlank_iff.1 h with h | h | h | h | h <;> subst h <;> decide

example : isBlank '\x0b' = false ∧ isSpace '\x0b' = true := by decide

/-- A letter does not end a name. -/
theorem isNameEnd_of_isLetter {c : Char} (h : isLetter c = true) : isNameEnd c = false := by
  refine Bool.eq_false_iff.2 fun hend => ?_
  simp only [isNameEnd, isBlank, Bool.or_eq_true, beq_iff_eq, or_assoc] at hend
  rcases hend with rfl | rfl | rfl | rfl | rfl | rfl | rfl | rfl <;> exact absurd h (by decide)

theorem isNameEnd_of_isBlank {c : Char} (h : isBlank c = true) : isNameEnd c = true := by
  simp [isNameEnd, h]

end Markup.Text
