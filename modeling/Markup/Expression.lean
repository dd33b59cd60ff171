import Markup.Text.Bytes

/-!
# Expression — where an embedded expression ends

An expression is skipped, not parsed: all that is read of it is its **nesting** — brackets, quoted
strings, and template literals whose `${…}` holes hold expressions again.  `State.step` reads one
character; it answers `none` on the character that closes the expression.  `split?` cuts a text
there, and `append_of_scan` says that the two parts are the text and the second begins with the
closing character.
-/

namespace Markup.Expression

/-- What the characters at hand belong to. -/
inductive Context where
  /-- An expression that waits for these closing brackets, innermost first. -/
  | code (closers : List Char)
  /-- The text of a template literal. -/
  | literal
deriving DecidableEq, Repr

/-- What the character before the one at hand asks of it. -/
inductive Reading where
  | plain
  /-- A backslash in a template literal: the next character stands for itself. -/
  | escape
  /-- A dollar sign in a template literal: a brace opens a hole. -/
  | dollar
  /-- Inside a string with this quote. -/
  | quoted (quote : Char)
  /-- A backslash in a string with this quote. -/
  | quotedEscape (quote : Char)
deriving DecidableEq, Repr

/-- The nesting at a place in an expression: the context at hand and those around it. -/
structure State where
  here : Context := .code []
  outer : List Context := []
  reading : Reading := .plain
deriving DecidableEq, Repr

/-- The closing bracket of an opening one. -/
def closerOf? : Char → Option Char
  | '(' => some ')'
  | '[' => some ']'
  | '{' => some '}'
  | _ => none

namespace State

/-- The nesting after the context at hand has ended; none if no context is around it. -/
def leave (st : State) : Option State :=
  match st.outer with
  | [] => none
  | context :: outer => some { here := context, outer, reading := .plain }

/-- Reads a character of an expression.  The outermost expression ends at `close`, a hole at a
brace, and only where no bracket is open; **a closing bracket that does not fit is passed over**. -/
def stepCode (close c : Char) (closers : List Char) (st : State) : Option State :=
  if closers = [] ∧ c = (if st.outer = [] then close else '}') then st.leave
  else
    match closerOf? c with
    | some closer => some { st with here := .code (closer :: closers), reading := .plain }
    | none =>
      if closers.head? = some c then some { st with here := .code closers.tail, reading := .plain }
      else if c = '\'' ∨ c = '"' then some { st with reading := .quoted c }
      else if c = '`' then
        some { here := .literal, outer := .code closers :: st.outer, reading := .plain }
      else some { st with reading := .plain }

/-- Reads a character of a template literal. -/
def stepLiteral (c : Char) (st : State) : Option State :=
  if c = '\\' then some { st with reading := .escape }
  else if c = '`' then st.leave
  else if c = '$' then some { st with reading := .dollar }
  else if c = '{' ∧ st.reading = .dollar then
    some { here := .code [], outer := .literal :: st.outer, reading := .plain }
  else some { st with reading := .plain }

/-- **Reads one character**; `none` if it closes the expression. A string ends at its quote or at
the end of the line. -/
def step (close c : Char) (st : State) : Option State :=
  match st.reading with
  | .escape => some { st with reading := .plain }
  | .quotedEscape q => some { st with reading := .quoted q }
  | .quoted q =>
    if c = '\\' then some { st with reading := .quotedEscape q }
    else if c = q ∨ c = '\n' then some { st with reading := .plain }
    else some st
  | .plain | .dollar =>
    match st.here with
    | .code closers => st.stepCode close c closers
    | .literal => st.stepLiteral c

end State

/-- Reads a text from a given nesting up to the character that closes the outermost context, which
begins the second part; `none` if the text ends before. -/
def scan (close : Char) : State → List Char → Option (List Char × List Char)
  | _, [] => none
  | st, c :: cs =>
    match st.step close c with
    | none => some ([], c :: cs)
    | some st => (scan close st cs).map fun parts => (c :: parts.1, parts.2)

/-- **The expression that a text begins with**, and the rest from its closing character on. -/
def split? (close : Char) : List Char → Option (List Char × List Char) := scan close {}

/-- The offset at which the expression that begins at `start` is closed. -/
def endOffset? (close : Char) (text : List Char) (start : Nat) : Option Nat :=
  (Text.dropBytes? start text).bind fun cs =>
    (split? close cs).map fun parts => start + Text.byteSize parts.1

/-- The offset of the backtick that ends the template literal whose text begins at `start`. -/
def literalEndOffset? (text : List Char) (start : Nat) : Option Nat :=
  (Text.dropBytes? start text).bind fun cs =>
    (scan '}' { here := .literal } cs).map fun parts => start + Text.byteSize parts.1

/-- **The parts of a scan are the text**, and the second part is not empty. -/
theorem append_of_scan {close : Char} {st : State} {cs as bs : List Char}
    (h : scan close st cs = some (as, bs)) : as ++ bs = cs ∧ bs ≠ [] := by
  induction cs generalizing st as with
  | nil => simp [scan] at h
  | cons c cs ih =>
    simp only [scan] at h
    split at h
    · simp only [Option.some.injEq, Prod.mk.injEq] at h
      obtain ⟨rfl, rfl⟩ := h
      simp
    · obtain ⟨⟨as', bs'⟩, h', h⟩ := Option.map_eq_some_iff.1 h
      simp only [Prod.mk.injEq] at h
      obtain ⟨rfl, rfl⟩ := h
      obtain ⟨rfl, hb⟩ := ih h'
      exact ⟨rfl, hb⟩

theorem append_of_split? {close : Char} {cs as bs : List Char}
    (h : split? close cs = some (as, bs)) : as ++ bs = cs ∧ bs ≠ [] :=
  append_of_scan h

end Markup.Expression
