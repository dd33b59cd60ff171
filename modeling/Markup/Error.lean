import Markup.Attribute.Recognizer
import Markup.Source.Excerpt

/-!
# Error — why a source is refused, and what is said about it

An `Error` is a `Cause` and the token it was found at.  Causes fall into three kinds: the text is
refused, a caller broke a rule of the tree builder, or a range that was asked for is no range of
the text.  All wording is in `Cause.message`; `Error.display` adds the location and
`Error.inContext` the text around it.
-/

namespace Markup

/-- **A sequence succeeds exactly as its parts do**, one after the other. -/
theorem Except.bind_eq_ok {ε α β : Type} {x : Except ε α} {f : α → Except ε β} {b : β} :
    (x >>= f) = .ok b ↔ ∃ a, x = .ok a ∧ f a = .ok b := by
  cases x <;> simp [bind, Except.bind]

/-- …and so does what is made of the result. -/
theorem Except.map_eq_ok {ε α β : Type} {x : Except ε α} {f : α → β} {b : β} :
    x.map f = .ok b ↔ ∃ a, x = .ok a ∧ f a = b := by
  cases x <;> simp [Except.map]

/-- **A sequence fails exactly where one of its parts does**… -/
theorem Except.bind_eq_error {ε α β : Type} {x : Except ε α} {f : α → Except ε β} {e : ε} :
    (x >>= f) = .error e ↔ x = .error e ∨ ∃ a, x = .ok a ∧ f a = .error e := by
  cases x <;> simp [bind, Except.bind]

/-- …and what is made of a result does not. -/
theorem Except.map_eq_error {ε α β : Type} {x : Except ε α} {f : α → β} {e : ε} :
    x.map f = .error e ↔ x = .error e := by
  cases x <;> simp [Except.map]

/-- What does not fail has a result. -/
theorem Except.exists_of_isOk {ε α : Type} {x : Except ε α} (h : x.isOk = true) :
    ∃ a, x = .ok a := by
  cases x with
  | ok a => exact ⟨a, rfl⟩
  | error e => exact absurd h Bool.false_ne_true

/-- …and if it passes a test, the result does. -/
theorem exists_of_any {ε α : Type} {x : Except ε α} {p : α → Bool} (h : x.toOption.any p = true) :
    ∃ a, x = .ok a ∧ p a = true := by
  cases x with
  | ok a => exact ⟨a, rfl, h⟩
  | error e => exact absurd h Bool.false_ne_true

/-- Which part of the work refused the input. -/
inductive ErrorKind where
  /-- The text breaks a rule of its dialect. -/
  | refused
  /-- A caller broke a rule of the builder. -/
  | contract
  /-- A range is reversed, leaves the text or splits a character. -/
  | fragment
deriving DecidableEq, Repr

/-- **Why a source is refused.** -/
inductive Cause where
  /-- A range that is reversed or leaves a text of `size` bytes. -/
  | outside (range : Span) (size : Nat)
  /-- A range with an end inside a character. -/
  | splits (range : Span)
  /-- A branch whose body begins before its header. -/
  | negativeBranch (range : Span)
  /-- A start tag that does not begin with an angle bracket. -/
  | noBracket
  | noTagName
  /-- A place in a start tag where no attribute can be read. -/
  | noAttribute
  | attribute (fault : Attribute.Fault)
  /-- What a dialect's own reader says. -/
  | dialect (message : String)
deriving DecidableEq, Repr

namespace Cause

/-- The kind of a cause. -/
def kind : Cause → ErrorKind
  | .outside .. | .splits .. => .fragment
  | .noBracket => .contract
  | _ => .refused

/-- How a range is written in a message. -/
def showRange (range : Span) : String := toString range.start ++ ".." ++ toString range.stop

/-- **The text of a cause.** -/
def message : Cause → String
  | .outside range size =>
    "Invalid fragment range " ++ showRange range ++ " (source length " ++ toString size ++ ")"
  | .splits range => "Fragment range " ++ showRange range ++ " splits a character"
  | .negativeBranch range =>
    "Control-flow branch has a negative span (" ++ showRange range ++ ")"
  | .noBracket => "Start tag must begin with \"<\""
  | .noTagName => "Start tag has no name"
  | .noAttribute => "Unrecognized attribute"
  | .attribute fault => fault.message
  | .dialect message => message

end Cause

/-- A cause and the token at which it was found. -/
structure Error where
  cause : Cause
  token : Token
deriving DecidableEq, Repr

namespace Error

def kind (e : Error) : ErrorKind := e.cause.kind

def message (e : Error) : String := e.cause.message

/-- The message with the line and column of the token. -/
def display (e : Error) : String :=
  e.message ++ " (" ++ toString e.token.startLine ++ ":" ++ toString e.token.startCol ++ ")"

/-- **The message with the text around the token**, the place marked by an arrow. -/
def inContext (e : Error) (source : Source) : String :=
  let (before, after) := source.context (source.toLocal e.token.startOffset) 100 3
  e.message ++ " (\"" ++ before ++ "[ERROR ->]" ++ after ++ "\")"

end Error

/-- What a dialect's own reader refuses a text for, with the range in bytes that it points at. -/
structure Rejection where
  message : String
  span : Span
deriving DecidableEq, Repr

/-- The lines of the text that a rejection points at. -/
def Rejection.frame (r : Rejection) (text : List Char) : String :=
  codeFrame text r.span.start r.span.stop

namespace Source

/-- **The token between two offsets**, or the reason why the range is none of the text. -/
def slice (s : Source) (range : Span) : Except Error Token :=
  match Text.slice? range.start range.stop s.text with
  | some raw => .ok (s.tokenOf raw range.start range.stop)
  | none =>
    if range.stop < range.start ∨ s.size < range.stop then
      .error ⟨.outside range s.size, s.emptyToken range.start⟩
    else .error ⟨.splits range, s.emptyToken range.start⟩

/-- The error that a rejection amounts to, with a wording of its own; a range that is none of the
text is replaced by the empty one at its start. -/
def reject (s : Source) (message : String) (range : Span) : Error :=
  match s.slice ⟨min range.start range.stop, range.stop⟩ with
  | .ok token => ⟨.dialect message, token⟩
  | .error _ => ⟨.dialect message, s.emptyToken range.start⟩

end Source

end Markup
