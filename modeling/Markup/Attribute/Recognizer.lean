import Markup.Attribute.Quote
import Markup.Expression
import Markup.Text.Search

/-!
# Attribute/Recognizer — splitting the first attribute off the rest of a tag

`recognize` reads one attribute from what follows a tag name and leaves the rest untouched.  The
parts come in a fixed order — spaces, name, spaces, equal sign, spaces, quote, value, quote — and
each stage reads a maximal run and hands on to a later one, so the recognizer is a chain of
functions with **no stage entered twice**.  A name followed by spaces and no equal sign gives the
spaces back.
-/

namespace Markup.Attribute

/-- Where in an attribute the recognizer starts. -/
inductive Stage where
  | beforeName
  | name
  | beforeEqual
  | beforeValue
  | value
  | unquotedValue
  | afterValue
  | spread
deriving DecidableEq, Repr

/-- **Eight parts in the order in which an attribute writes them**: as texts when it is recognized,
as tokens once it is located. -/
structure Layout (α : Type) where
  spacesBeforeName : α
  name : α
  spacesBeforeEqual : α
  equal : α
  spacesAfterEqual : α
  startQuote : α
  value : α
  endQuote : α
deriving DecidableEq, Repr

namespace Layout

variable {α : Type}

/-- The parts in order. -/
def toList (l : Layout α) : List α :=
  [l.spacesBeforeName, l.name, l.spacesBeforeEqual, l.equal, l.spacesAfterEqual, l.startQuote,
    l.value, l.endQuote]

/-- The same part everywhere. -/
def fill (a : α) : Layout α := ⟨a, a, a, a, a, a, a, a⟩

end Layout

/-- The parts of an attribute and what follows it. -/
structure Parts extends Layout (List Char) where
  leftover : List Char := []
  quote : Option Quote := none
  /-- Recognized as `{...expression}`, with the dots in the value. -/
  spread : Bool := false
deriving DecidableEq, Repr

namespace Parts

/-- Nothing read and nothing left. -/
def empty : Parts := { Layout.fill [] with }

/-- **The text that the parts came from.** -/
def source (p : Parts) : List Char := p.toList.flatten ++ p.leftover

/-- The bytes of the attribute without its leading spaces. -/
def size (p : Parts) : Nat := Text.byteSize (p.toList.drop 1).flatten

end Parts

/-- Why an attribute cannot be read. -/
inductive Fault where
  /-- A value without its closing character. -/
  | unclosedValue (closing : Char)
  /-- A spread without its closing brace. -/
  | unclosedSpread
deriving DecidableEq, Repr

/-- The text of a fault. -/
def Fault.message : Fault → String
  | .unclosedValue closing =>
    "Unclosed attribute value: expected \"" ++ String.ofList [closing] ++ "\""
  | .unclosedSpread => "Unclosed spread attribute"

/-- A fault and the offset of the value or spread that is not closed. -/
structure Failure where
  fault : Fault
  offset : Nat
deriving DecidableEq, Repr

/-- What the recognizer needs to know of a dialect. -/
structure Rules where
  quotes : List Quote := Quote.html
  start : Stage := .beforeName
  /-- The characters that end an unquoted value, besides blanks.  A slash does not: it may be part
  of a path, and the tag decides whether it closes the element. -/
  unquotedEnd : List Char := ['>']

namespace Recognizer

/-- A fault together with the text that was left when it was found. -/
abbrev Fallible := Except (Fault × List Char) Parts

/-- The text begins with a spread that the quotes allow. -/
def startsSpread (quotes : List Quote) (cs : List Char) : Bool :=
  ['{', '.', '.', '.'].isPrefixOf cs && Quote.allowSpread quotes

/-- An unquoted value: everything up to a blank or an end character. -/
def unquotedValue (ends : List Char) (p : Parts) (cs : List Char) : Parts :=
  let inside := fun c => !(Text.isBlank c || ends.contains c)
  { p with value := cs.takeWhile inside, leftover := cs.dropWhile inside }

/-- The value and the text from its closing character on. -/
def closeValue? (q : Quote) (cs : List Char) : Option (List Char × List Char) :=
  match q.kind with
  | .text => Text.cut [q.closing] cs
  | .script => Expression.split? q.closing cs

/-- A quoted value after its opening quote; **nothing at all is no unclosed value**. -/
def quotedValue (p : Parts) (cs : List Char) : Fallible :=
  if cs.isEmpty then .ok { p with leftover := [] }
  else
    let q := p.quote.getD Quote.double
    match closeValue? q cs with
    | none => .error (.unclosedValue q.closing, cs)
    | some (value, rest) =>
      .ok { p with value, endQuote := [q.closing], leftover := rest.drop 1 }

/-- A spread, from its opening brace to its closing one. -/
def spread (quotes : List Quote) (p : Parts) (cs : List Char) : Fallible :=
  if cs.isEmpty then .ok { p with leftover := [] }
  else
    match (Text.dropBytes? 1 cs).bind (Expression.split? '}') with
    | none => .error (.unclosedSpread, cs)
    | some (value, rest) =>
      .ok { p with
        startQuote := ['{'], value, endQuote := ['}'], leftover := rest.drop 1
        quote := Quote.opened? quotes '{', spread := true }

/-- The value with the spaces before it, which belong to the name when nothing was read yet. -/
def beforeValue (rules : Rules) (p : Parts) (cs : List Char) : Fallible :=
  let spaces := cs.takeWhile Text.isBlank
  let rest := cs.dropWhile Text.isBlank
  let bare := p.name.isEmpty && p.equal.isEmpty
  let p :=
    if bare then { p with spacesBeforeName := p.spacesBeforeName ++ spaces }
    else { p with spacesAfterEqual := spaces }
  match rest with
  | [] => .ok { p with leftover := [] }
  | c :: tail =>
    if bare && startsSpread rules.quotes rest then spread rules.quotes p rest
    else
      match Quote.opened? rules.quotes c with
      | some q => quotedValue { p with startQuote := [c], quote := some q } tail
      | none =>
        if c = '>' then .ok { p with leftover := rest }
        else .ok (unquotedValue rules.unquotedEnd p rest)

/-- The equal sign with the spaces before it; without one the spaces are left over. -/
def beforeEqual (rules : Rules) (p : Parts) (cs : List Char) : Fallible :=
  match cs.dropWhile Text.isBlank with
  | '=' :: rest =>
    beforeValue rules
      { p with spacesBeforeEqual := cs.takeWhile Text.isBlank, equal := ['='] } rest
  | _ => .ok { p with leftover := cs }

/-- The characters that end an attribute's name. -/
def isNameStop (c : Char) : Bool := Text.isBlank c || c == '=' || c == '>' || c == '/'

/-- The name that a text begins with: an opening quote may lead it and ends it anywhere else. -/
def nameOf (quotes : List Quote) : List Char → List Char
  | [] => []
  | c :: cs =>
    if isNameStop c then []
    else c :: cs.takeWhile fun c => !isNameStop c && (Quote.opened? quotes c).isNone

/-- The name and what it is followed by. -/
def name (rules : Rules) (p : Parts) (cs : List Char) : Fallible :=
  let p := { p with name := nameOf rules.quotes cs }
  match cs.drop p.name.length with
  | '=' :: rest => beforeValue rules { p with equal := ['='] } rest
  | rest =>
    if rest.head?.any Text.isBlank then beforeEqual rules p rest
    else .ok { p with leftover := rest }

/-- The spaces before a name, and the name unless the tag ends here. -/
def beforeName (rules : Rules) (p : Parts) (cs : List Char) : Fallible :=
  let p := { p with spacesBeforeName := cs.takeWhile Text.isBlank }
  match cs.dropWhile Text.isBlank with
  | [] => .ok { p with leftover := [] }
  | c :: tail =>
    if startsSpread rules.quotes (c :: tail) then spread rules.quotes p (c :: tail)
    else if c = '>' ∨ (c = '/' ∧ (tail.dropWhile Text.isSpace).head? = some '>') then
      .ok { p with leftover := c :: tail }
    else name rules p (c :: tail)

/-- The recognizer from a given stage on. -/
def start (rules : Rules) (cs : List Char) : Fallible :=
  match rules.start with
  | .beforeName => beforeName rules .empty cs
  | .name => name rules .empty cs
  | .beforeEqual => beforeEqual rules .empty cs
  | .beforeValue => beforeValue rules .empty cs
  | .value => quotedValue .empty cs
  | .unquotedValue => .ok (unquotedValue rules.unquotedEnd .empty cs)
  | .afterValue => .ok { Parts.empty with leftover := cs }
  | .spread => spread rules.quotes .empty cs

end Recognizer

/-- **The first attribute of a text** by the rules of a dialect. -/
def recognize (rules : Rules) (cs : List Char) : Except Failure Parts :=
  match Recognizer.start rules cs with
  | .ok parts => .ok parts
  | .error (fault, rest) => .error ⟨fault, Text.byteSize cs - Text.byteSize rest⟩

/-- A name split at its first colon. -/
def splitDirective (name : List Char) : List Char × Option (List Char) :=
  match name.dropWhile (· != ':') with
  | [] => (name, none)
  | _ :: sub => (name.takeWhile (· != ':'), some sub)

end Markup.Attribute
