/-!
# Attribute/Quote — the delimiters of attribute values

A dialect gives the recognizer a list of quotes; **the first with an opening character wins**.  A
script quote holds an expression, so its value ends where the expression does.
-/

namespace Markup

/-- What stands between two quotes. -/
inductive QuoteKind where
  /-- Literal text, up to the next closing character. -/
  | text
  /-- An expression, up to the closing character that ends it. -/
  | script
deriving DecidableEq, Repr

/-- A pair of value delimiters. -/
structure Quote where
  opening : Char
  closing : Char
  kind : QuoteKind
deriving DecidableEq, Repr

namespace Quote

/-- The double quote. -/
def double : Quote := ⟨'"', '"', .text⟩

/-- The single quote. -/
def single : Quote := ⟨'\'', '\'', .text⟩

/-- Braces around an expression. -/
def braces : Quote := ⟨'{', '}', .script⟩

/-- The quotes of plain HTML. -/
def html : List Quote := [double, single]

/-- The quote of a set that a character opens. -/
def opened? (quotes : List Quote) (c : Char) : Option Quote :=
  quotes.find? fun q => q.opening == c

/-- Whether braces open a script in a set of quotes, so that a spread may stand among them. -/
def allowSpread (quotes : List Quote) : Bool :=
  (opened? quotes '{').any fun q => q.kind == .script

end Quote

end Markup
