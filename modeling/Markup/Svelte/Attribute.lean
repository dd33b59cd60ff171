import Markup.Attribute.Basic
import Markup.StartTag

/-!
# Svelte/Attribute — directives, bindings and shorthands

An attribute in braces alone is **a shorthand for the name that it holds**; a name with a colon is a
directive; a binding stands for the property that it names, and a class directive for the class.
-/

namespace Markup.Svelte

/-- The rules that the attribute at the beginning of a text is recognized by. -/
def attributeRules (cs : List Char) : Attribute.Rules where
  quotes := [.double, .single, .braces]
  start := if (cs.dropWhile Text.isBlank).head? = some '{' then .beforeValue else .beforeName

/-- The targets of a binding that are not properties of the element. -/
def otherBindings : List String := ["group", "this"]

/-- The part of a directive's name after the colon, if there is any. -/
def directiveTarget? (a : Attribute.Plain) : Option String := a.subName.filter fun sub => sub ≠ ""

/-- The name that an attribute stands for which has none. -/
def shorthandName? (a : Attribute.Plain) : Option String :=
  if a.quoteKind = some .script ∧ a.parts.name.isEmpty then
    some (String.ofList (Text.trim a.parts.value.raw.toList))
  else none

/-- The property that a binding names. -/
def boundProperty? (a : Attribute.Plain) : Option String :=
  if a.baseName = "bind" then (directiveTarget? a).filter fun sub => !otherBindings.contains sub
  else none

/-- The attribute sets classes. -/
def isClass (a : Attribute.Plain) : Bool :=
  Text.equalIgnoreCase a.baseName.toList ['c', 'l', 'a', 's', 's']

/-- **What the dialect reads into an attribute.** -/
def interpret (a : Attribute.Plain) : Attribute.Plain :=
  let isClassDirective := isClass a && (directiveTarget? a).isSome
  { a with
    isDynamic := a.isDynamic || (boundProperty? a).isSome || isClassDirective
    isDirective := a.isDirective || (directiveTarget? a).isSome
    isDuplicatable := a.isDuplicatable || isClass a
    potentialName :=
      if isClassDirective then some "class"
      else boundProperty? a <|> shorthandName? a <|> a.potentialName }

/-- Reads the first attribute of the rest of a start tag. -/
def readAttribute : AttributeReader := fun source token => do
  match ← Attribute.read (attributeRules token.raw.toList) source token with
  | .plain a => return .plain (interpret a)
  | spread => return spread

end Markup.Svelte
