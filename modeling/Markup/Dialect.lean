import Markup.Blueprint.Basic
import Markup.Config
import Markup.Options
import Markup.StartTag

/-!
# Dialect — what the builder needs to know of a dialect

A `Dialect` reads a source into blueprints and answers a few questions about its elements; all that
a dialect does not set **has the value of plain markup**.

A dialect says all that it has to say **in its blueprints**: which nodes there are, what they cover,
and the places that they ask for.  It leaves the rest to the builder, which visits the children of
elements, blocks and groups, pairs end tags and builds blocks for control flow and expressions.
Adapters that call the builder's visiting of children themselves, under a parent of their own
choice, or put their own code in place of the builder's are no dialects in this sense.
-/

namespace Markup

/-- What a dialect reads from a source. -/
structure Reading where
  roots : List Blueprint
  isFragment : Bool

/-- **A dialect**: its reader, and its answers about elements. -/
structure Dialect where
  name : String
  config : Config
  read : Source → Options → Except Rejection Reading
  readAttribute : AttributeReader := Attribute.read {}
  /-- The name is that of a component. -/
  isAuthored : String → Bool := fun _ => false
  /-- Elements of the name are closed by their start tag. -/
  isVoid : String → Bool := fun _ => false
  /-- What is said when the reader rejects a text. -/
  refusal : List Char → Rejection → String := fun _ r => r.message

/-- The type of an element in a dialect. -/
def Dialect.elementType (d : Dialect) (name : String) : ElementType :=
  ElementType.ofName d.isAuthored name

end Markup
