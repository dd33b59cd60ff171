import Markup.Text.Search

/-!
# Node/Name — what an element's name says: its namespace and its type

`Namespace.ofElement` and `Namespace.forChildren` are the two steps by which namespaces pass down a
tree: `svg` and `math` enter foreign content, `foreignObject` leaves it.  `ElementType.ofName` tells
components, web components and plain elements apart.
-/

namespace Markup

/-- The vocabularies that an element may belong to. -/
inductive Namespace where
  | html
  | svg
  | mathMl
deriving DecidableEq, Repr

namespace Namespace

/-- The identifier of a namespace. -/
def uri : Namespace → String
  | .html => "http://www.w3.org/1999/xhtml"
  | .svg => "http://www.w3.org/2000/svg"
  | .mathMl => "http://www.w3.org/1998/Math/MathML"

/-- A name as it is written here, in any case of its ASCII letters. -/
def isNamed (name expected : String) : Bool := Text.equalIgnoreCase name.toList expected.toList

/-- **The namespace of an element** that stands in a given one. -/
def ofElement (name : String) : Namespace → Namespace
  | .html => if isNamed name "svg" then .svg else if isNamed name "math" then .mathMl else .html
  | inherited => inherited

/-- **The namespace that the children of an element stand in.** -/
def forChildren (name : String) : Namespace → Namespace
  | .svg => if isNamed name "foreignobject" then .html else .svg
  | own => own

end Namespace

/-- Who defines what an element means. -/
inductive ElementType where
  | html
  | webComponent
  /-- A component of the dialect. -/
  | authored
deriving DecidableEq, Repr

namespace ElementType

/-- A character that may follow the first letter of a custom element's name. -/
def isCustomNameChar (c : Char) : Bool :=
  c.isLower || c.isDigit || c == '.' || c == '_' || c == '-'

/-- The name of a **custom element**: a small letter leads it and it holds a hyphen. -/
def isCustomName (name : String) : Bool :=
  match name.toList with
  | [] => false
  | c :: cs => c.isLower && cs.all isCustomNameChar && cs.contains '-'

/-- The name of a component: a capital letter leads it or it holds a dot. -/
def isComponentName (name : String) : Bool :=
  name.toList.head?.any Char.isUpper || name.toList.contains '.'

/-- **The type of an element**; a name that the dialect claims for its components is one. -/
def ofName (isAuthored : String → Bool) (name : String) : ElementType :=
  if isAuthored name then .authored
  else if isCustomName name then .webComponent
  else .html

/-- The name of a type in records. -/
def label : ElementType → String
  | .html => "Html"
  | .webComponent => "WebComponent"
  | .authored => "Authored"

end ElementType

end Markup
