import Markup.Attribute.Basic
import Markup.Node.Name

/-!
# Node/Basic — the nodes of a document

A document is one list of nodes in source order; a node is known by its **place in that list**, and
a tree link is such a place.  Elements and blocks have children, end tags point back to what they
close, and a ghost marks the place where an element was closed without an end tag.
-/

namespace Markup

/-- A node's place in the list of nodes. -/
abbrev NodeId := Nat

/-- The kinds of nodes. -/
inductive NodeKind where
  | element
  | text
  | comment
  | endTag
  | block
  | ghost
  | doctype
deriving DecidableEq, Repr

/-- The name of a kind in records. -/
def NodeKind.label : NodeKind → String
  | .element => "Element"
  | .text => "Text"
  | .comment => "Comment"
  | .endTag => "EndTag"
  | .block => "PsBlock"
  | .ghost => "Ghost"
  | .doctype => "Doctype"

/-- The kinds in the order of their declaration. -/
def NodeKind.all : List NodeKind := [.element, .text, .comment, .endTag, .block, .ghost, .doctype]

/-- The name and identifiers of a document type declaration. -/
structure Doctype where
  name : String := ""
  publicId : String := ""
  systemId : String := ""
deriving DecidableEq, Repr

/-- What is known of an element. -/
structure Element where
  name : String
  type : ElementType
  isCaseSensitive : Bool
  attributes : List Attribute
  children : List NodeId := []
  endTag : Option NodeId := none
  selfClosing : Bool
  /-- A ghost marks where it was closed. -/
  isImpliedClose : Bool := false
deriving DecidableEq, Repr

namespace Element

/-- The first attribute of a name, in the element's own sense of case. -/
def attribute? (e : Element) (name : String) : Option Attribute :=
  e.attributes.find? fun a =>
    if e.isCaseSensitive then a.nodeName == name
    else Text.equalIgnoreCase a.nodeName.toList name.toList

/-- One of the attributes is a spread. -/
def hasSpread (e : Element) : Bool := e.attributes.any Attribute.isSpread

end Element

/-- What a node is. -/
inductive NodeData where
  | element (e : Element)
  | text
  | comment (bogus : Bool)
  /-- An end tag, with the element it closes; a stray one closes none. -/
  | endTag (name : String) (pair : Option NodeId)
  /-- A construct of the dialect that is no markup. -/
  | block (name : String) (children : List NodeId)
  /-- A place without text. -/
  | ghost (name : String)
  | doctype (d : Doctype)
deriving DecidableEq, Repr

/-- **A node**: its text, its place in the tree and what it is. -/
structure Node where
  id : NodeId
  token : Token
  depth : Nat
  parent : Option NodeId
  ns : Namespace
  data : NodeData
  metadata : Json.Fields := []

namespace Node

def kind (n : Node) : NodeKind :=
  match n.data with
  | .element _ => .element
  | .text => .text
  | .comment _ => .comment
  | .endTag .. => .endTag
  | .block .. => .block
  | .ghost _ => .ghost
  | .doctype _ => .doctype

/-- The name that a node goes by; kinds without a name of their own share one. -/
def name (n : Node) : String :=
  match n.data with
  | .element e => e.name
  | .text => "#text"
  | .comment _ => "#comment"
  | .endTag name _ => name
  | .block name _ => name
  | .ghost name => name
  | .doctype _ => "#doctype"

/-- The children, for the two kinds that have any. -/
def children (n : Node) : List NodeId :=
  match n.data with
  | .element e => e.children
  | .block _ children => children
  | _ => []

/-- What the node says as an element. -/
def element? (n : Node) : Option Element :=
  match n.data with
  | .element e => some e
  | _ => none

/-- The end tag, of an element that has one. -/
def endTag? (n : Node) : Option NodeId := n.element?.bind Element.endTag

def isGhost (n : Node) : Bool := n.kind == .ghost

/-- **Adds a child at the end**; a node of another kind stays as it is. -/
def addChild (n : Node) (child : NodeId) : Node :=
  match n.data with
  | .element e => { n with data := .element { e with children := e.children ++ [child] } }
  | .block name children => { n with data := .block name (children ++ [child]) }
  | _ => n

/-- Notes what closes an element; a node of another kind stays as it is. -/
def updateElement (n : Node) (f : Element → Element) : Node :=
  match n.data with
  | .element e => { n with data := .element (f e) }
  | _ => n

/-- Writes a piece of metadata. -/
def setMeta (n : Node) (key : String) (value : Json) : Node :=
  { n with metadata := n.metadata.put key value }

/-- **Writing a key leaves the values of the others**… -/
theorem get?_setMeta (n : Node) (key k : String) (value : Json) :
    (n.setMeta key value).metadata.get? k =
      if k = key then some value else n.metadata.get? k := by
  split
  case isTrue h => exact h ▸ Json.Fields.get?_put_self
  case isFalse h => exact Json.Fields.get?_put_of_ne h

/-- …and their order: a new key goes to the end, one that is there keeps its place. -/
theorem keys_setMeta (n : Node) (key : String) (value : Json) :
    (n.setMeta key value).metadata.keys =
      if key ∈ n.metadata.keys then n.metadata.keys else n.metadata.keys ++ [key] := by
  split
  case isTrue h => exact Json.Fields.keys_put_of_mem h
  case isFalse h => exact Json.Fields.keys_put_of_not_mem h

/-- The fields that only some kinds have. -/
def kindFields (n : Node) : Json.Fields :=
  match n.data with
  | .element e =>
    [("elementType", .string e.type.label), ("isCaseSensitive", .bool e.isCaseSensitive),
      ("attributes", .array (e.attributes.map Attribute.toJson)),
      ("selfClosing", .bool e.selfClosing), ("endTag", .ofOption .ofNat e.endTag)]
  | .endTag _ pair => [("pair", .ofOption .ofNat pair)]
  | .comment bogus => [("isBogus", .bool bogus)]
  | .doctype d =>
    [("name", .string d.name), ("publicId", .string d.publicId), ("systemId", .string d.systemId)]
  | .text | .block .. | .ghost _ => []

/-- **The record of a node**; children and metadata are left out where there are none. -/
def toJson (n : Node) : Json :=
  .object <|
    [("index", .ofNat n.id), ("kind", .string n.kind.label), ("nodeName", .string n.name),
      ("raw", .string n.token.raw), ("startOffset", .ofNat n.token.startOffset),
      ("endOffset", .ofNat n.token.endOffset), ("startLine", .ofNat n.token.startLine),
      ("endLine", .ofNat n.token.endLine), ("startCol", .ofNat n.token.startCol),
      ("endCol", .ofNat n.token.endCol), ("depth", .ofNat n.depth),
      ("parent", .ofOption .ofNat n.parent), ("namespace", .string n.ns.uri)]
    ++ n.kindFields
    ++ (if n.children.isEmpty then [] else [("children", .ofNats n.children)])
    ++ (if n.metadata.isEmpty then [] else [("meta", .object n.metadata)])

end Node

end Markup
