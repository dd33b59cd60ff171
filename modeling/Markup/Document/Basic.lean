import Markup.Blueprint.Raise
import Markup.Ruleset

/-!
# Document/Basic — a parsed source and the ways to look at it

A `Document` is the list of nodes in source order, the text they came from, and what has been
attached for a pass over them.  `Document.parse` reads a text in a dialect; `Document.text` puts the
nodes' own texts together again.
-/

namespace Markup

/-- A rule that a pass is run for. -/
structure Rule where
  name : String
deriving DecidableEq, Repr

/-- **A parsed source.** -/
structure Document where
  raw : String
  nodes : Array Node
  /-- The text is a part of a document and not a whole one. -/
  isFragment : Bool
  ruleset : Option Ruleset := none
  rule : Option Rule := none

namespace Document

/-- The node at a place of the list. -/
def node? (doc : Document) (id : NodeId) : Option Node := doc.nodes[id]?

/-- The parent of a node, if it is one of the list. -/
def parentOf (doc : Document) (n : Node) : Option Node := n.parent.bind doc.node?

/-- The children of a node. -/
def childrenOf (doc : Document) (n : Node) : List Node := n.children.filterMap doc.node?

/-- The nodes of the tree that have no parent; end tags and ghosts are not of the tree. -/
def roots (doc : Document) : List Node :=
  doc.nodes.toList.filter fun n =>
    n.parent.isNone && n.kind != .endTag && n.kind != .ghost

/-- **The texts of all nodes in a row.** -/
def text (doc : Document) : String := String.join (doc.nodes.toList.map fun n => n.token.raw)

/-- The record of a document. -/
def toJson (doc : Document) : Json :=
  .object [("raw", .string doc.raw), ("isFragment", .bool doc.isFragment),
    ("nodeList", .array (doc.nodes.toList.map Node.toJson))]

/-- Writes a piece of metadata on a node; a place outside the list changes nothing. -/
def setMeta (doc : Document) (id : NodeId) (key : String) (value : Json) : Document :=
  { doc with nodes := doc.nodes.modify id fun n => n.setMeta key value }

/-- **Writing metadata changes one node**, if the place is one of the list. -/
theorem node?_setMeta (doc : Document) (id i : NodeId) (key : String) (value : Json) :
    (doc.setMeta id key value).node? i =
      if id = i then (doc.node? i).map fun n => n.setMeta key value else doc.node? i :=
  Array.getElem?_modify

/-! ## The debug map -/

/-- The most characters of a node's text that a line of the debug map shows. -/
def shownLength : Nat := 40

/-- A blank as something that can be seen. -/
def visible : Char → Char
  | '\n' => '⏎'
  | '\t' => '→'
  | ' ' => '␣'
  | c => c

/-- The beginning of a text with its blanks made visible. -/
def visibleText (raw : String) : String :=
  let cs := raw.toList
  String.ofList ((cs.take shownLength).map visible) ++ if shownLength < cs.length then "…" else ""

/-- The line of a node: where it stands, its depth, its name and its text. -/
def debugLine (n : Node) : String :=
  let t := n.token
  let place := fun (line col : Nat) => "[" ++ toString line ++ ":" ++ toString col ++ "]"
  let slash := if n.kind = .endTag then "/" else ""
  let mark := if n.isGhost then "(👻)" else ""
  place t.startLine t.startCol ++ ">" ++ place t.endLine t.endCol ++
    "(" ++ toString t.startOffset ++ "," ++ toString t.endOffset ++ ")" ++
    String.join (List.replicate n.depth "  ") ++ slash ++ n.name ++ mark ++ ": " ++
    visibleText t.raw

/-- **One line for each node.** -/
def debugMap (doc : Document) : List String := doc.nodes.toList.map debugLine

/-! ## Parsing -/

/-- **Reads a text in a dialect.**  Roots that ask for another place are moved to the top. -/
def parse (d : Dialect) (raw : String) (options : Options) : Except Error Document :=
  let source := Source.ofString raw options.base
  match d.read source options with
  | .error rejection => .error (source.reject (d.refusal source.text rejection) rejection.span)
  | .ok reading => do
    let (displaced, nodes) ← Blueprint.raiseForest d source options.depth reading.roots
    return { raw, nodes := nodes.adopt ⟨none, options.depth⟩ displaced,
             isFragment := reading.isFragment }

end Document

end Markup
