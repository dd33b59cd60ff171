import Markup.Blueprint.Arena
import Markup.Dialect

/-!
# Blueprint/Raise — building the nodes of a blueprint

`Blueprint.raise` builds a blueprint at a position and answers the nodes that stand at the top of
it.  The children of an element or block are built after it and settled under it; those that ask
for another place **become its siblings**.  An element is closed by its end tag, by a ghost where
end tags may be left out, or not at all.
-/

namespace Markup

/-- Building: nodes are added, or the source is refused. -/
abbrev Build := StateT Arena (Except Error)

namespace Build

/-- The token of a range of the source. -/
def slice (source : Source) (span : Span) : Build Token :=
  fun a => (source.slice span).map fun token => (token, a)

/-- Adds a node and answers its place. -/
def add (position : Position) (token : Token) (ns : Namespace) (data : NodeData) : Build NodeId :=
  fun a => .ok (a.size, a.add position token ns data)

/-- The namespace in which the children of a node stand. -/
def namespaceIn (parent : Option NodeId) : Build Namespace :=
  fun a => .ok (a.namespaceIn parent, a)

/-- Attaches the nodes that stand at a position and answers the others. -/
def settle (position : Position) (ids : List NodeId) : Build (List NodeId) :=
  fun a => let (a, displaced) := a.settle position ids; .ok (displaced, a)

/-- Moves nodes to a position. -/
def adopt (position : Position) (ids : List NodeId) : Build Unit :=
  fun a => .ok ((), a.adopt position ids)

/-- Notes what closes an element. -/
def updateElement (id : NodeId) (f : Element → Element) : Build Unit :=
  fun a => .ok ((), a.modify id fun node => node.updateElement f)

/-- Where the last node ends in the source. -/
def lastEnd (source : Source) : Build Nat :=
  fun a => .ok ((a.back?.map fun node => source.toLocal node.token.endOffset).getD 0, a)

/-- Builds a leaf.  **A stray end tag is nobody's child**, though its namespace is that of its
place. -/
def leaf (position : Position) (token : Token) : Leaf → Build (List NodeId)
  | .text => do
    let ns ← namespaceIn position.parent
    return [← add position token ns .text]
  | .comment bogus => do
    let ns ← namespaceIn position.parent
    return [← add position token ns (.comment bogus)]
  | .doctype d => return [← add position token .html (.doctype d)]
  | .strayEndTag => do
    let ns ← namespaceIn position.parent
    let name := String.ofList (endTagName token.raw.toList)
    let _ ← add { position with parent := none } token ns (.endTag name none)
    return []

/-- Closes an element: by its end tag, by a ghost, or by nothing. -/
def close (d : Dialect) (source : Source) (position : Position) (ns : Namespace) (id : NodeId)
    (tag : StartTag) : Option Token → Build Unit
  | some token => do
    let name := String.ofList (endTagName token.raw.toList)
    let closer ← add position token ns (.endTag name (some id))
    updateElement id fun e => { e with endTag := some closer }
  | none => do
    if !tag.selfClosing && d.config.endTags == .omittable && !d.isVoid tag.name then
      let _ ← add position (source.emptyToken (← lastEnd source)) ns (.ghost tag.name)
      updateElement id fun e => { e with isImpliedClose := true }

end Build

namespace Blueprint

variable (d : Dialect) (source : Source)

mutual

/-- **Builds a blueprint** and answers the nodes at the top of it. -/
def raise (here : Position) : Blueprint → Build (List NodeId)
  | .leaf placement span kind => do
    let token ← Build.slice source span
    Build.leaf (placement.resolve here) token kind
  | .block placement span name children => do
    let position := placement.resolve here
    let token ← Build.slice source span
    let ns ← Build.namespaceIn position.parent
    let id ← Build.add position token ns (.block name [])
    let inside : Position := ⟨some id, position.depth + 1⟩
    let ids ← raiseAll inside children
    let displaced ← Build.settle inside ids
    Build.adopt position displaced
    return id :: displaced
  | .element placement startTag children endTag => do
    let position := placement.resolve here
    let token ← Build.slice source startTag
    let tag ← StartTag.read d.readAttribute source token
    let outer ← Build.namespaceIn position.parent
    let ns := Namespace.ofElement tag.name outer
    let id ← Build.add position token ns <| .element {
      name := tag.name
      type := d.elementType tag.name
      isCaseSensitive := d.config.caseSensitive
      attributes := tag.attributes
      selfClosing := tag.selfClosing }
    let inside : Position := ⟨some id, position.depth + 1⟩
    let ids ← raiseAll inside children
    let displaced ← Build.settle inside ids
    let closer ← endTag.mapM (Build.slice source)
    Build.close d source position ns id tag closer
    Build.adopt position displaced
    return id :: displaced
  | .group placement span items => do
    let _ ← span.mapM (Build.slice source)
    raiseAll (placement.resolve here) items
  | .fault error => throw error

/-- Builds blueprints side by side. -/
def raiseAll (here : Position) : List Blueprint → Build (List NodeId)
  | [] => return []
  | b :: bs => do
    let ids ← raise here b
    return ids ++ (← raiseAll here bs)

end

/-- The nodes of a forest whose roots have a given depth, and the roots that stand elsewhere. -/
def raiseForest (depth : Nat) (roots : List Blueprint) : Except Error (List NodeId × Arena) := do
  let top : Position := ⟨none, depth⟩
  let (ids, nodes) ← (raiseAll d source top roots).run #[]
  let (nodes, displaced) := nodes.settle top ids
  return (displaced, nodes)

end Blueprint

end Markup
