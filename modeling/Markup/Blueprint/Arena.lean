import Markup.Node.Basic
import Markup.Blueprint.Basic

/-!
# Blueprint/Arena — the list of nodes while it grows

Nodes are only ever added at the end, so **every link to a child or an end tag points forward** and
every link to a parent points back.  A node that does not stand where it was expected is not
attached there; `relocate` moves it, and shifts the depths of all that hangs from it.
-/

namespace Markup

/-- The nodes built so far. -/
abbrev Arena := Array Node

namespace Arena

/-- The namespace in which the children of a node stand; at the top it is HTML. -/
def namespaceIn (a : Arena) (parent : Option NodeId) : Namespace :=
  match parent.bind fun p => a[p]? with
  | none => .html
  | some node =>
    match node.element? with
    | some e => Namespace.forChildren e.name node.ns
    | none => node.ns

/-- Adds a node at the end. -/
def add (a : Arena) (position : Position) (token : Token) (ns : Namespace) (data : NodeData) :
    Arena :=
  a.push { id := a.size, token, depth := position.depth, parent := position.parent, ns, data }

/-- Makes a node the last child of its parent, if it has one. -/
def attach (a : Arena) (parent : Option NodeId) (child : NodeId) : Arena :=
  match parent with
  | none => a
  | some p => a.modify p fun node => node.addChild child

/-- The node stands at the given position. -/
def standsAt (a : Arena) (position : Position) (id : NodeId) : Bool :=
  a[id]?.any fun node => node.parent == position.parent && node.depth == position.depth

/-- **Attaches the nodes that stand at a position** and answers the others. -/
def settle (a : Arena) (position : Position) (ids : List NodeId) : Arena × List NodeId :=
  let (here, displaced) := ids.partition (a.standsAt position)
  (here.foldl (fun a id => a.attach position.parent id) a, displaced)

/-- The places that hang from a node: its children, and the end tag of an element. -/
def links (a : Arena) (id : NodeId) : List NodeId :=
  match a[id]? with
  | none => []
  | some node => node.children ++ node.endTag?.toList

/-- The node and all that hangs from it.  Links point forward, so one pass over the later nodes
finds them all. -/
def carried (a : Arena) (id : NodeId) : List NodeId :=
  (List.range' id (a.size - id)).foldl
    (fun found next => if next ∈ found then found ++ a.links next else found) [id]

/-- The bound of the signed 64-bit numbers, the 63rd power of 2. -/
def signedBound : Nat := 9223372036854775808

/-- **The depth of a node that is taken along** when the node it hangs from goes from one depth to
another.  The difference is one of signed numbers, so it wraps at their bound, and a depth that
would be negative becomes 0. -/
def shiftDepth (depth old new : Nat) : Nat :=
  (Int.bmod (depth + (new - old)) (2 * signedBound)).toNat

/-- **Moves a node to a position**; what hangs from it is shifted by the same difference in
depth. -/
def relocate (a : Arena) (position : Position) (id : NodeId) : Arena :=
  match a[id]? with
  | none => a
  | some node =>
    let shifted := (a.carried id).foldl
      (fun a next =>
        a.modify next fun n =>
          { n with depth := shiftDepth n.depth node.depth position.depth }) a
    shifted.modify id fun n => { n with parent := position.parent }

/-- Moves several nodes to one position. -/
def adopt (a : Arena) (position : Position) (ids : List NodeId) : Arena :=
  ids.foldl (fun a id => a.relocate position id) a

end Arena

end Markup
