import Markup.Construct.Branches
import Markup.Node.Basic

/-!
# Blueprint/Basic — what is to be built, before it is built

A dialect's own tree becomes a `Blueprint`: leaves, blocks, elements, and groups that make no node
of their own.  A blueprint says **which ranges of the source its nodes cover and may name a place**
for them other than the one where it stands; what a node looks like is settled when it is built.
-/

namespace Markup

/-- The parent and depth of a node. -/
structure Position where
  parent : Option NodeId
  depth : Nat
deriving DecidableEq, Repr

/-- A place that a blueprint asks for: what it leaves open is taken from where it stands. -/
structure Placement where
  parent : Option (Option NodeId) := none
  depth : Option Nat := none
deriving DecidableEq, Repr

/-- The position that a placement asks for in place of `here`. -/
def Placement.resolve (p : Placement) (here : Position) : Position where
  parent := p.parent.getD here.parent
  depth := p.depth.getD here.depth

/-- The nodes that have no children. -/
inductive Leaf where
  | text
  | comment (bogus : Bool)
  | doctype (d : Doctype)
  /-- An end tag that closes nothing. -/
  | strayEndTag
deriving DecidableEq, Repr

/-- **What is to be built.** -/
inductive Blueprint where
  | leaf (placement : Placement) (span : Span) (leaf : Leaf)
  | block (placement : Placement) (span : Span) (name : String) (children : List Blueprint)
  | element (placement : Placement) (startTag : Span) (children : List Blueprint)
      (endTag : Option Span)
  /-- Things that stand side by side; a range given with them must be one of the source. -/
  | group (placement : Placement) (span : Option Span) (items : List Blueprint)
  /-- Something that could not be planned. -/
  | fault (error : Error)

instance : Inhabited Blueprint := ⟨.group {} none []⟩

/-- A blueprint with the range that its part of the dialect's tree covers. -/
structure Planned where
  span : Span
  blueprint : Blueprint
deriving Inhabited

instance : Spanned Planned := ⟨Planned.span⟩

namespace Blueprint

/-- The blueprint of a branch: a block with the children of all its groups. -/
def ofBranch (b : Branch Planned) : Blueprint :=
  .block {} b.span b.role (b.groups.flatten.map Planned.blueprint)

/-- **The blueprint of a control-flow construct**: its orphans, then a block for each branch, all
side by side. -/
def ofConstruct (source : Source) (placement : Placement) (c : Construct Planned) : Blueprint :=
  .group placement (some c.span) <|
    match c.branches source with
    | .ok row => row.orphans.flatten.map Planned.blueprint ++ row.branches.map ofBranch
    | .error e => [.fault e]

/-- The blueprint of control flow that no construct accounts for. -/
def bareBlock (placement : Placement) (span : Span) : Blueprint :=
  .block placement span "#block" []

/-- The blueprint of an expression that a dialect does not handle otherwise. -/
def expression (placement : Placement) (span : Span) : Blueprint :=
  .block placement span "#expression" []

end Blueprint

end Markup
