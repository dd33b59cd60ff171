import Markup.Construct.Branches

/-!
# Construct/Flow — control flow as a tree links it

A tree hangs the alternatives of a conditional **one behind the other** and the phases of a phased
construct under their names.  `Flow.construct?` follows the links and lays the construct out as a
row of sections; `Flow.normalize` makes its branches.
-/

namespace Markup

/-- What a node is, as far as control flow goes. -/
inductive FlowKind where
  | conditional
  /-- Phases that are visited in a fixed order. -/
  | phased (name : String) (phases : List String)
deriving DecidableEq, Repr

/-- **A node of a tree with its links**: the alternative behind it, the further conditional that an
alternative may be, and the phases that are written. -/
inductive Flow (α : Type) where
  | node (content : Section α) (kind : Option FlowKind) (alternate elseIf : Option (Flow α))
      (phases : List (String × Flow α))

instance {α : Type} : Inhabited (Flow α) := ⟨.node default none none none []⟩

namespace Flow

variable {α : Type}

/-- The header and children of a node. -/
def content : Flow α → Section α
  | .node content .. => content

/-- The section that a phase of the node opens, if it is written. -/
def phase? (name : String) : Flow α → Option (Section α)
  | .node _ _ _ _ phases =>
    (phases.find? fun phase => phase.1 = name).map fun phase => phase.2.content

/-- **The alternatives behind a node**, those under a further condition and the last; the last has
none behind it. -/
def alternatives : Flow α → List (Section α) × Option (Section α)
  | .node _ _ none _ _ => ([], none)
  | .node _ _ (some (.node content _ _ none _)) _ _ => ([], some content)
  | .node _ _ (some (.node _ _ _ (some next) _)) _ _ =>
    let (others, last) := next.alternatives
    (next.content :: others, last)

/-- **The construct that a node is**, if it is one. -/
def construct? (n : Flow α) : Option (Construct α) :=
  match n with
  | .node _ none _ _ _ => none
  | .node content (some .conditional) _ _ _ =>
    some (.conditional content n.alternatives.1 n.alternatives.2)
  | .node content (some (.phased name phases)) _ _ _ =>
    some (.ofPhases name content phases fun phase => n.phase? phase)

/-- **The branches of a node**; none if it is no construct. -/
def normalize [Spanned α] (n : Flow α) (source : Source) : Except Error (Option (Branches α)) :=
  match n.construct? with
  | none => .ok none
  | some c => (c.branches source).map some

/-- A construct reaches over its first section. -/
theorem span_of_construct? {n : Flow α} {c : Construct α} (h : n.construct? = some c) :
    c.span = n.content.span := by
  unfold construct? at h
  split at h
  · simp at h
  · obtain rfl := Option.some.inj h
    rfl
  · obtain rfl := Option.some.inj h
    rfl

end Flow

end Markup
