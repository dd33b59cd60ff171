import Markup.Source.Basic

/-!
# Construct/Basic — control flow as sections

A control-flow construct of a dialect is a head section followed by others, each with a header and
children.  A `conditional` lists its alternatives; a `phased` construct lists the phases it may
have in a fixed order, and **a phase that is not written stands for the head**.
-/

namespace Markup

/-- A header and the children written after it. -/
structure Section (α : Type) where
  span : Span
  headerEnd : Nat
  children : List α
deriving Inhabited

namespace Section

variable {α : Type} [Spanned α]

instance : Spanned (Section α) := ⟨Section.span⟩

/-- Where the children begin, or the header ends if there are none. -/
def bodyStart (s : Section α) : Nat :=
  match s.children.head? with
  | some child => (Spanned.span child).start
  | none => s.headerEnd

/-- Where the children end, or the header if there are none. -/
def bodyEnd (s : Section α) : Nat :=
  match s.children.getLast? with
  | some child => (Spanned.span child).stop
  | none => s.headerEnd

/-- The section with its children replaced one by one. -/
def map {α β : Type} (f : α → β) (s : Section α) : Section β where
  span := s.span
  headerEnd := s.headerEnd
  children := s.children.map f

end Section

/-- **A control-flow construct.** -/
inductive Construct (α : Type) where
  /-- Alternatives: the first, those under a further condition, and the last. -/
  | conditional (head : Section α) (elseIfs : List (Section α)) (otherwise : Option (Section α))
  /-- Phases by name, each with its section if it is written. -/
  | phased (name : String) (head : Section α) (phases : List (String × Option (Section α)))

namespace Construct

variable {α : Type}

/-- The section that opens the construct; its span is that of the whole. -/
def head : Construct α → Section α
  | .conditional head .. => head
  | .phased _ head _ => head

/-- The range of the whole construct. -/
def span (c : Construct α) : Span := c.head.span

/-- The name that the closing tag repeats. -/
def name : Construct α → String
  | .conditional .. => "if"
  | .phased name .. => name

/-- The phases of an iteration. -/
def eachPhases : List String := ["", "else"]

/-- The phases of a wait; the pending phase is the construct's own body. -/
def awaitPhases : List String := ["pending", "then", "catch"]

/-- The phases of a wait whose header opens the `then` phase. -/
def awaitThenPhases : List String := ["then", "catch"]

/-- The phases of a wait whose header opens the `catch` phase. -/
def awaitCatchPhases : List String := ["catch"]

/-- The only phase of a construct without branches. -/
def singlePhase : List String := [""]

/-- A phased construct whose sections are looked up by the names of its phases; the phase without a
name is the head. -/
def ofPhases (name : String) (head : Section α) (phases : List String)
    (find : String → Option (Section α)) : Construct α :=
  .phased name head (phases.map fun phase => (phase, if phase = "" then none else find phase))

/-- The role of a phase: that of its name, and the construct's own for the two that the head
opens. -/
def phaseRole (construct phase : String) : String :=
  if phase = "" ∨ phase = "pending" then construct else phase

/-- The sections without those whose span came before. -/
def dropRepeated (seen : List Span) : List (String × Section α) → List (String × Section α)
  | [] => []
  | s :: ss =>
    if s.2.span ∈ seen then dropRepeated seen ss
    else s :: dropRepeated (s.2.span :: seen) ss

/-- **The sections in the order in which they are visited**, with their roles. -/
def visits : Construct α → List (String × Section α)
  | .conditional head elseIfs otherwise =>
    ("if", head) :: (elseIfs.map fun s => ("elseif", s)) ++
      otherwise.toList.map fun s => ("else", s)
  | .phased name head phases =>
    dropRepeated [] (phases.map fun p => (phaseRole name p.1, p.2.getD head))

end Construct

end Markup
