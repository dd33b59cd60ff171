import Markup.Document.Basic

/-!
# Document/Walk — visiting the nodes of a document in order

A walk visits the nodes of one kind, or all, **in the order of the list and stops at the first
failure**.  A visitor has a state of its own and may write metadata on the node it visits.
`Document.walkNow` visits at once; `Document.walk` lets each visit suspend, and finishes it before
the next one begins.  A walk over all nodes, one over the nodes of a kind and one whose visitor is a
mere function **share this loop**: the first gives no kind, and the last has no state of its own but
what the function closes over.
-/

namespace Markup

/-- A result that is there once it has been resumed often enough. -/
inductive Deferred (α : Type) where
  | done (result : α)
  | suspended (rest : Deferred α)

namespace Deferred

variable {α β : Type}

/-- Goes on with a result once it is there. -/
def bind : Deferred α → (α → Deferred β) → Deferred β
  | done a, f => f a
  | suspended rest, f => suspended (rest.bind f)

/-- A result that has to be resumed `n` times. -/
def after (a : α) : Nat → Deferred α
  | 0 => done a
  | n + 1 => suspended (after a n)

/-- The result, resumed until it is there. -/
def run : Deferred α → α
  | done a => a
  | suspended rest => rest.run

/-- How often a result has to be resumed. -/
def suspensions : Deferred α → Nat
  | done _ => 0
  | suspended rest => rest.suspensions + 1

@[simp] theorem run_bind (x : Deferred α) (f : α → Deferred β) :
    (x.bind f).run = (f x.run).run := by
  induction x with
  | done a => rfl
  | suspended rest ih => simpa [bind, run] using ih

@[simp] theorem run_after (a : α) (n : Nat) : (after a n).run = a := by
  induction n with
  | zero => rfl
  | succ n ih => simpa [after, run] using ih

end Deferred

/-- What a visit leaves: the node's metadata, the visitor's state, and whether it failed. -/
structure Visit (σ ε : Type) where
  metadata : Json.Fields
  state : σ
  outcome : Except ε Unit

/-- A walk that a visitor ended, at a place of the list. -/
structure WalkError (ε : Type) where
  index : NodeId
  kind : NodeKind
  cause : ε

/-- The text of a walk's failure. -/
def WalkError.message {ε : Type} (e : WalkError ε) : String :=
  "visitor failed on node #" ++ toString e.index ++ " (" ++ e.kind.label ++ ")"

/-- What a walk leaves. -/
structure Walked (σ ε : Type) where
  nodes : List Node
  state : σ
  outcome : Except (WalkError ε) Unit

namespace Walked

variable {σ ε : Type}

/-- The walk with a node before those it began at. -/
def cons (n : Node) (w : Walked σ ε) : Walked σ ε := { w with nodes := n :: w.nodes }

end Walked

variable {σ ε : Type}

/-- The walk is to visit the node. -/
def Node.isSelected (kind : Option NodeKind) (n : Node) : Bool := kind.all fun k => n.kind == k

/-- Visits nodes at once; the first has the place `index`. -/
def walkNodesNow (kind : Option NodeKind) (visit : Node → σ → Visit σ ε) :
    NodeId → List Node → σ → Walked σ ε
  | _, [], s => ⟨[], s, .ok ()⟩
  | index, n :: ns, s =>
    if n.isSelected kind then
      let v := visit n s
      let n := { n with metadata := v.metadata }
      match v.outcome with
      | .error e => ⟨n :: ns, v.state, .error ⟨index, n.kind, e⟩⟩
      | .ok () => (walkNodesNow kind visit (index + 1) ns v.state).cons n
    else (walkNodesNow kind visit (index + 1) ns s).cons n

/-- Visits nodes one after the other, each visit to its end; the first has the place `index`. -/
def walkNodes (kind : Option NodeKind) (visit : Node → σ → Deferred (Visit σ ε)) :
    NodeId → List Node → σ → Deferred (Walked σ ε)
  | _, [], s => .done ⟨[], s, .ok ()⟩
  | index, n :: ns, s =>
    if n.isSelected kind then
      (visit n s).bind fun v =>
        let n := { n with metadata := v.metadata }
        match v.outcome with
        | .error e => .done ⟨n :: ns, v.state, .error ⟨index, n.kind, e⟩⟩
        | .ok () =>
          (walkNodes kind visit (index + 1) ns v.state).bind fun w => .done (w.cons n)
    else (walkNodes kind visit (index + 1) ns s).bind fun w => .done (w.cons n)

namespace Document

/-- The document after a walk over it, with the visitor's state and the outcome. -/
def afterWalk (doc : Document) (w : Walked σ ε) : Document × σ × Except (WalkError ε) Unit :=
  ({ doc with nodes := w.nodes.toArray }, w.state, w.outcome)

/-- **Visits the nodes at once.** -/
def walkNow (doc : Document) (kind : Option NodeKind) (visit : Node → σ → Visit σ ε) (s : σ) :
    Document × σ × Except (WalkError ε) Unit :=
  doc.afterWalk (walkNodesNow kind visit 0 doc.nodes.toList s)

/-- **Visits the nodes with visits that may suspend.** -/
def walk (doc : Document) (kind : Option NodeKind) (visit : Node → σ → Deferred (Visit σ ε))
    (s : σ) : Deferred (Document × σ × Except (WalkError ε) Unit) :=
  (walkNodes kind visit 0 doc.nodes.toList s).bind fun w => .done (doc.afterWalk w)

end Document

end Markup
