import Markup.Proofs.Construct.Visits
import Markup.Proofs.Svelte.Element

/-!
# Proofs/Svelte/Links — blocks as a tree that links their clauses

The clauses of a block stand in one row.  A tree that links them instead hangs the alternatives of a
conditional **one behind the other**, where a further conditional is at once an alternative and what
goes on from it, and keeps the clauses of other blocks as named phases (`Block.linked`).  Its links
are followed to the same construct (`Block.construct?_linked`), so **the sections of a block are
visited as if they were linked** (`visits_of_within`).
-/

namespace Markup.Svelte

variable {α : Type}

/-- **The alternatives behind a section**, each linked to the next.  One that is under a condition
is itself the conditional that goes on; the last has none behind it. -/
def linkedAlternatives : List (String × Section α) → Option (Flow α)
  | [] => none
  | (name, content) :: clauses =>
    let behind := linkedAlternatives clauses
    let self := if name = "elseif" then some (.node content none behind none []) else none
    some (.node content none behind self [])

/-- **The node of a block, linked to its clauses.** -/
def Block.linked (kind : Block) (head : Section α) (clauses : List (String × Section α)) :
    Flow α :=
  match kind with
  | .cond => .node head (some .conditional) (linkedAlternatives clauses) none []
  | _ => .node head (some (.phased kind.word kind.phases)) none none
      (clauses.map fun clause => (clause.1, .node clause.2 none none none []))

/-- The linked node of a tree that is a construct. -/
def Tree.linked? : Tree → Option (Flow Tree)
  | .special tag content =>
    some (.node content (some (.phased tag.word Construct.singlePhase)) none none [])
  | .block kind head clauses => some (kind.linked head clauses)
  | _ => none

/-! ## Following the links -/

/-- **The links of a conditional are followed to its alternatives in order.** -/
theorem chain_linkedAlternatives {elseIfs last : List (String × Section α)}
    (hall : ∀ name ∈ elseIfs.map Prod.fst, name = "elseif")
    (hlast : last = [] ∨ ∃ s, last = [("else", s)]) (content : Section α)
    (kind : Option FlowKind) (elseIf : Option (Flow α)) :
    Flow.Chain (.node content kind (linkedAlternatives (elseIfs ++ last)) elseIf [])
      (elseIfs.map Prod.snd) (last.head?.map Prod.snd) := by
  induction elseIfs generalizing content kind elseIf with
  | nil =>
    rcases hlast with rfl | ⟨s, rfl⟩
    · exact .done
    · exact .otherwise
  | cons clause elseIfs ih =>
    obtain ⟨name, s⟩ := clause
    rw [List.map_cons, List.forall_mem_cons] at hall
    obtain ⟨rfl, hall⟩ := hall
    exact .elseIf (ih hall s none none)

/-- A phase is found by its name. -/
theorem phase?_linked {kind : Option FlowKind} {alternate elseIf : Option (Flow α)} (name : String)
    (head : Section α) (clauses : List (String × Section α)) :
    Flow.phase? name (.node head kind alternate elseIf
      (clauses.map fun clause => (clause.1, .node clause.2 none none none []))) =
      (clausesNamed name clauses).head? := by
  induction clauses with
  | nil => rfl
  | cons clause clauses ih =>
    rw [clausesNamed_cons]
    by_cases h : clause.1 = name
    · simp [Flow.phase?, h, Flow.content]
    · simpa [Flow.phase?, h] using ih

namespace Block

/-- **The linked node of a block is the construct that its clauses are.** -/
theorem construct?_linked {kind : Block} {head : Section α} {clauses : List (String × Section α)}
    (h : Admitted kind (clauses.map Prod.fst).reverse) :
    (kind.linked head clauses).construct? = some (kind.construct head clauses) := by
  match kind with
  | .cond =>
    obtain ⟨elseIfs, last, rfl, hall, hlast⟩ := h.exists_elseIfs
    have hchain := chain_linkedAlternatives hall hlast head (some .conditional) none
    rw [construct_cond hall hlast, linked, Flow.construct?_of_conditional rfl,
      hchain.alternatives_eq]
    rfl
  | .each | .await _ | .key | .snippet =>
    refine (Flow.construct?_of_phased rfl).trans (congrArg some ?_)
    simp only [linked, phase?_linked]
    rfl

end Block

/-- …and so is that of a special tag. -/
theorem Tree.construct?_linked {text : List Char} {t : Tree} (h : t.WellFormed text) :
    t.linked?.bind Flow.construct? = t.construct? := by
  cases h with
  | special written => rfl
  | block opens row inside written closes closer =>
    refine Block.construct?_linked ?_
    rw [← List.map_reverse]
    exact written.admitted
  | _ => rfl

/-- **The constructs of a template visit the sections that their links lead to**, by the same names
and in the same order, at any depth. -/
theorem visits_of_within {text : List Char} {trees : List Tree}
    (htrees : Tree.ofText config text = .ok trees) {t : Tree} (ht : Within trees t) {n : Flow Tree}
    (hlinked : t.linked? = some n) (name : String) (visited : List (String × Section Tree)) :
    n.Visits name visited ↔
      ∃ c, t.construct? = some c ∧ c.name = name ∧ c.visits = visited := by
  have hgood := (Tree.forest_of_ofText htrees).all
  rw [Flow.visits_iff, ← Tree.construct?_linked (ht.wellFormed hgood), hlinked, Option.bind_some]

end Markup.Svelte
