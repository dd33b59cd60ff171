import Markup.Proofs.Blueprint.Cover
import Markup.Proofs.Construct.Sections
import Markup.Proofs.Source.Refusal

/-!
# Proofs/Blueprint/Construct — the blueprint of a construct covers it

A construct whose visited sections follow each other is **a row of blocks, one for each section and
one that closes it** (`ofConstruct_eq`): each header goes before its children, and the closing block
takes what is left.  A construct that has no branches is a fault and never built; it is refused at
its whole range (`Construct.located_of_branches`).
-/

namespace Markup

/-- **A construct without branches is refused at its range**, if that is one of the source. -/
theorem Construct.located_of_branches {α : Type} [Spanned α] {c : Construct α} {source : Source}
    {e : Error} (h : c.branches source = .error e)
    (hrange : Text.IsRange source.text c.span.start c.span.stop) : e.Located source := by
  obtain ⟨token, htoken⟩ := Source.exists_slice_of_isRange hrange
  rw [branches] at h
  split at h
  · cases h
  · rw [htoken] at h
    cases h
    exact Source.located_slice rfl htoken

/-- **A plan whose blueprint covers its range**, if that is one. -/
def Planned.Covers (p : Planned) : Prop :=
  p.span.start < p.span.stop → Blueprint.Covers p.span.start p.span.stop [p.blueprint]

namespace Blueprint

variable {source : Source} {start stop last : Nat}

/-- The blueprints of children in a row cover what these do. -/
theorem covers_children {children : List Planned} (h : Tiled start stop children)
    (hgood : ∀ p ∈ children, p.Covers) : Covers start stop (children.map Planned.blueprint) :=
  Covers.of_tiled h hgood

/-- The block of a section: its header, with its children inside. -/
def ofSection (role : String) (s : Section Planned) : Blueprint :=
  .block {} ⟨s.span.start, s.headerEnd⟩ role (s.children.map Planned.blueprint)

/-- The block that closes a construct, if anything is left of it. -/
def closingBlock (name : String) (content stop : Nat) : List Blueprint :=
  if content < stop then [.block {} ⟨content, stop⟩ ("/" ++ name) []] else []

/-- It is that of the section's branch… -/
theorem ofBranch_ofSection (role : String) (s : Section Planned) :
    ofBranch (Branch.ofSection role s) = ofSection role s := by
  rw [ofBranch, Branch.flatten_groups_ofSection]
  rfl

/-- …and the closing block that of the closing branch. -/
theorem map_ofBranch_closing (name : String) (content stop : Nat) :
    (Branch.closing name content stop).map ofBranch = closingBlock name content stop := by
  rw [Branch.closing, closingBlock]
  split <;> rfl

/-- Blocks of sections that follow each other cover them. -/
theorem covers_sections {visits : List (String × Section Planned)}
    (h : Consecutive start stop (visits.map Prod.snd))
    (hgood : ∀ s ∈ visits.map Prod.snd, ∀ p ∈ s.children, p.Covers) :
    Covers start stop (visits.map fun visit => ofSection visit.1 visit.2) := by
  induction visits generalizing start with
  | nil =>
    obtain rfl : start = stop := h
    exact Covers.nil
  | cons visit visits ih =>
    rw [List.map_cons, List.forall_mem_cons] at hgood
    obtain ⟨rfl, hlt, mid, hchildren, hrest⟩ := h
    exact Covers.block hlt (covers_children hchildren hgood.1) (ih hrest hgood.2)

/-- **The blueprint of a construct** is a row of blocks if the sections that it visits follow each
other up to the end or to a closing tag that does not begin with a blank; or it has no branches. -/
theorem ofConstruct_eq {c : Construct Planned} {span : Span} {name : String} {content : Nat}
    {visits : List (String × Section Planned)} (hspan : c.span = span) (hname : c.name = name)
    (hrow : Consecutive span.start content (visits.map Prod.snd))
    (hvisits : ∀ ps last, Construct.pieces span.start c.visits = .ok (ps, last) →
      c.visits = visits) (hle : content ≤ span.stop)
    (hblank : ((Text.slice? content span.stop source.text).getD []).takeWhile Text.isBlank = []) :
    (∃ ps last, Construct.pieces span.start c.visits = .ok (ps, last) ∧
      ofConstruct source {} c = .group {} (some span)
        ((visits.map fun visit => ofSection visit.1 visit.2) ++
          closingBlock name content span.stop)) ∨
    ∃ e, c.branches source = .error e ∧
      ofConstruct source {} c = .group {} (some span) [.fault e] := by
  subst hspan hname
  rw [ofConstruct]
  cases hbranches : c.branches source with
  | error e => exact Or.inr ⟨e, rfl, rfl⟩
  | ok row =>
    obtain ⟨opened, cursor, closed, hopened, -, -⟩ := Construct.branches_eq_ok hbranches
    refine Or.inl ⟨opened, cursor, hopened, ?_⟩
    rw [← hvisits _ _ hopened] at hrow ⊢
    rw [Construct.branches_of_consecutive hrow hle hblank] at hbranches
    cases hbranches
    simp only [List.map_append, List.map_map, Function.comp_def, ofBranch_ofSection,
      map_ofBranch_closing]
    rfl

end Blueprint

end Markup
