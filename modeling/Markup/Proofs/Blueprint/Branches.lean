import Markup.Proofs.Blueprint.Buildable
import Markup.Proofs.Construct.Tiling

/-!
# Proofs/Blueprint/Branches — the row of a construct

The row of a construct is that of its orphans, and then **for each branch a block, directly followed
by its children** in order, whichever group they are in (`Row.of_ofConstruct`).  Orphans first and
then branch by branch, the children are those of the sections that the construct visits, each once
(`Construct.children_of_branches`).  A construct is buildable if they are and its ranges are ranges
of the source (`Blueprint.buildable_ofConstruct_iff`), and what has been built was buildable.
-/

namespace Markup

open Blueprint (ofBranch ofConstruct raise raiseAll)

variable {d : Dialect} {source : Source}

/-- **Children that are built one after the other** at a position: the nodes that each becomes, and
which of them stand at the position itself. -/
inductive Runs (d : Dialect) (source : Source) (here : Position) (ns : Namespace) :
    Nat → List Planned → List (List Node) → List NodeId → Prop
  | nil {start : Nat} : Runs d source here ns start [] [] []
  | cons {start : Nat} {p : Planned} {ps : List Planned} {nodes : List Node}
      {runs : List (List Node)} {tops more : List NodeId}
      (first : Row d source here ns start [p.blueprint] nodes tops)
      (rest : Runs d source here ns (start + nodes.length) ps runs more) :
      Runs d source here ns start (p :: ps) (nodes :: runs) (tops ++ more)

/-- **Branches that are built one after the other** at a position: a block with the role of each,
over its range, which is directly followed by its children and lists those at the top of them. -/
inductive Blocks (d : Dialect) (source : Source) (here : Position) (ns : Namespace) :
    Nat → List (Branch Planned) → List Node → List NodeId → Prop
  | nil {start : Nat} : Blocks d source here ns start [] [] []
  | cons {start : Nat} {b : Branch Planned} {bs : List (Branch Planned)} {token : Token}
      {runs : List (List Node)} {nodes : List Node} {kids tops : List NodeId}
      (slice : source.slice b.span = .ok token)
      (children : Runs d source (here.under start) ns (start + 1) b.groups.flatten runs kids)
      (rest : Blocks d source here ns (start + 1 + runs.flatten.length) bs nodes tops) :
      Blocks d source here ns start (b :: bs)
        (here.node start token ns (.block b.role kids) :: (runs.flatten ++ nodes)) (start :: tops)

namespace Row

variable {here : Position} {ns : Namespace} {start : Nat} {nodes : List Node} {tops : List NodeId}

/-- **A row is cut between any two of its parts.** -/
theorem exists_of_append {bs cs : List Blueprint}
    (h : Row d source here ns start (bs ++ cs) nodes tops) :
    ∃ first firstTops rest restTops, Row d source here ns start bs first firstTops ∧
      Row d source here ns (start + first.length) cs rest restTops ∧
      nodes = first ++ rest ∧ tops = firstTops ++ restTops := by
  induction bs generalizing start nodes tops with
  | nil => exact ⟨[], [], nodes, tops, .nil, h, rfl, rfl⟩
  | cons b bs ih =>
    obtain ⟨first, firstTops, rest, restTops, hfirst, hrest, rfl, rfl⟩ := h.exists_of_cons
    obtain ⟨more, moreTops, last, lastTops, hmore, hlast, rfl, rfl⟩ := ih hrest
    refine ⟨first ++ more, firstTops ++ moreTops, last, lastTops, hfirst.append hmore, ?_, ?_, ?_⟩
    · rwa [List.length_append, ← Nat.add_assoc]
    · rw [List.append_assoc]
    · rw [List.append_assoc]

/-- A block is its node and the row of its children. -/
theorem of_block {span : Span} {name : String} {children : List Blueprint}
    (h : Row d source here ns start [.block {} span name children] nodes tops) :
    ∃ token inner kids, source.slice span = .ok token ∧
      Row d source (here.under start) ns (start + 1) children inner kids ∧
      nodes = here.node start token ns (.block name kids) :: inner ∧ tops = [start] := by
  cases h with
  | trunk grows content rest =>
    cases grows with
    | block slice =>
      cases rest
      exact ⟨_, _, _, slice, content, by simp, rfl⟩

/-- **The row of planned children is the runs of each.** -/
theorem runs {ps : List Planned}
    (h : Row d source here ns start (ps.map Planned.blueprint) nodes tops) :
    ∃ runs, Runs d source here ns start ps runs tops ∧ nodes = runs.flatten := by
  induction ps generalizing start nodes tops with
  | nil =>
    cases h
    exact ⟨[], .nil, rfl⟩
  | cons p ps ih =>
    obtain ⟨first, firstTops, rest, restTops, hfirst, hrest, rfl, rfl⟩ := h.exists_of_cons
    obtain ⟨runs, hruns, rfl⟩ := ih hrest
    exact ⟨first :: runs, .cons hfirst hruns, rfl⟩

/-- **The row of branches is their blocks.** -/
theorem blocks {bs : List (Branch Planned)}
    (h : Row d source here ns start (bs.map ofBranch) nodes tops) :
    Blocks d source here ns start bs nodes tops := by
  induction bs generalizing start nodes tops with
  | nil =>
    cases h
    exact .nil
  | cons b bs ih =>
    obtain ⟨first, firstTops, rest, restTops, hfirst, hrest, rfl, rfl⟩ := h.exists_of_cons
    obtain ⟨token, inner, kids, hslice, hinner, rfl, rfl⟩ := hfirst.of_block
    obtain ⟨runs, hruns, rfl⟩ := hinner.runs
    rw [List.length_cons, Nat.add_comm _ 1, ← Nat.add_assoc] at hrest
    exact .cons hslice hruns (ih hrest)

end Row

namespace Blueprint

/-! ## What is built is buildable -/

theorem buildable_of_raiseAll {here : Position} {bs : List Blueprint}
    (h : ∀ b ∈ bs, ∀ {a r}, raise d source here b a = .ok r → b.Buildable d source) {a : Arena}
    {r : List NodeId × Arena} (hraise : raiseAll d source here bs a = .ok r) :
    ∀ b ∈ bs, b.Buildable d source := by
  induction bs generalizing a r with
  | nil => simp
  | cons b bs ih =>
    rw [List.forall_mem_cons] at h ⊢
    simp only [raiseAll, Build.bind_eq_ok] at hraise
    obtain ⟨first, a₁, hfirst, rest, a₂, hrest, -⟩ := hraise
    exact ⟨h.1 hfirst, ih h.2 hrest⟩

/-- **What has been built anywhere is buildable**, and so is built wherever it stands. -/
theorem buildable_of_raise {b : Blueprint} (h : InPlace b) :
    ∀ {here : Position} {a : Arena} {r : List NodeId × Arena},
      raise d source here b a = .ok r → b.Buildable d source := by
  induction h with
  | leaf span kind =>
    intro here a r hraise
    simp only [raise, Build.bind_eq_ok, Build.slice_eq_ok] at hraise
    obtain ⟨token, _, ⟨hslice, -⟩, -⟩ := hraise
    exact .leaf hslice
  | block span name _ ih =>
    intro here a r hraise
    obtain ⟨token, kids, a₁, displaced, a₂, hslice, hkids, -⟩ := exists_of_raise_block hraise
    exact .block hslice (buildable_of_raiseAll (fun b hb => ih b hb) hkids)
  | element startTag endTag _ ih =>
    intro here a r hraise
    obtain ⟨token, tag, hslice, hread, kids, a₁, displaced, a₂, closer, u, a₃, hkids, -,
      hcloser, -⟩ := exists_of_raise_element hraise
    refine .element hslice hread (buildable_of_raiseAll (fun b hb => ih b hb) hkids) ?_
    rintro span rfl
    obtain ⟨hnone, -⟩ | ⟨_, t, hspan, -, ht⟩ := hcloser
    · cases hnone
    · cases hspan
      exact ⟨t, ht⟩
  | group span _ ih =>
    intro here a r hraise
    simp only [raise, Placement.resolve_default, Build.bind_eq_ok, Build.mapM_slice_eq_ok] at hraise
    obtain ⟨_, _, ⟨hspan, -⟩, hitems⟩ := hraise
    refine .group ?_ (buildable_of_raiseAll (fun b hb => ih b hb) hitems)
    rintro s rfl
    obtain ⟨hnone, -⟩ | ⟨_, t, hspan, -, ht⟩ := hspan
    · cases hnone
    · cases hspan
      exact ⟨t, ht⟩
  | fault error =>
    intro here a r hraise
    rw [raise] at hraise
    cases hraise

/-- A block is buildable if its range is one of the source and its children are… -/
theorem buildable_block_iff {placement : Placement} {span : Span} {name : String}
    {children : List Blueprint} :
    Buildable d source (.block placement span name children) ↔
      (∃ token, source.slice span = .ok token) ∧ ∀ b ∈ children, b.Buildable d source := by
  constructor
  · intro h
    cases h with
    | block slice inside => exact ⟨⟨_, slice⟩, inside⟩
  · rintro ⟨⟨token, hslice⟩, hinside⟩
    exact .block hslice hinside

/-- …and so is a group with a range. -/
theorem buildable_group_iff {placement : Placement} {span : Span} {items : List Blueprint} :
    Buildable d source (.group placement (some span) items) ↔
      (∃ token, source.slice span = .ok token) ∧ ∀ b ∈ items, b.Buildable d source := by
  constructor
  · intro h
    cases h with
    | group slice inside => exact ⟨slice span rfl, inside⟩
  · rintro ⟨hslice, hinside⟩
    refine .group ?_ hinside
    rintro _ ⟨⟩
    exact hslice

end Blueprint

namespace Construct

variable {c : Construct Planned} {row : Branches Planned}

/-- **Orphans first and then branch by branch, the children are those of the visited sections**,
each once and in order. -/
theorem children_of_branches (h : c.branches source = .ok row) :
    row.orphans.flatten ++ row.branches.flatMap (fun b => b.groups.flatten) =
      c.visits.flatMap fun visit => visit.2.children := by
  have hgroups := congrArg List.flatten (tile_of_branches h).groups_eq
  rw [List.flatten_append, List.flatten_filter_not_isEmpty] at hgroups
  simpa [List.flatMap, List.flatten_flatten, Function.comp_def] using hgroups

/-- A child of a branch or an orphan is a child of a visited section, and the other way round. -/
theorem forall_children_iff (h : c.branches source = .ok row) {p : Planned → Prop} :
    (∀ visit ∈ c.visits, ∀ x ∈ visit.2.children, p x) ↔
      (∀ x ∈ row.orphans.flatten, p x) ∧ ∀ b ∈ row.branches, ∀ x ∈ b.groups.flatten, p x := by
  have hchildren := children_of_branches h
  rw [← List.forall_mem_flatMap, ← hchildren, List.forall_mem_append, List.forall_mem_flatMap]

end Construct

namespace Blueprint

variable {c : Construct Planned} {row : Branches Planned}

theorem ofConstruct_of_branches (h : c.branches source = .ok row) :
    ofConstruct source {} c = .group {} (some c.span)
      (row.orphans.flatten.map Planned.blueprint ++ row.branches.map ofBranch) := by
  rw [ofConstruct, h]

/-- A construct stays where it is if its children do… -/
theorem inPlace_ofConstruct (h : c.branches source = .ok row)
    (hplace : ∀ visit ∈ c.visits, ∀ x ∈ visit.2.children, x.blueprint.InPlace) :
    (ofConstruct source {} c).InPlace := by
  obtain ⟨horphans, hbranches⟩ := (Construct.forall_children_iff h).1 hplace
  rw [ofConstruct_of_branches h]
  refine .group _ (List.forall_mem_append.2 ⟨List.forall_mem_map.2 horphans,
    List.forall_mem_map.2 fun b hb => ?_⟩)
  exact .block _ _ (List.forall_mem_map.2 (hbranches b hb))

/-- …and is buildable if they are, and all ranges are ranges of the source. -/
theorem buildable_ofConstruct_iff (h : c.branches source = .ok row) :
    (ofConstruct source {} c).Buildable d source ↔
      (∃ token, source.slice c.span = .ok token) ∧
      (∀ b ∈ row.branches, ∃ token, source.slice b.span = .ok token) ∧
      ∀ visit ∈ c.visits, ∀ x ∈ visit.2.children, x.blueprint.Buildable d source := by
  rw [ofConstruct_of_branches h, buildable_group_iff, List.forall_mem_append, List.forall_mem_map,
    List.forall_mem_map, Construct.forall_children_iff h]
  simp only [ofBranch, buildable_block_iff, List.forall_mem_map]
  constructor
  · rintro ⟨hslice, horphans, hbranches⟩
    exact ⟨hslice, fun b hb => (hbranches b hb).1, horphans, fun b hb => (hbranches b hb).2⟩
  · rintro ⟨hslice, hbranches, horphans, hchildren⟩
    exact ⟨hslice, horphans, fun b hb => ⟨hbranches b hb, hchildren b hb⟩⟩

end Blueprint

/-- **The row of a construct is the runs of its orphans and the blocks of its branches**, wherever
it stands, and so at any depth of a construct around it. -/
theorem Row.of_ofConstruct {c : Construct Planned} {row : Branches Planned} {here : Position}
    {ns : Namespace} {start : Nat} {nodes : List Node} {tops : List NodeId}
    (hrow : c.branches source = .ok row)
    (h : Row d source here ns start [ofConstruct source {} c] nodes tops) :
    ∃ runs orphans blocks more, Runs d source here ns start row.orphans.flatten runs orphans ∧
      Blocks d source here ns (start + runs.flatten.length) row.branches blocks more ∧
      nodes = runs.flatten ++ blocks ∧ tops = orphans ++ more := by
  rw [Blueprint.ofConstruct_of_branches hrow] at h
  obtain ⟨first, orphans, blocks, more, hfirst, hblocks, rfl, rfl⟩ := h.of_group.exists_of_append
  obtain ⟨runs, hruns, rfl⟩ := hfirst.runs
  exact ⟨runs, orphans, blocks, more, hruns, hblocks.blocks, rfl, rfl⟩

end Markup
