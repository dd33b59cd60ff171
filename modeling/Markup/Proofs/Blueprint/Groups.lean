import Markup.Html.Dialect
import Markup.Proofs.Blueprint.Branches

/-!
# Proofs/Blueprint/Groups — a construct is built group by group

A branch may own several groups of children.  Whether its block is built with all of them at once or
with the first, and then **one group after the other under the block that is there already**, comes
to the same (`Blueprint.raise_ofConstruct_iff`): what is built later neither sees nor changes which
children have been attached, so the row of a branch is all that counts, and there is only one
(`Row.unique`).  `Blueprint.blocks_of_raise` says what a construct becomes.
-/

namespace Markup

variable {d : Dialect} {source : Source}

/-! ## Rows are determined -/

theorem Closing.unique {here : Position} {ns : Namespace} {id next last : Nat} {tag : StartTag}
    {endTag : Option Span} {link link' : Option NodeId} {implied implied' : Bool}
    {closers closers' : List Node}
    (h : Closing d source here ns id next last tag endTag link implied closers)
    (h' : Closing d source here ns id next last tag endTag link' implied' closers') :
    link = link' ∧ implied = implied' ∧ closers = closers' := by
  cases h with
  | endTag slice =>
    cases h' with
    | endTag slice' =>
      obtain rfl := Except.ok.inj (slice.symm.trans slice')
      exact ⟨rfl, rfl, rfl⟩
  | ghost implied =>
    cases h' with
    | ghost => exact ⟨rfl, rfl, rfl⟩
    | nothing unimplied => exact absurd (implied.symm.trans unimplied) (by decide)
  | nothing unimplied =>
    cases h' with
    | ghost implied => exact absurd (implied.symm.trans unimplied) (by decide)
    | nothing => exact ⟨rfl, rfl, rfl⟩

namespace Trunk

variable {here : Position} {ns inside inside' : Namespace} {id : Nat} {inner inner' : List Node}
  {kids kids' : List NodeId} {b : Blueprint} {children children' : List Blueprint}
  {node node' : Node} {closers closers' : List Node}

/-- What is inside a trunk, and in which namespace, does not depend on what that becomes… -/
theorem content_unique
    (h : Trunk d source here ns id inner kids b children inside node closers)
    (h' : Trunk d source here ns id inner' kids' b children' inside' node' closers') :
    children = children' ∧ inside = inside' := by
  cases h with
  | block =>
    cases h'
    exact ⟨rfl, rfl⟩
  | element slice read =>
    cases h' with
    | element slice' read' =>
      obtain rfl := Except.ok.inj (slice.symm.trans slice')
      obtain rfl := Except.ok.inj (read.symm.trans read')
      exact ⟨rfl, rfl⟩

/-- …and given that, its own node and what closes it are determined. -/
theorem unique (h : Trunk d source here ns id inner kids b children inside node closers)
    (h' : Trunk d source here ns id inner kids b children' inside' node' closers') :
    node = node' ∧ closers = closers' := by
  cases h with
  | block slice =>
    cases h' with
    | block slice' =>
      obtain rfl := Except.ok.inj (slice.symm.trans slice')
      exact ⟨rfl, rfl⟩
  | element slice read closing =>
    cases h' with
    | element slice' read' closing' =>
      obtain rfl := Except.ok.inj (slice.symm.trans slice')
      obtain rfl := Except.ok.inj (read.symm.trans read')
      obtain ⟨rfl, rfl, rfl⟩ := closing.unique closing'
      exact ⟨rfl, rfl⟩

end Trunk

/-- **Blueprints become one row.** -/
theorem Row.unique {here : Position} {ns : Namespace} {start : Nat} {bs : List Blueprint}
    {nodes nodes' : List Node} {tops tops' : List NodeId}
    (h : Row d source here ns start bs nodes tops)
    (h' : Row d source here ns start bs nodes' tops') : nodes = nodes' ∧ tops = tops' := by
  induction h generalizing nodes' tops' with
  | nil =>
    cases h'
    exact ⟨rfl, rfl⟩
  | leaf slice rest ih =>
    cases h' with
    | leaf slice' rest' =>
      obtain rfl := Except.ok.inj (slice.symm.trans slice')
      obtain ⟨rfl, rfl⟩ := ih rest'
      exact ⟨rfl, rfl⟩
    | trunk grows => cases grows
  | trunk grows content rest ihContent ihRest =>
    cases h' with
    | leaf => cases grows
    | trunk grows' content' rest' =>
      obtain ⟨rfl, rfl⟩ := grows.content_unique grows'
      obtain ⟨rfl, rfl⟩ := ihContent content'
      obtain ⟨rfl, rfl⟩ := grows.unique grows'
      obtain ⟨rfl, rfl⟩ := ihRest rest'
      exact ⟨rfl, rfl⟩
    | group => cases grows
  | group content rest ihContent ihRest =>
    cases h' with
    | trunk grows => cases grows
    | group content' rest' =>
      obtain ⟨rfl, rfl⟩ := ihContent content'
      obtain ⟨rfl, rfl⟩ := ihRest rest'
      exact ⟨rfl, rfl⟩

/-! ## What a way of building does -/

namespace Blueprint

/-- **A way of building blueprints**: it succeeds exactly if they are buildable, and adds their
row. -/
structure Builds (d : Dialect) (source : Source) (bs : List Blueprint)
    (x : Position → Build (List NodeId)) : Prop where
  adds : Adds d source bs x
  succeeds : ∀ here a, (∃ r, x here a = .ok r) ↔ ∀ b ∈ bs, b.Buildable d source

namespace Builds

variable {bs cs : List Blueprint} {x y : Position → Build (List NodeId)}

/-- **Two ways of building the same come to the same.** -/
theorem eq_ok_iff (hx : Builds d source bs x) (hy : Builds d source bs y) {here : Position}
    {a : Arena} (hparent : ∀ p, here.parent = some p → p < a.size) {r : List NodeId × Arena} :
    x here a = .ok r ↔ y here a = .ok r := by
  suffices himp : ∀ {x y : Position → Build (List NodeId)}, Builds d source bs x →
      Builds d source bs y → x here a = .ok r → y here a = .ok r from ⟨himp hx hy, himp hy hx⟩
  intro x y hx hy hraise
  obtain ⟨tops, b⟩ := r
  obtain ⟨⟨ids, a'⟩, hother⟩ := (hy.succeeds here a).2 ((hx.succeeds here a).1 ⟨_, hraise⟩)
  obtain ⟨nodes, hnodes, hrow⟩ := hx.adds hparent hraise
  obtain ⟨others, hothers, hrow'⟩ := hy.adds hparent hother
  obtain ⟨rfl, rfl⟩ := hrow.unique hrow'
  obtain rfl := Array.toList_inj.1 (hnodes.trans hothers.symm)
  exact hother

/-- **Ways that follow each other** build all. -/
theorem append (hx : Builds d source bs x) (hy : Builds d source cs y) :
    Builds d source (bs ++ cs) fun here => do
      let ids ← x here
      return ids ++ (← y here) where
  adds := hx.adds.append hy.adds
  succeeds := fun here a => by
    rw [List.forall_mem_append, ← hx.succeeds here a]
    constructor
    · rintro ⟨r, hr⟩
      simp only [Build.bind_eq_ok] at hr
      obtain ⟨ids, a₁, hids, others, a₂, hothers, -⟩ := hr
      exact ⟨⟨_, hids⟩, (hy.succeeds here a₁).1 ⟨_, hothers⟩⟩
    · rintro ⟨⟨⟨ids, a₁⟩, hids⟩, hcs⟩
      obtain ⟨⟨others, a₂⟩, hothers⟩ := (hy.succeeds here a₁).2 hcs
      exact ⟨_, Build.bind_eq_ok.2 ⟨ids, a₁, hids,
        Build.bind_eq_ok.2 ⟨others, a₂, hothers, rfl⟩⟩⟩

/-- Where there is nothing to build, nothing is done. -/
theorem nil : Builds d source [] fun _ => return [] where
  adds := by
    rintro here a a' ids - ⟨⟩
    exact ⟨[], (List.append_nil _).symm, .nil⟩
  succeeds := fun here a => ⟨fun _ => by simp, fun _ => ⟨_, rfl⟩⟩

/-- Blueprints in place are built as they are. -/
theorem raiseAll (h : ∀ b ∈ bs, InPlace b) :
    Builds d source bs fun here => Blueprint.raiseAll d source here bs where
  adds := adds_raiseAll fun b hb => adds_raise (h b hb)
  succeeds := fun here a => by
    constructor
    · rintro ⟨r, hr⟩
      exact buildable_of_raiseAll (fun b hb => buildable_of_raise (h b hb)) hr
    · exact fun hb => total_raiseAll (fun b hmem => total_raise (hb b hmem)) here a

end Builds

/-! ## Group by group -/

/-- **Builds groups of children under a node that is there already**, one after the other: those
that stand there are attached before the next group is begun, and others are moved to where the node
stands. -/
def raiseGroups (d : Dialect) (source : Source) (here inside : Position) :
    List (List Planned) → Build (List NodeId)
  | [] => return []
  | children :: groups => do
    let ids ← Blueprint.raiseAll d source inside (children.map Planned.blueprint)
    let displaced ← Build.settle inside ids
    Build.adopt here displaced
    return displaced ++ (← raiseGroups d source here inside groups)

/-- The block of a branch with its first group of children only. -/
def ofFirstGroup (b : Branch Planned) : Blueprint :=
  .block {} b.span b.role ((b.groups.head?.getD []).map Planned.blueprint)

/-- **Builds a branch** as a block with its first group of children, and then the other groups under
that. -/
def raiseBranch (d : Dialect) (source : Source) (here : Position) (b : Branch Planned) :
    Build (List NodeId) := do
  let ids ← Blueprint.raise d source here (ofFirstGroup b)
  match ids.head? with
  | none => return ids
  | some owner => return ids ++ (← raiseGroups d source here (here.under owner) b.groups.tail)

/-- Builds branches side by side. -/
def raiseBranches (d : Dialect) (source : Source) (here : Position) :
    List (Branch Planned) → Build (List NodeId)
  | [] => return []
  | b :: bs => do
    let ids ← raiseBranch d source here b
    return ids ++ (← raiseBranches d source here bs)

/-- **Builds the branches of a construct**, after its orphans. -/
def raiseRow (d : Dialect) (source : Source) (here : Position) (row : Branches Planned) :
    Build (List NodeId) := do
  let ids ← Blueprint.raiseAll d source here (row.orphans.flatten.map Planned.blueprint)
  return ids ++ (← raiseBranches d source here row.branches)

/-- The namespace in a block that is there is that of the block. -/
theorem namespaceIn_block {here : Position} {token : Token} {ns : Namespace} {name : String}
    {kids : List NodeId} {a : Arena} {before inner : List Node}
    (ha : a.toList = before ++ here.node before.length token ns (.block name kids) :: inner) :
    a.namespaceIn (some before.length) = ns := by
  have hget : a[before.length]? = some (here.node before.length token ns (.block name kids)) := by
    rw [← Array.getElem?_toList, ha]
    simp
  rw [Arena.namespaceIn, Option.bind_some, hget]
  rfl

/-- **Groups that are built under a block become one row**, all of whose nodes at the top are
attached to it. -/
theorem exists_of_raiseGroups {here : Position} {token : Token} {ns : Namespace} {name : String}
    {before : List Node} {groups : List (List Planned)}
    (hplace : ∀ x ∈ groups.flatten, x.blueprint.InPlace) {kids ids : List NodeId}
    {inner : List Node} {a a' : Arena}
    (ha : a.toList = before ++ here.node before.length token ns (.block name kids) :: inner)
    (hraise : raiseGroups d source here (here.under before.length) groups a = .ok (ids, a')) :
    ids = [] ∧ ∃ nodes more, Row d source (here.under before.length) ns a.size
      (groups.flatten.map Planned.blueprint) nodes more ∧
      a'.toList = before ++ here.node before.length token ns (.block name (kids ++ more)) ::
        (inner ++ nodes) := by
  induction groups generalizing kids ids inner a with
  | nil =>
    simp only [raiseGroups, Build.pure_eq_ok] at hraise
    obtain ⟨rfl, rfl⟩ := hraise
    exact ⟨rfl, [], [], .nil, by rw [List.append_nil, List.append_nil, ha]⟩
  | cons children groups ih =>
    rw [List.flatten_cons, List.forall_mem_append] at hplace
    simp only [raiseGroups, Build.bind_eq_ok, Build.adopt_eq_ok, Build.pure_eq_ok] at hraise
    obtain ⟨first, a₁, hfirst, displaced, a₂, hsettle, _, _, rfl, others, a₃, hothers, rfl, rfl⟩ :=
      hraise
    have hunder : ∀ p, (here.under before.length).parent = some p → p < a.size := by
      intro p hp
      obtain rfl := Option.some.inj hp
      rw [size_of_toList ha]
      exact Nat.lt_add_right _ (Nat.lt_succ_self _)
    obtain ⟨nodes, hnodes, hrow⟩ :=
      adds_raiseAll (fun b hb => adds_raise (List.forall_mem_map.2 hplace.1 b hb)) hunder hfirst
    rw [Build.settle, Arena.settle_of_standsAt (hrow.standsAt hnodes)] at hsettle
    obtain ⟨rfl, rfl⟩ : [] = displaced ∧ _ = a₂ := by simpa using hsettle
    have hsize : a₁.size = a.size + nodes.length := by
      rw [← Array.length_toList, hnodes, List.length_append, Array.length_toList]
    rw [ha, List.append_assoc, List.cons_append] at hnodes
    have hattached := Arena.toList_foldl_attach first hnodes
    rw [Node.foldl_addChild_block] at hattached
    obtain ⟨rfl, rest, more, hrest, hlast⟩ := ih hplace.2 hattached hothers
    have hfirstRow : Row d source (here.under before.length) ns a.size
        (children.map Planned.blueprint) nodes first := namespaceIn_block ha ▸ hrow
    refine ⟨rfl, nodes ++ rest, first ++ more, ?_, ?_⟩
    · rw [List.flatten_cons, List.map_append]
      refine hfirstRow.append ?_
      rwa [size_of_toList hattached, List.length_append, ← Nat.add_assoc, ← size_of_toList ha]
        at hrest
    · rw [hlast, List.append_assoc, List.append_assoc]

/-- Groups of buildable children are built… -/
theorem total_raiseGroups {here inside : Position} {groups : List (List Planned)}
    (h : ∀ x ∈ groups.flatten, x.blueprint.Buildable d source) :
    (raiseGroups d source here inside groups).Total := by
  induction groups with
  | nil => exact Build.total_pure []
  | cons children groups ih =>
    rw [List.flatten_cons, List.forall_mem_append] at h
    have hchildren := fun b hb => total_raise (List.forall_mem_map.2 h.1 b hb)
    rw [raiseGroups]
    refine (total_raiseAll hchildren inside).bind fun _ ids _ _ => ?_
    refine Build.Total.bind (fun a => ⟨_, rfl⟩) fun _ displaced _ _ => ?_
    refine Build.Total.bind (fun a => ⟨_, rfl⟩) fun _ _ _ _ => ?_
    exact (ih h.2).bind fun _ _ _ _ => Build.total_pure _

/-- …and those that are built are of such children. -/
theorem buildable_of_raiseGroups {here inside : Position} {groups : List (List Planned)}
    (hplace : ∀ x ∈ groups.flatten, x.blueprint.InPlace) {a : Arena} {r : List NodeId × Arena}
    (hraise : raiseGroups d source here inside groups a = .ok r) :
    ∀ x ∈ groups.flatten, x.blueprint.Buildable d source := by
  induction groups generalizing a r with
  | nil => simp
  | cons children groups ih =>
    rw [List.flatten_cons, List.forall_mem_append] at hplace ⊢
    simp only [raiseGroups, Build.bind_eq_ok] at hraise
    obtain ⟨first, a₁, hfirst, displaced, a₂, -, _, a₃, -, others, a₄, hothers, -⟩ := hraise
    have hbuilt := buildable_of_raiseAll
      (fun b hb => buildable_of_raise (List.forall_mem_map.2 hplace.1 b hb)) hfirst
    exact ⟨List.forall_mem_map.1 hbuilt, ih hplace.2 hothers⟩

theorem head_append_flatten_tail (groups : List (List Planned)) :
    groups.head?.getD [] ++ groups.tail.flatten = groups.flatten := by
  cases groups <;> rfl

/-- The children of a branch are those of its first group and those of the others. -/
theorem ofBranch_eq (b : Branch Planned) :
    ofBranch b = .block {} b.span b.role ((b.groups.head?.getD []).map Planned.blueprint ++
      b.groups.tail.flatten.map Planned.blueprint) := by
  rw [ofBranch, ← List.map_append, head_append_flatten_tail]

section Branch

variable {b : Branch Planned} (hfirst : (ofFirstGroup b).InPlace)
  (hothers : ∀ x ∈ b.groups.tail.flatten, x.blueprint.InPlace)

include hfirst hothers

/-- **A branch that is built group by group adds the row of its block**… -/
theorem adds_raiseBranch :
    Adds d source [ofBranch b] fun here => raiseBranch d source here b := by
  intro here a a' ids hparent hraise
  simp only [raiseBranch, Build.bind_eq_ok] at hraise
  obtain ⟨tops, a₁, htops, hraise⟩ := hraise
  obtain ⟨nodes, hnodes, hrow⟩ := adds_raise hfirst hparent htops
  obtain ⟨token, inner, kids, hslice, hinner, rfl, rfl⟩ := hrow.of_block
  simp only [List.head?_cons, Build.bind_eq_ok, Build.pure_eq_ok] at hraise
  obtain ⟨others, a₂, hgroups, rfl, rfl⟩ := hraise
  have hlength : a.toList.length = a.size := Array.length_toList
  have hbefore : a₁.toList = a.toList ++ here.node a.toList.length token
      (a.namespaceIn here.parent) (.block b.role kids) :: inner := hlength ▸ hnodes
  obtain ⟨rfl, more, moreKids, hmore, hlast⟩ :=
    exists_of_raiseGroups hothers hbefore (hlength ▸ hgroups)
  rw [size_of_toList hbefore, hlength] at hmore
  rw [hlength] at hlast
  refine ⟨_, hlast, ?_⟩
  rw [ofBranch_eq, List.append_nil]
  simpa using Row.trunk (.block hslice) (hinner.append hmore) .nil

/-- …and it is built exactly if that is buildable. -/
theorem exists_raiseBranch_iff (here : Position) (a : Arena) :
    (∃ r, raiseBranch d source here b a = .ok r) ↔ (ofBranch b).Buildable d source := by
  have hgroups : (ofBranch b).Buildable d source ↔ (ofFirstGroup b).Buildable d source ∧
      ∀ x ∈ b.groups.tail.flatten, x.blueprint.Buildable d source := by
    rw [ofBranch_eq, ofFirstGroup, buildable_block_iff, buildable_block_iff,
      List.forall_mem_append, List.forall_mem_map, List.forall_mem_map, and_assoc]
  rw [hgroups]
  constructor
  · rintro ⟨r, hr⟩
    simp only [raiseBranch, Build.bind_eq_ok] at hr
    obtain ⟨tops, a₁, htops, hr⟩ := hr
    obtain ⟨_, _, _, _, _, -, -, -, rfl, -⟩ := exists_of_raise_block htops
    simp only [List.head?_cons, Build.bind_eq_ok] at hr
    obtain ⟨others, a₂, hgroups, -⟩ := hr
    exact ⟨buildable_of_raise hfirst htops, buildable_of_raiseGroups hothers hgroups⟩
  · rintro ⟨hbuildable, hgroups⟩
    rw [raiseBranch]
    refine (total_raise hbuildable here).bind (fun _ ids _ _ => ?_) a
    split
    · exact Build.total_pure _
    · exact (total_raiseGroups hgroups).bind fun _ _ _ _ => Build.total_pure _

end Branch

/-- **Building branches group by group builds their blocks.** -/
theorem builds_raiseBranches {bs : List (Branch Planned)}
    (hplace : ∀ b ∈ bs, ∀ x ∈ b.groups.flatten, x.blueprint.InPlace) :
    Builds d source (bs.map ofBranch) fun here => raiseBranches d source here bs := by
  induction bs with
  | nil => exact .nil
  | cons b bs ih =>
    rw [List.forall_mem_cons] at hplace
    obtain ⟨hb, hbs⟩ := hplace
    rw [← head_append_flatten_tail, List.forall_mem_append] at hb
    have hfirst : InPlace (ofFirstGroup b) := .block _ _ (List.forall_mem_map.2 hb.1)
    have hbranch : Builds d source [ofBranch b] fun here => raiseBranch d source here b := by
      refine ⟨adds_raiseBranch hfirst hb.2, fun here a => ?_⟩
      rw [List.forall_mem_singleton]
      exact exists_raiseBranch_iff hfirst hb.2 here a
    exact hbranch.append (ih hbs)

variable {c : Construct Planned} {row : Branches Planned}

/-- **A construct is built branch by branch and group by group**, if its range is one of the
source. -/
theorem raise_ofConstruct_iff {here : Position} {a : Arena} {r : List NodeId × Arena}
    (hrow : c.branches source = .ok row)
    (hplace : ∀ visit ∈ c.visits, ∀ x ∈ visit.2.children, x.blueprint.InPlace)
    (hparent : ∀ p, here.parent = some p → p < a.size) :
    Blueprint.raise d source here (ofConstruct source {} c) a = .ok r ↔
      (∃ token, source.slice c.span = .ok token) ∧ raiseRow d source here row a = .ok r := by
  obtain ⟨horphans, hbranches⟩ := (Construct.forall_children_iff hrow).1 hplace
  have hbuilds : Builds d source _ fun here => raiseRow d source here row :=
    (Builds.raiseAll (List.forall_mem_map.2 horphans)).append (builds_raiseBranches hbranches)
  have hitems := List.forall_mem_append.2 ⟨List.forall_mem_map.2 horphans,
    List.forall_mem_map.2 fun b hb => InPlace.block b.span b.role
      (List.forall_mem_map.2 (hbranches b hb))⟩
  rw [hbuilds.eq_ok_iff (Builds.raiseAll hitems) hparent, ofConstruct_of_branches hrow]
  simp only [Blueprint.raise, Placement.resolve_default, Build.bind_eq_ok, Build.mapM_slice_eq_ok]
  constructor
  · rintro ⟨_, _, ⟨hslice, rfl⟩, hraise⟩
    obtain ⟨hnone, -⟩ | ⟨_, token, hspan, -, htoken⟩ := hslice
    · cases hnone
    · cases hspan
      exact ⟨⟨token, htoken⟩, hraise⟩
  · rintro ⟨⟨token, hslice⟩, hraise⟩
    exact ⟨some token, a, ⟨Or.inr ⟨_, token, rfl, rfl, hslice⟩, rfl⟩, hraise⟩

/-- **A construct with branches is built branch by branch and group by group**, and is exactly if
its children are and all ranges are ranges of the source.  This adds the rows of its orphans where
it stands, and then for each branch a block, directly followed by its children; and the children
that are built so are those of the visited sections, each once. -/
theorem blocks_of_raise {here : Position} {a : Arena} (hrow : c.branches source = .ok row)
    (hplace : ∀ visit ∈ c.visits, ∀ x ∈ visit.2.children, x.blueprint.InPlace)
    (hparent : ∀ p, here.parent = some p → p < a.size) :
    (∀ {r}, raise d source here (ofConstruct source {} c) a = .ok r ↔
      (∃ token, source.slice c.span = .ok token) ∧ raiseRow d source here row a = .ok r) ∧
    ((∃ r, raise d source here (ofConstruct source {} c) a = .ok r) ↔
      (∃ token, source.slice c.span = .ok token) ∧
      (∀ b ∈ row.branches, ∃ token, source.slice b.span = .ok token) ∧
      ∀ visit ∈ c.visits, ∀ x ∈ visit.2.children, x.blueprint.Buildable d source) ∧
    (∀ {ids a'}, raise d source here (ofConstruct source {} c) a = .ok (ids, a') →
      ∃ runs orphans blocks tops,
        Runs d source here (a.namespaceIn here.parent) a.size row.orphans.flatten runs orphans ∧
        Blocks d source here (a.namespaceIn here.parent) (a.size + runs.flatten.length)
          row.branches blocks tops ∧
        a'.toList = a.toList ++ runs.flatten ++ blocks ∧ ids = orphans ++ tops ∧
        ∀ id ∈ ids, a'.standsAt here id = true) ∧
    row.orphans.flatten ++ row.branches.flatMap (fun b => b.groups.flatten) =
      c.visits.flatMap fun visit => visit.2.children := by
  have hinPlace := inPlace_ofConstruct hrow hplace
  refine ⟨raise_ofConstruct_iff hrow hplace hparent, ?_, fun {ids a'} hraise => ?_,
    Construct.children_of_branches hrow⟩
  · rw [← buildable_ofConstruct_iff hrow]
    exact ⟨fun ⟨r, hr⟩ => buildable_of_raise hinPlace hr, fun h => total_raise h here a⟩
  · obtain ⟨nodes, hnodes, hbuilt⟩ := adds_raise hinPlace hparent hraise
    obtain ⟨runs, orphans, blocks, tops, hruns, hblocks, rfl, rfl⟩ := hbuilt.of_ofConstruct hrow
    exact ⟨runs, orphans, blocks, tops, hruns, hblocks, by rw [hnodes, List.append_assoc], rfl,
      hbuilt.standsAt hnodes⟩

/-- A piece of plain text. -/
def plainText (span : Span) : Planned := ⟨span, .leaf {} span .text⟩

/-- A conditional whose head has no header, so that its child is an orphan, and whose last
alternative has none either, so that its child goes to the branch before it. -/
def orphanedHead : Construct Planned :=
  .conditional ⟨⟨0, 6⟩, 0, [plainText ⟨0, 1⟩]⟩ [⟨⟨1, 5⟩, 4, [plainText ⟨4, 5⟩]⟩]
    (some ⟨⟨5, 6⟩, 5, [plainText ⟨5, 6⟩]⟩)

/-- Its text. -/
def orphanedText : Source := .ofString "a\x7b:\x7dbc"

theorem blocks_orphanedHead : ∃ ids nodes runs orphans blocks tops,
    raise Html.dialect orphanedText ⟨none, 0⟩ (ofConstruct orphanedText {} orphanedHead) #[] =
      .ok (ids, nodes) ∧
    Runs Html.dialect orphanedText ⟨none, 0⟩ .html 0 [plainText ⟨0, 1⟩] runs orphans ∧
    Blocks Html.dialect orphanedText ⟨none, 0⟩ .html runs.flatten.length
      [⟨"elseif", ⟨1, 4⟩, [[plainText ⟨4, 5⟩], [plainText ⟨5, 6⟩]]⟩] blocks tops ∧
    nodes.toList = runs.flatten ++ blocks ∧ ids = orphans ++ tops := by
  have hrow : orphanedHead.branches orphanedText = .ok
      ⟨[⟨"elseif", ⟨1, 4⟩, [[plainText ⟨4, 5⟩], [plainText ⟨5, 6⟩]]⟩], [[plainText ⟨0, 1⟩]]⟩ := rfl
  have hplace : ∀ visit ∈ orphanedHead.visits, ∀ x ∈ visit.2.children, x.blueprint.InPlace := by
    refine (Construct.forall_children_iff hrow).2 ⟨?_, ?_⟩
    · exact List.forall_mem_singleton.2 (.leaf _ _)
    · exact List.forall_mem_singleton.2
        (List.forall_mem_cons.2 ⟨.leaf _ _, List.forall_mem_singleton.2 (.leaf _ _)⟩)
  obtain ⟨-, -, hlayout, -⟩ := blocks_of_raise (d := Html.dialect) (a := #[]) hrow hplace
    (show ∀ p, (⟨none, 0⟩ : Position).parent = some p → p < 0 by simp)
  obtain ⟨⟨ids, nodes⟩, hraise⟩ := Except.exists_of_isOk
    (show (raise Html.dialect orphanedText ⟨none, 0⟩ (ofConstruct orphanedText {} orphanedHead)
      #[]).isOk = true by decide)
  obtain ⟨runs, orphans, blocks, tops, hruns, hblocks, hnodes, hids, -⟩ := hlayout hraise
  rw [Array.size_empty, Nat.zero_add] at hblocks
  exact ⟨ids, nodes, runs, orphans, blocks, tops, hraise, hruns, hblocks, by simpa using hnodes,
    hids⟩

end Blueprint

end Markup
