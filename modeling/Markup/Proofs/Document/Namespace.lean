import Markup.Html.Tag
import Markup.Proofs.Document.Nesting

/-!
# Proofs/Document/Namespace — namespaces are inherited along the path of enclosing nodes

The namespace of a node is fixed when it is built, from its parent alone.  `Namespaced` says it of
whole paths instead: `inherited` folds the nodes **around** a place, from the root down, and every
node has what this gives for its path.  A row carries the path of its position
(`Row.standing_of_mem`), each node with children adds itself to it, and the paths of a numbered list
are unique, so there is one namespace to inherit at every place.

A stray end tag hangs from nothing, so its place is read off the depths: it stands in the node that
is one level up and **has nothing as high behind it**.
-/

namespace Markup

/-! ## The law -/

namespace Namespace

/-- **The namespace of an element, by law**: in HTML, two names lead into another. -/
def entered (name : String) (inherited : Namespace) : Namespace :=
  if inherited = .html ∧ Html.lowerName name = "svg" then .svg
  else if inherited = .html ∧ Html.lowerName name = "math" then .mathMl
  else inherited

/-- **The namespace inside an element, by law**: in SVG, one name leads back. -/
def content (name : String) (own : Namespace) : Namespace :=
  if own = .svg ∧ Html.lowerName name = "foreignobject" then .html else own

theorem isNamed_iff {name expected : String} (h : Html.lowerName expected = expected) :
    isNamed name expected = true ↔ Html.lowerName name = expected := by
  rw [isNamed, Text.equalIgnoreCase, beq_iff_eq, ← String.ofList_inj]
  exact iff_of_eq (congrArg (Html.lowerName name = ·) h)

/-- The namespace that an element is given is the one by law… -/
theorem ofElement_eq_entered (name : String) (inherited : Namespace) :
    ofElement name inherited = inherited.entered name := by
  cases inherited <;>
    simp [ofElement, entered, isNamed_iff (show Html.lowerName "svg" = "svg" by decide),
      isNamed_iff (show Html.lowerName "math" = "math" by decide)]

/-- …and so is the one that its children are. -/
theorem forChildren_eq_content (name : String) (own : Namespace) :
    forChildren name own = own.content name := by
  have hname : Html.lowerName "foreignobject" = "foreignobject" := by decide
  cases own <;> simp [forChildren, content, isNamed_iff hname]

end Namespace

/-- **The path of enclosing nodes** from a parent on, the innermost first. -/
inductive Around (nodes : List Node) : Option NodeId → List Node → Prop
  | top : Around nodes none []
  | under {p : Node} {path : List Node} (mem : p ∈ nodes) (branching : p.isBranching = true)
      (above : Around nodes p.parent path) : Around nodes (some p.id) (p :: path)

/-- **The namespace to inherit inside a path**, starting from HTML. -/
def inherited : List Node → Namespace
  | [] => .html
  | p :: path =>
    match p.data with
    | .element e => ((inherited path).entered e.name).content e.name
    | _ => inherited path

/-- **A namespace is what is inherited at a place**, along the path around it. -/
def InheritedAt (nodes : List Node) (place : Option NodeId) (ns : Namespace) : Prop :=
  (∃ path, Around nodes place path) ∧ ∀ path, Around nodes place path → inherited path = ns

/-- **The place of a stray end tag**, by the depths: inside the node one level up that nothing as
high follows before it. -/
inductive StrayPlace (nodes : List Node) (depth : Nat) (n : Node) : Option NodeId → Prop
  | top (depth_eq : n.depth = depth) : StrayPlace nodes depth n none
  | inside {p : Node} (mem : p ∈ nodes) (branching : p.isBranching = true) (lt : p.id < n.id)
      (depth_eq : n.depth = p.depth + 1)
      (between : ∀ m ∈ nodes, p.id < m.id → m.id < n.id → n.depth ≤ m.depth) :
      StrayPlace nodes depth n (some p.id)

/-- **The element that a ghost closes**: its close is implied, it has the ghost's name and stands
beside it, and what is between the two hangs from it. -/
structure GhostOf (nodes : List Node) (n ghost : Node) : Prop where
  mem : n ∈ nodes
  implied : n.isImpliedClose = true
  name : ghost.name = n.name
  parent : ghost.parent = n.parent
  encloses : Encloses nodes n.id ghost.id

/-- **A list of nodes whose namespaces are inherited exactly**, with roots of the given depth. -/
structure Namespaced (nodes : List Node) (depth : Nat) : Prop where
  /-- Texts, comments and blocks are in the namespace that they inherit… -/
  content : ∀ n ∈ nodes, n.kind = .text ∨ n.kind = .comment ∨ n.kind = .block →
    InheritedAt nodes n.parent n.ns
  /-- …and elements too, if their name does not lead into another. -/
  element : ∀ n ∈ nodes, ∀ e, n.data = .element e →
    ∃ ns, InheritedAt nodes n.parent ns ∧ n.ns = ns.entered e.name
  /-- End tags that close something are in the namespace of their elements… -/
  endTag : ∀ n ∈ nodes, ∀ id, n.pair? = some id →
    ∃ m e, nodes[id]? = some m ∧ m.data = .element e ∧ n.ns = m.ns
  /-- …as ghosts are. -/
  ghost : ∀ g ∈ nodes, g.isGhost = true →
    (∃ m, GhostOf nodes m g) ∧ ∀ m, GhostOf nodes m g → g.ns = m.ns
  /-- Stray end tags are in the namespace that is inherited where they stand. -/
  stray : ∀ n ∈ nodes, n.isStray = true → (∃ place, StrayPlace nodes depth n place) ∧
    ∀ place, StrayPlace nodes depth n place → InheritedAt nodes place n.ns

/-! ## Paths -/

section Paths

variable {nodes : List Node} {place : Option NodeId} {path other : List Node} {ns : Namespace}

/-- **One path leads to a place** in a numbered list. -/
theorem Around.unique (hall : Numbered nodes) (h : Around nodes place path)
    (h' : Around nodes place other) : path = other := by
  induction h generalizing other with
  | top =>
    cases h'
    rfl
  | @under p path mem _ _ ih =>
    generalize hplace : some p.id = place at h'
    cases h' with
    | top => exact absurd hplace (by simp)
    | under mem' _ above =>
      obtain rfl := hall.eq_of_id mem mem' (Option.some.inj hplace)
      rw [ih above]

/-- …so what one gives is inherited there. -/
theorem InheritedAt.of_around (hall : Numbered nodes) (h : Around nodes place path) :
    InheritedAt nodes place (inherited path) :=
  ⟨⟨path, h⟩, fun _ h' => congrArg inherited (h'.unique hall h)⟩

/-- **What is inherited inside a node** is what it makes of what is inherited around it. -/
theorem InheritedAt.under {p : Node} {inside : Namespace} (hall : Numbered nodes) (hp : p ∈ nodes)
    (hbranching : p.isBranching = true) (h : InheritedAt nodes p.parent ns)
    (hinside : ∀ path, inherited path = ns → inherited (p :: path) = inside) :
    InheritedAt nodes (some p.id) inside := by
  obtain ⟨⟨path, haround⟩, hns⟩ := h
  exact hinside path (hns path haround) ▸ .of_around hall (.under hp hbranching haround)

end Paths

/-! ## Rows -/

variable {d : Dialect} {source : Source} {here : Position} {ns inside : Namespace} {start : Nat}
  {bs : List Blueprint} {nodes all : List Node} {tops : List NodeId} {depth : Nat}

/-- **The nodes of a row are not above it.** -/
theorem Row.depth_le (h : Row d source here ns start bs nodes tops) :
    ∀ n ∈ nodes, here.depth ≤ n.depth := by
  induction h with
  | nil => simp
  | @leaf here ns start _ token kind _ _ _ _ _ ih =>
    refine List.forall_mem_cons.2 ⟨?_, ih⟩
    cases kind <;> exact Nat.le_refl _
  | trunk grows _ _ ihContent ih =>
    rw [List.forall_mem_cons, List.forall_mem_append, List.forall_mem_append]
    refine ⟨Nat.le_of_eq grows.place.2.symm, ⟨fun n hn => ?_, fun n hn => ?_⟩, ih⟩
    · exact Nat.le_of_succ_le (ihContent n hn)
    · exact Nat.le_of_eq (grows.closers_place n hn).2.2.1.symm
  | group _ _ ihContent ih => exact List.forall_mem_append.2 ⟨ihContent, ih⟩

/-- A node of a numbered list that has a place of a row is in the row. -/
theorem Row.mem_of_id (h : Row d source here ns start bs nodes tops) (hall : Numbered all)
    (hsub : nodes ⊆ all) {n : Node} (hn : n ∈ all) (hlow : start ≤ n.id)
    (hhigh : n.id < start + nodes.length) : n ∈ nodes := by
  have hmem : n.id ∈ nodes.map Node.id := by
    rw [h.map_id, List.mem_range'_1]
    exact ⟨hlow, hhigh⟩
  obtain ⟨m, hm, hid⟩ := List.mem_map.1 hmem
  rwa [hall.eq_of_id hn (hsub hm) hid.symm]

/-- **A position is open at a place of the list**: it is at the top, or inside a node before the
place that nothing as high follows. -/
def Position.OpenAt (all : List Node) (depth : Nat) (here : Position) (start : Nat) : Prop :=
  here.parent = none ∧ here.depth = depth ∨
    ∃ p ∈ all, here.parent = some p.id ∧ p.isBranching = true ∧ p.id < start ∧
      here.depth = p.depth + 1 ∧ ∀ m ∈ all, p.id < m.id → m.id < start → here.depth ≤ m.depth

namespace Position.OpenAt

/-- **A row leaves its position open**… -/
theorem row (h : here.OpenAt all depth start) (hrow : Row d source here ns start bs nodes tops)
    (hall : Numbered all) (hsub : nodes ⊆ all) : here.OpenAt all depth (start + nodes.length) := by
  refine h.imp_right ?_
  rintro ⟨p, hp, hparent, hbranching, hlt, hdepth, hbetween⟩
  refine ⟨p, hp, hparent, hbranching, Nat.lt_add_right _ hlt, hdepth, fun m hm hlow hhigh => ?_⟩
  rcases Nat.lt_or_ge m.id start with hbefore | hin
  · exact hbetween m hm hlow hbefore
  · exact hrow.depth_le m (hrow.mem_of_id hall hsub hm hin hhigh)

/-- …and a node with children opens another. -/
theorem under {node : Node} (hmem : node ∈ all) (hid : node.id = start)
    (hbranching : node.isBranching = true) (hdepth : node.depth = here.depth) :
    (here.under start).OpenAt all depth (start + 1) := by
  refine Or.inr ⟨node, hmem, by rw [hid]; rfl, hbranching, hid ▸ Nat.lt_succ_self _, by
    rw [hdepth]; rfl, fun m _ hlow hhigh => ?_⟩
  exact absurd (hid ▸ hlow) (Nat.not_lt.2 (Nat.le_of_lt_succ hhigh))

/-- **A stray end tag at an open position is placed there.** -/
theorem strayPlace {n : Node} (h : here.OpenAt all depth n.id) (hdepth : n.depth = here.depth) :
    StrayPlace all depth n here.parent := by
  rcases h with ⟨hparent, htop⟩ | ⟨p, hp, hparent, hbranching, hlt, hin, hbetween⟩
  · rw [hparent]
    exact .top (hdepth.trans htop)
  · rw [hparent]
    exact .inside hp hbranching hlt (hdepth.trans hin) (hdepth ▸ hbetween)

end Position.OpenAt

/-- **A stray end tag has one place**, if no node is above the top. -/
theorem StrayPlace.unique {n : Node} {place other : Option NodeId}
    (hdepth : ∀ m ∈ all, depth ≤ m.depth) (h : StrayPlace all depth n place)
    (h' : StrayPlace all depth n other) : place = other := by
  have hnot : ∀ {p : Node}, p ∈ all → n.depth = p.depth + 1 → n.depth ≠ depth := by
    intro p hp hin htop
    have hle := hdepth p hp
    omega
  cases h with
  | top htop =>
    cases h' with
    | top => rfl
    | inside mem _ _ hin => exact absurd htop (hnot mem hin)
  | @inside p hp _ hlt hin hbetween =>
    cases h' with
    | top htop => exact absurd htop (hnot hp hin)
    | @inside q hq _ hlt' hin' hbetween' =>
      rcases Nat.lt_trichotomy p.id q.id with hbefore | heq | hafter
      · have hle := hbetween q hq hbefore hlt'
        omega
      · rw [heq]
      · have hle := hbetween' p hp hafter hlt
        omega

/-- **What a node of a row is**, at its position: a leaf where it is open, a node with children, or
what closes one that is there too. -/
inductive Node.Standing (d : Dialect) (source : Source) (all : List Node) (depth : Nat)
    (here : Position) (ns : Namespace) (n : Node) : Prop
  | leaf {kind : Leaf} {id : NodeId} {token : Token} (eq : n = kind.node here ns id token)
      (opened : here.OpenAt all depth n.id)
  | trunk {inside : Namespace} {id : Nat} {inner closers : List Node} {kids : List NodeId}
      {b : Blueprint} {children : List Blueprint}
      (grows : Trunk d source here ns id inner kids b children inside n closers)
  | closer {inside : Namespace} {id : Nat} {inner closers : List Node} {kids : List NodeId}
      {b : Blueprint} {children : List Blueprint} {node : Node} (mem : node ∈ all)
      (grows : Trunk d source here ns id inner kids b children inside node closers)
      (closes : n ∈ closers)

/-- **What is inherited inside a node with children**, if at its position the namespace is. -/
theorem Trunk.inheritedAt {id : Nat} {inner closers : List Node} {kids : List NodeId}
    {b : Blueprint} {children : List Blueprint} {node : Node}
    (h : Trunk d source here ns id inner kids b children inside node closers) (hall : Numbered all)
    (hmem : node ∈ all) (hns : InheritedAt all here.parent ns) :
    InheritedAt all (some id) inside := by
  rw [← h.id_eq]
  refine .under hall hmem h.isBranching_eq (h.place.1 ▸ hns) fun path hpath => ?_
  cases h with
  | block => exact hpath
  | element =>
    rw [Namespace.forChildren_eq_content, Namespace.ofElement_eq_entered, ← hpath]
    rfl

/-- **Every node of a row stands at a position whose namespace is inherited there**, if the row
does. -/
theorem Row.standing_of_mem (h : Row d source here ns start bs nodes tops) (hall : Numbered all)
    (hsub : nodes ⊆ all) (hns : InheritedAt all here.parent ns)
    (hopen : here.OpenAt all depth start) {n : Node} (hn : n ∈ nodes) :
    ∃ here ns, n.Standing d source all depth here ns ∧ InheritedAt all here.parent ns := by
  induction h with
  | nil => exact absurd hn List.not_mem_nil
  | @leaf here ns start span token kind bs nodes tops slice rest ih =>
    have hself : Row d source here ns start _ [kind.node here ns start token] _ :=
      Row.leaf slice Row.nil
    obtain ⟨hmem, hlater⟩ := List.cons_subset.1 hsub
    rcases List.mem_cons.1 hn with rfl | hn
    · exact ⟨here, ns, .leaf rfl (by rwa [Leaf.id_node]), hns⟩
    · exact ih hlater hns (hopen.row hself hall (by simpa using hmem)) hn
  | @trunk here ns _ start _ _ _ node inner closers nodes _ _ grows content rest ihContent ih =>
    have hself := Row.trunk grows content Row.nil
    rw [List.append_nil] at hself
    have hlength : start + (node :: (inner ++ closers)).length =
        start + 1 + inner.length + closers.length := by
      simp only [List.length_cons, List.length_append]
      omega
    rw [← List.cons_append] at hsub hn
    obtain ⟨hfirst, hlater⟩ := List.append_subset.1 hsub
    obtain ⟨hmem, hinside⟩ := List.cons_subset.1 hfirst
    obtain ⟨hinner, hclosers⟩ := List.append_subset.1 hinside
    rcases List.mem_append.1 hn with hn | hn
    · rw [List.mem_cons, List.mem_append] at hn
      rcases hn with rfl | hn | hn
      · exact ⟨here, ns, .trunk grows, hns⟩
      · have hunder : (here.under start).OpenAt all depth (start + 1) :=
          .under hmem grows.id_eq grows.isBranching_eq grows.place.2
        exact ihContent hinner (grows.inheritedAt hall hmem hns) hunder hn
      · exact ⟨here, ns, .closer hmem grows hn, hns⟩
    · exact ih hlater hns (hlength ▸ hopen.row hself hall hfirst) hn
  | @group _ _ _ _ _ _ _ others _ _ content rest ihContent ih =>
    obtain ⟨hfirst, hlater⟩ := List.append_subset.1 hsub
    rcases List.mem_append.1 hn with hn | hn
    · exact ihContent hfirst hns hopen hn
    · exact ih hlater hns (hopen.row content hall hfirst) hn

/-! ## Documents -/

/-- **Every node of a row from the first place on stands somewhere** in it. -/
theorem Row.standing (h : Row d source ⟨none, depth⟩ .html 0 bs all tops) {n : Node}
    (hn : n ∈ all) :
    ∃ here ns, n.Standing d source all depth here ns ∧ InheritedAt all here.parent ns :=
  h.standing_of_mem h.numbered (List.Subset.refl _) (InheritedAt.of_around h.numbered .top)
    (Or.inl ⟨rfl, rfl⟩) hn

/-- What closes a node is a ghost or an end tag, which closes an element. -/
theorem Trunk.links_of_mem_closers {id : Nat} {inner closers : List Node} {kids : List NodeId}
    {b : Blueprint} {children : List Blueprint} {node n : Node}
    (h : Trunk d source here ns id inner kids b children inside node closers) (hn : n ∈ closers) :
    n.isStray = false ∧ (n.kind = .endTag ∨ n.kind = .ghost) ∧
      ∀ id, n.pair? = some id → id = node.id ∧ ∃ e, node.data = .element e := by
  cases h with
  | block => exact absurd hn List.not_mem_nil
  | element _ _ closing =>
    cases closing with
    | endTag =>
      obtain rfl := List.mem_singleton.1 hn
      exact ⟨rfl, Or.inl rfl, fun id hid => ⟨(Option.some.inj hid).symm, _, rfl⟩⟩
    | ghost =>
      obtain rfl := List.mem_singleton.1 hn
      exact ⟨rfl, Or.inr rfl, fun id hid => absurd hid (by simp [Node.pair?, Position.node])⟩
    | nothing => exact absurd hn List.not_mem_nil

section Documents

variable (h : Row d source ⟨none, depth⟩ .html 0 bs all tops) {n : Node} (hn : n ∈ all)
include h hn

/-- Texts, comments and blocks are in the namespace that they inherit… -/
theorem Row.inheritedAt_of_kind (hkind : n.kind = .text ∨ n.kind = .comment ∨ n.kind = .block) :
    InheritedAt all n.parent n.ns := by
  obtain ⟨here, ns, hstands, hns⟩ := h.standing hn
  cases hstands with
  | @leaf kind _ _ eq =>
    subst eq
    cases kind with
    | text | comment => exact hns
    | doctype | strayEndTag => simp [Node.kind, Leaf.node, Position.node] at hkind
  | trunk grows =>
    cases grows with
    | block => exact hns
    | element => simp [Node.kind, Position.node] at hkind
  | closer _ grows closes =>
    rcases (grows.links_of_mem_closers closes).2.1 with hcloser | hcloser <;>
      simp [hcloser] at hkind

/-- …and elements in what their name makes of it. -/
theorem Row.inheritedAt_of_element {e : Element} (he : n.data = .element e) :
    ∃ ns, InheritedAt all n.parent ns ∧ n.ns = ns.entered e.name := by
  obtain ⟨here, ns, hstands, hns⟩ := h.standing hn
  cases hstands with
  | @leaf kind _ _ eq =>
    subst eq
    cases kind <;> cases he
  | trunk grows =>
    cases grows with
    | block => cases he
    | element =>
      obtain rfl := NodeData.element.inj he
      exact ⟨ns, hns, Namespace.ofElement_eq_entered _ _⟩
  | closer _ grows closes =>
    have hcloser := (grows.links_of_mem_closers closes).2.1
    simp [Node.kind, he] at hcloser

/-- **An end tag is in the namespace of the element that it closes.** -/
theorem Row.ns_of_pair? {id : NodeId} (hid : n.pair? = some id) :
    ∃ m e, all[id]? = some m ∧ m.data = .element e ∧ n.ns = m.ns := by
  obtain ⟨here, ns, hstands, -⟩ := h.standing hn
  cases hstands with
  | @leaf kind _ _ eq =>
    rw [eq, (kind.links_node _ _ _ _).1] at hid
    exact absurd hid (by simp)
  | trunk grows =>
    rw [(Node.links_of_isBranching grows.isBranching_eq).1] at hid
    exact absurd hid (by simp)
  | closer mem grows closes =>
    obtain ⟨rfl, e, he⟩ := (grows.links_of_mem_closers closes).2.2 id hid
    exact ⟨_, e, h.numbered.getElem? mem, he, (grows.closers_place n closes).2.2.2⟩

/-- **A ghost is in the namespace of its element**, and there is one. -/
theorem Row.ns_of_isGhost (hghost : n.isGhost = true) :
    (∃ m, GhostOf all m n) ∧ ∀ m, GhostOf all m n → n.ns = m.ns := by
  obtain ⟨m, ⟨hm, himplied, hname, hclosed⟩, -⟩ := h.existsUnique_element hn hghost
  refine ⟨⟨m, hm, himplied, hname, hclosed.parent, hclosed.encloses⟩, fun k hk => ?_⟩
  have heq : k = m := hk.encloses.unique h.numbered (fun _ hi _ hp => h.parent_lt hi hp)
    hclosed.encloses (hclosed.parent.symm.trans hk.parent) hk.mem hm
    (Node.isStray_of_isImpliedClose hk.implied) (Node.isStray_of_isImpliedClose himplied)
  rw [heq, hclosed.ns]

/-- **A stray end tag is in the namespace that is inherited where it stands**, and it stands
somewhere. -/
theorem Row.inheritedAt_of_isStray (hstray : n.isStray = true) :
    (∃ place, StrayPlace all depth n place) ∧
      ∀ place, StrayPlace all depth n place → InheritedAt all place n.ns := by
  obtain ⟨here, ns, hstands, hns⟩ := h.standing hn
  cases hstands with
  | @leaf kind id token eq opened =>
    have hnode : n.depth = here.depth ∧ n.ns = ns := by
      subst eq
      cases kind with
      | strayEndTag => exact ⟨rfl, rfl⟩
      | _ => exact absurd hstray Bool.false_ne_true
    have hplace := opened.strayPlace hnode.1
    refine ⟨⟨_, hplace⟩, fun place h' => ?_⟩
    rw [h'.unique h.depth_le hplace, hnode.2]
    exact hns
  | trunk grows =>
    rw [(Node.links_of_isBranching grows.isBranching_eq).2.2] at hstray
    exact absurd hstray Bool.false_ne_true
  | closer _ grows closes =>
    rw [(grows.links_of_mem_closers closes).1] at hstray
    exact absurd hstray Bool.false_ne_true

end Documents

/-- **A row from the first place on inherits its namespaces exactly.** -/
theorem namespaced_of_row (h : Row d source ⟨none, depth⟩ .html 0 bs all tops) :
    Namespaced all depth where
  content _ hn hkind := h.inheritedAt_of_kind hn hkind
  element _ hn _ he := h.inheritedAt_of_element hn he
  endTag _ hn _ hid := h.ns_of_pair? hn hid
  ghost _ hg hghost := h.ns_of_isGhost hg hghost
  stray _ hn hstray := h.inheritedAt_of_isStray hn hstray

end Markup
