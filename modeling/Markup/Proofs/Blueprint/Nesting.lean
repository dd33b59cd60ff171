import Markup.Proofs.Blueprint.Row

/-!
# Proofs/Blueprint/Nesting — where the nodes of a row hang

A node of a row hangs from where the row stands or **from an earlier node of the row**, and stray
end tags hang from nothing (`Row.placed`).  So what hangs from a node that has children is the row
inside it and nothing else, which is what `Site` says of a node in a whole list; every node of a row
is a leaf, stands at a site or closes one (`Row.sited`).
-/

namespace Markup

namespace Node

/-- The element that an end tag closes. -/
def pair? (n : Node) : Option NodeId :=
  match n.data with
  | .endTag _ pair => pair
  | _ => none

/-- The node is one of the tree: end tags and ghosts are not. -/
def inTree (n : Node) : Bool := n.kind != .endTag && n.kind != .ghost

/-- The node is one of the tree and a child of the given parent, or a root if there is none. -/
def hangsFrom (parent : Option NodeId) (n : Node) : Bool := n.inTree && n.parent == parent

/-- An end tag that closes nothing. -/
def isStray (n : Node) : Bool := n.kind == .endTag && n.pair?.isNone

/-- A ghost closes the element. -/
def isImpliedClose (n : Node) : Bool := n.element?.any Element.isImpliedClose

/-- The node is of a kind that has children. -/
def isBranching (n : Node) : Bool := n.kind == .element || n.kind == .block

theorem inTree_of_isBranching {n : Node} (h : n.isBranching = true) : n.inTree = true := by
  rw [isBranching] at h
  rw [inTree]
  cases hkind : n.kind <;> simp_all

theorem inTree_of_isStray {n : Node} (h : n.isStray = true) : n.inTree = false := by
  rw [isStray, Bool.and_eq_true, beq_iff_eq] at h
  rw [inTree, h.1]
  rfl

end Node

/-- **A node among others** is a stray end tag, stands at a position, or hangs from an earlier one
of them. -/
inductive Placed (here : Position) (nodes : List Node) (n : Node) : Prop
  | stray (kind : n.isStray = true) (parent : n.parent = none)
  | top (parent : n.parent = here.parent) (depth : n.depth = here.depth)
  | below {p : Node} (mem : p ∈ nodes) (parent : n.parent = some p.id) (lt : p.id < n.id)
      (branching : p.isBranching = true) (depth : p.depth + 1 = n.depth)

theorem Placed.mono {here : Position} {nodes others : List Node} {n : Node}
    (h : Placed here nodes n) (hsub : nodes ⊆ others) : Placed here others n := by
  cases h with
  | stray kind parent => exact stray kind parent
  | top parent depth => exact top parent depth
  | below mem parent lt branching depth => exact below (hsub mem) parent lt branching depth

/-- What stands under a node hangs from it. -/
theorem Placed.under {here : Position} {nodes others : List Node} {n p : Node}
    (h : Placed (here.under p.id) nodes n) (hsub : nodes ⊆ others) (hmem : p ∈ others)
    (hlt : p.id < n.id) (hbranching : p.isBranching = true) (hdepth : p.depth = here.depth) :
    Placed here others n := by
  cases h with
  | stray kind parent => exact stray kind parent
  | top parent depth =>
    refine below hmem parent hlt hbranching ?_
    rw [depth, hdepth]
    rfl
  | below mem parent lt branching depth => exact below (hsub mem) parent lt branching depth

/-! ## Kinds -/

/-- A leaf is a stray end tag or one of the tree, at its position. -/
theorem Leaf.place_node (kind : Leaf) (here : Position) (ns : Namespace) (id : NodeId)
    (token : Token) :
    let n := kind.node here ns id token
    n.parent = none ∧ n.isStray = true ∧ n.inTree = false ∧ kind.tops id = [] ∨
      n.parent = here.parent ∧ n.depth = here.depth ∧ n.inTree = true ∧ kind.tops id = [id] := by
  cases kind with
  | strayEndTag => exact Or.inl ⟨rfl, rfl, rfl, rfl⟩
  | _ => exact Or.inr ⟨rfl, rfl, rfl, rfl⟩

theorem Leaf.tops_eq (kind : Leaf) (here : Position) (ns : Namespace) (id : NodeId)
    (token : Token) : kind.tops id =
      ([kind.node here ns id token].filter (Node.hangsFrom here.parent)).map
        Node.id := by
  cases kind <;> simp [Leaf.tops, Leaf.node, Position.node, Node.hangsFrom, Node.inTree, Node.kind]

namespace Trunk

variable {d : Dialect} {source : Source} {here : Position} {ns inside : Namespace} {id : Nat}
  {inner closers : List Node} {kids : List NodeId} {b : Blueprint} {children : List Blueprint}
  {node : Node}

theorem isBranching_eq (h : Trunk d source here ns id inner kids b children inside node closers) :
    node.isBranching = true := by
  cases h <;> rfl

theorem children_eq (h : Trunk d source here ns id inner kids b children inside node closers) :
    node.children = kids := by
  cases h <;> rfl

/-- A node with children is of the tree… -/
theorem hangsFrom_eq (h : Trunk d source here ns id inner kids b children inside node closers) :
    node.hangsFrom here.parent = true := by
  rw [Node.hangsFrom, Node.inTree_of_isBranching h.isBranching_eq, h.place.1, beq_self_eq_true]
  rfl

/-- …and what closes it is not. -/
theorem inTree_closers (h : Trunk d source here ns id inner kids b children inside node closers) :
    ∀ closer ∈ closers, closer.inTree = false := by
  cases h with
  | block => simp
  | element _ _ closing => cases closing <;> simp [Node.inTree, Node.kind, Position.node]

theorem filter_closers (h : Trunk d source here ns id inner kids b children inside node closers)
    (parent : Option NodeId) : closers.filter (Node.hangsFrom parent) = [] := by
  refine List.filter_eq_nil_iff.2 fun closer hmem => ?_
  rw [Node.hangsFrom, h.inTree_closers closer hmem]
  exact Bool.false_ne_true

end Trunk

namespace Row

variable {d : Dialect} {source : Source} {here : Position} {ns : Namespace} {start : Nat}
  {bs : List Blueprint} {nodes : List Node} {tops : List NodeId}

/-- **A node of a row is a stray end tag, stands where the row does or hangs from an earlier node of
the row.** -/
theorem placed (h : Row d source here ns start bs nodes tops) :
    ∀ n ∈ nodes, Placed here nodes n := by
  induction h with
  | nil => simp
  | leaf slice rest ih =>
    intro n hn
    rcases List.mem_cons.1 hn with rfl | hrest
    · rcases Leaf.place_node _ _ _ _ _ with ⟨hparent, hstray, -⟩ | ⟨hparent, hdepth, -⟩
      · exact Placed.stray hstray hparent
      · exact Placed.top hparent hdepth
    · exact (ih n hrest).mono (List.subset_cons_self _ _)
  | @trunk here _ _ start _ _ _ node inner closers nodes _ _ grows content rest ihContent ih =>
    have hsub : inner ⊆ node :: (inner ++ closers ++ nodes) := fun m hm => by simp [hm]
    intro n hn
    simp only [List.mem_cons, List.mem_append] at hn
    rcases hn with rfl | (hinner | hclosers) | hrest
    · exact Placed.top grows.place.1 grows.place.2
    · obtain rfl := grows.id_eq
      exact (ihContent n hinner).under hsub List.mem_cons_self (content.id_mem hinner).1
        grows.isBranching_eq grows.place.2
    · obtain ⟨-, hparent, hdepth, -⟩ := grows.closers_place n hclosers
      exact Placed.top hparent hdepth
    · exact (ih n hrest).mono fun m hm => by simp [hm]
  | group content rest ihContent ih =>
    intro n hn
    rcases List.mem_append.1 hn with hfirst | hrest
    · exact (ihContent n hfirst).mono (List.subset_append_left _ _)
    · exact (ih n hrest).mono (List.subset_append_right _ _)

/-- **The parent of a node is that of the row or in the row.** -/
theorem parent_of_mem (h : Row d source here ns start bs nodes tops) {n : Node} (hn : n ∈ nodes)
    {p : Nat} (hp : n.parent = some p) :
    here.parent = some p ∨ start ≤ p ∧ p < start + nodes.length := by
  cases h.placed n hn with
  | stray kind parent =>
    rw [parent] at hp
    exact absurd hp (by simp)
  | top parent depth => exact Or.inl (parent ▸ hp)
  | below mem parent lt branching depth =>
    rw [parent] at hp
    obtain rfl := Option.some.inj hp
    exact Or.inr (h.id_mem mem)

/-- Nothing in a row stands where an earlier row does. -/
theorem filter_eq_nil (h : Row d source (here.under start) ns (start + 1) bs nodes tops)
    {outer : Position} (hparent : ∀ p, outer.parent = some p → p < start) :
    nodes.filter (Node.hangsFrom outer.parent) = [] := by
  refine List.filter_eq_nil_iff.2 fun n hn hmem => ?_
  rw [Node.hangsFrom, Bool.and_eq_true, beq_iff_eq] at hmem
  obtain ⟨htree, houter⟩ := hmem
  cases h.placed n hn with
  | stray kind parent => simp [Node.inTree_of_isStray kind] at htree
  | top parent depth =>
    exact absurd (hparent start (houter ▸ parent)) (Nat.lt_irrefl start)
  | below mem parent lt branching depth =>
    have hlt := hparent _ (houter ▸ parent)
    exact absurd (Nat.lt_trans (h.id_mem mem).1 hlt) (Nat.lt_irrefl start)

/-- **The top nodes are those of the tree that stand where the row does.** -/
theorem tops_eq (h : Row d source here ns start bs nodes tops)
    (hparent : ∀ p, here.parent = some p → p < start) :
    tops = (nodes.filter (Node.hangsFrom here.parent)).map Node.id := by
  induction h with
  | nil => rfl
  | leaf slice rest ih =>
    have hrest := ih fun p hp => Nat.lt_succ_of_lt (hparent p hp)
    rw [← List.singleton_append, List.filter_append, List.map_append, ← hrest, ← Leaf.tops_eq]
  | trunk grows content rest _ ih =>
    have hrest := ih fun p hp =>
      Nat.lt_add_right _ (Nat.lt_add_right _ (Nat.lt_succ_of_lt (hparent p hp)))
    rw [List.filter_cons_of_pos grows.hangsFrom_eq, List.filter_append, List.filter_append,
      grows.filter_closers, content.filter_eq_nil hparent, List.map_cons, grows.id_eq, hrest]
    rfl
  | group content rest ihContent ih =>
    have hrest := ih fun p hp => Nat.lt_add_right _ (hparent p hp)
    rw [List.filter_append, List.map_append, ← ihContent hparent, ← hrest]

end Row

/-! ## Sites -/

/-- **None of the nodes hangs from a place between two.** -/
def Outside (low high : Nat) (nodes : List Node) : Prop :=
  ∀ n ∈ nodes, ∀ p : Nat, n.parent = some p → p < low ∨ high ≤ p

namespace Outside

variable {low high : Nat} {n : Node} {nodes others : List Node}

@[simp] theorem append_iff :
    Outside low high (nodes ++ others) ↔ Outside low high nodes ∧ Outside low high others :=
  List.forall_mem_append

@[simp] theorem cons_iff : Outside low high (n :: nodes) ↔
    (∀ p : Nat, n.parent = some p → p < low ∨ high ≤ p) ∧ Outside low high nodes :=
  List.forall_mem_cons

/-- Less is asked of fewer places. -/
theorem mono {low' high' : Nat} (h : Outside low high nodes) (hlow : low ≤ low')
    (hhigh : high' ≤ high) : Outside low' high' nodes := by
  intro n hn p hp
  rcases h n hn p hp with hlt | hle
  · exact Or.inl (Nat.lt_of_lt_of_le hlt hlow)
  · exact Or.inr (Nat.le_trans hhigh hle)

/-- A row that stands before the places or after them is outside. -/
theorem of_row {d : Dialect} {source : Source} {here : Position} {ns : Namespace} {start : Nat}
    {bs : List Blueprint} {tops : List NodeId} (h : Row d source here ns start bs nodes tops)
    (hparent : ∀ p, here.parent = some p → p < low)
    (hplace : start + nodes.length ≤ low ∨ high ≤ start) : Outside low high nodes := by
  intro n hn p hp
  rcases h.parent_of_mem hn hp with hhere | hrow
  · exact Or.inl (hparent p hhere)
  · rcases hplace with hbefore | hafter
    · exact Or.inl (Nat.lt_of_lt_of_le hrow.2 hbefore)
    · exact Or.inr (Nat.le_trans hafter hrow.1)

/-- Nodes that stand before the places are outside. -/
theorem of_parent {parent : Option NodeId} (h : ∀ n ∈ nodes, n.parent = parent)
    (hparent : ∀ p : Nat, parent = some p → p < low) : Outside low high nodes := by
  intro n hn p hp
  exact Or.inl (hparent p ((h n hn).symm.trans hp))

theorem filter_eq_nil {p : Nat} (h : Outside low high nodes) (hlow : low ≤ p) (hhigh : p < high) :
    nodes.filter (Node.hangsFrom (some p)) = [] := by
  refine List.filter_eq_nil_iff.2 fun n hn hangs => ?_
  rw [Node.hangsFrom, Bool.and_eq_true, beq_iff_eq] at hangs
  rcases h n hn p hangs.2 with hlt | hle <;> omega

end Outside

/-- **A node with children in a list of nodes**: the row inside it follows it, then what closes it,
and nothing before or after hangs from it or from anything inside. -/
inductive Site (d : Dialect) (source : Source) (all : List Node) (node : Node)
    (inner closers : List Node) : Prop
  | intro {here : Position} {ns inside : Namespace} {kids : List NodeId} {b : Blueprint}
      {children : List Blueprint} {before after : List Node}
      (split : all = before ++ node :: (inner ++ (closers ++ after)))
      (grows : Trunk d source here ns before.length inner kids b children inside node closers)
      (content : Row d source (here.under before.length) inside (before.length + 1) children inner
        kids)
      (parent : ∀ p, here.parent = some p → p < before.length)
      (outside : Outside before.length (before.length + 1 + inner.length)
        (before ++ (closers ++ after)))

/-- **A node of a list that is a leaf, stands at a site or closes one.** -/
def Sited (d : Dialect) (source : Source) (all : List Node) (n : Node) : Prop :=
  (∃ kind here ns id token, n = Leaf.node here ns id token kind) ∨
    ∃ node inner closers, Site d source all node inner closers ∧ (n = node ∨ n ∈ closers)

/-- **A row between others**: it begins where those before it end, and nothing before or after it
hangs from it. -/
structure Framed (here : Position) (start : Nat) (before nodes after : List Node) : Prop where
  length_eq : before.length = start
  parent : ∀ p : Nat, here.parent = some p → p < start
  outside : Outside start (start + nodes.length) (before ++ after)

namespace Framed

variable {d : Dialect} {source : Source} {here : Position} {ns : Namespace} {start : Nat}
  {bs : List Blueprint} {before nodes others after : List Node} {tops : List NodeId}

/-- The first part of a row is before the rest of it… -/
theorem left (h : Framed here start before (nodes ++ others) after)
    (rest : Row d source here ns (start + nodes.length) bs others tops) :
    Framed here start before nodes (others ++ after) := by
  obtain ⟨hlength, hparent, hout⟩ := h
  rw [List.length_append, ← Nat.add_assoc, Outside.append_iff] at hout
  have hhigh : start + nodes.length ≤ start + nodes.length + others.length := Nat.le_add_right _ _
  refine ⟨hlength, hparent, ?_⟩
  rw [Outside.append_iff, Outside.append_iff]
  refine ⟨hout.1.mono (Nat.le_refl _) hhigh, ?_, hout.2.mono (Nat.le_refl _) hhigh⟩
  exact Outside.of_row rest hparent (Or.inr (Nat.le_refl _))

/-- …and the rest after the first part. -/
theorem right (h : Framed here start before (nodes ++ others) after)
    (first : Row d source here ns start bs nodes tops) :
    Framed here (start + nodes.length) (before ++ nodes) others after := by
  obtain ⟨hlength, hparent, hout⟩ := h
  rw [List.length_append, ← Nat.add_assoc, Outside.append_iff] at hout
  have hlater : ∀ p : Nat, here.parent = some p → p < start + nodes.length := fun p hp =>
    Nat.lt_add_right _ (hparent p hp)
  refine ⟨by rw [List.length_append, hlength], hlater, ?_⟩
  rw [Outside.append_iff, Outside.append_iff]
  have hlow : start ≤ start + nodes.length := Nat.le_add_right _ _
  refine ⟨⟨hout.1.mono hlow (Nat.le_refl _), ?_⟩, hout.2.mono hlow (Nat.le_refl _)⟩
  exact Outside.of_row first hlater (Or.inl (Nat.le_refl _))

/-- What is inside a node is between the node and what closes it. -/
theorem inner {inside : Namespace} {inner closers : List Node} {kids : List NodeId} {b : Blueprint}
    {children : List Blueprint} {node : Node}
    (h : Framed here start before (node :: (inner ++ closers)) after)
    (grows : Trunk d source here ns start inner kids b children inside node closers) :
    Framed (here.under start) (start + 1) (before ++ [node]) inner (closers ++ after) := by
  obtain ⟨hlength, hparent, hout⟩ := h
  simp only [List.length_cons, List.length_append, Outside.append_iff] at hout
  have hlater : ∀ p : Nat, here.parent = some p → p < start + 1 := fun p hp =>
    Nat.lt_succ_of_lt (hparent p hp)
  refine ⟨by simp [hlength], fun p hp => Option.some.inj hp ▸ Nat.lt_succ_self _, ?_⟩
  simp only [Outside.append_iff]
  refine ⟨⟨hout.1.mono (by omega) (by omega), ?_⟩, ?_, hout.2.mono (by omega) (by omega)⟩
  · exact Outside.of_parent (List.forall_mem_singleton.2 grows.place.1) hlater
  · exact Outside.of_parent (fun n hn => (grows.closers_place n hn).2.1) hlater

/-- **A node that is framed with what is inside it and what closes it** stands at a site. -/
theorem site {inside : Namespace} {inner closers all : List Node} {kids : List NodeId}
    {b : Blueprint} {children : List Blueprint} {node : Node}
    (h : Framed here start before (node :: (inner ++ closers)) after)
    (grows : Trunk d source here ns start inner kids b children inside node closers)
    (content : Row d source (here.under start) inside (start + 1) children inner kids)
    (hall : all = before ++ (node :: (inner ++ closers) ++ after)) :
    Site d source all node inner closers := by
  obtain ⟨rfl, hparent, hout⟩ := h
  simp only [List.length_cons, List.length_append, Outside.append_iff] at hout
  have hsplit : all = before ++ node :: (inner ++ (closers ++ after)) := by simp [hall]
  refine Site.intro hsplit grows content hparent ?_
  simp only [Outside.append_iff]
  refine ⟨hout.1.mono (Nat.le_refl _) (by omega), ?_, hout.2.mono (Nat.le_refl _) (by omega)⟩
  exact Outside.of_parent (fun n hn => (grows.closers_place n hn).2.1) hparent

end Framed

/-- **Every node of a row is sited in a list that has the row**, if nothing else in the list hangs
from the row. -/
theorem Row.sited {d : Dialect} {source : Source} {here : Position} {ns : Namespace} {start : Nat}
    {bs : List Blueprint} {nodes : List Node} {tops : List NodeId}
    (h : Row d source here ns start bs nodes tops) {all : List Node} (before after : List Node)
    (hframed : Framed here start before nodes after) (hall : all = before ++ (nodes ++ after)) :
    ∀ n ∈ nodes, Sited d source all n := by
  induction h generalizing before after with
  | nil => simp
  | @leaf here ns start _ token kind _ nodes _ slice rest ih =>
    have hself : Row d source here ns start _ [kind.node here ns start token] _ :=
      Row.leaf slice Row.nil
    rw [← List.singleton_append] at hframed
    have hrest := ih _ after (hframed.right hself) (by simp [hall])
    exact List.forall_mem_cons.2 ⟨Or.inl ⟨kind, here, ns, start, token, rfl⟩, hrest⟩
  | @trunk here ns _ start _ _ _ node inner closers nodes _ _ grows content rest ihContent ih =>
    have hself := Row.trunk grows content Row.nil
    rw [List.append_nil] at hself
    have hlength : start + (node :: (inner ++ closers)).length =
        start + 1 + inner.length + closers.length := by
      simp only [List.length_cons, List.length_append]
      omega
    rw [← hlength] at rest ih
    rw [← List.cons_append] at hframed hall ⊢
    have hfirst := hframed.left rest
    have hsite : Site d source all node inner closers :=
      hfirst.site grows content (by simp [hall])
    have hinner := ihContent _ _ (hfirst.inner grows) (by simp [hall])
    have hrest := ih _ after (hframed.right hself) (by simp [hall])
    rw [List.forall_mem_append, List.forall_mem_cons, List.forall_mem_append]
    exact ⟨⟨Or.inr ⟨node, inner, closers, hsite, Or.inl rfl⟩,
      hinner, fun n hn => Or.inr ⟨node, inner, closers, hsite, Or.inr hn⟩⟩, hrest⟩
  | group content rest ihContent ih =>
    have hfirst := ihContent before _ (hframed.left rest) (by simp [hall])
    have hrest := ih _ after (hframed.right content) (by simp [hall])
    exact List.forall_mem_append.2 ⟨hfirst, hrest⟩

end Markup
