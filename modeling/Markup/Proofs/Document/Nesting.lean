import Mathlib.Logic.ExistsUnique
import Mathlib.Logic.Relation
import Markup.Proofs.Blueprint.Nesting

/-!
# Proofs/Document/Nesting — the list of nodes is a tree

A list of nodes is `Nested` if it is **the tree that its links say**: the nodes between an element
and what closes it are those that hang from it, with stray end tags among them, and the children of
a node are those that name it as their parent.  `nested_of_row` proves it of every row that begins
at the first place: a node with children is followed by the row inside it (`Site`), and that row is
all that hangs from the node.
-/

namespace Markup

/-- A node hangs from another, through the parents in between. -/
def Below (nodes : List Node) : NodeId → NodeId → Prop :=
  Relation.TransGen fun p i => ∃ n, nodes[i]? = some n ∧ n.parent = some p

/-- **What is between two nodes is what hangs from the first**, with stray end tags among it. -/
structure Encloses (nodes : List Node) (first last : NodeId) : Prop where
  lt : first < last
  below : ∀ i, Below nodes first i → first < i ∧ i < last
  between : ∀ i n, nodes[i]? = some n → first < i → i < last →
    Below nodes first i ∨ n.isStray = true

/-- **A node is closed by another**, which stands where the node does. -/
structure ClosedBy (nodes : List Node) (n closer : Node) : Prop where
  parent : closer.parent = n.parent
  depth : closer.depth = n.depth
  ns : closer.ns = n.ns
  encloses : Encloses nodes n.id closer.id

/-- **A list of nodes that is the tree its links say**, with roots of the given depth. -/
structure Nested (nodes : List Node) (depth : Nat) : Prop where
  /-- A node's number is its place. -/
  numbered : ∀ i (n : Node), nodes[i]? = some n → n.id = i
  /-- End tags and the elements that they close name each other… -/
  linked : ∀ e t : NodeId,
    nodes[t]?.bind Node.pair? = some e ↔ nodes[e]?.bind Node.endTag? = some t
  /-- …and enclose what hangs from the element. -/
  paired : ∀ n ∈ nodes, ∀ closer ∈ nodes, n.endTag? = some closer.id → ClosedBy nodes n closer
  /-- Elements whose close is implied have a ghost each… -/
  existsUnique_ghost : ∀ n ∈ nodes, n.isImpliedClose = true →
    ∃! ghost, ghost ∈ nodes ∧ ghost.isGhost = true ∧ ghost.name = n.name ∧ ClosedBy nodes n ghost
  /-- …and ghosts an element each. -/
  existsUnique_element : ∀ ghost ∈ nodes, ghost.isGhost = true →
    ∃! n, n ∈ nodes ∧ n.isImpliedClose = true ∧ ghost.name = n.name ∧ ClosedBy nodes n ghost
  /-- A node of the tree is a root or hangs from an earlier one, at the next depth. -/
  placed : ∀ n ∈ nodes, n.inTree = true → n.parent = none ∧ n.depth = depth ∨
    ∃ p ∈ nodes, n.parent = some p.id ∧ p.id < n.id ∧ p.isBranching = true ∧ p.depth + 1 = n.depth
  /-- The children of a node are those that name it as their parent, in order. -/
  children : ∀ p ∈ nodes, p.children.Pairwise (· < ·) ∧
    ∀ i, i ∈ p.children ↔ ∃ n ∈ nodes, n.id = i ∧ n.inTree = true ∧ n.parent = some p.id

/-! ## What closes a node -/

/-- **A node and what closes it name each other**, or are an element whose close is implied and a
ghost of its name. -/
inductive Linked (n closer : Node) : Prop
  | pair (endTag : n.endTag? = some closer.id) (pair : closer.pair? = some n.id)
      (implied : n.isImpliedClose = false) (ghost : closer.isGhost = false)
  | ghost (endTag : n.endTag? = none) (pair : closer.pair? = none)
      (implied : n.isImpliedClose = true) (ghost : closer.isGhost = true)
      (name : closer.name = n.name)

/-- **A node with children is closed by one node at most.** -/
theorem Trunk.closers_cases {d : Dialect} {source : Source} {here : Position}
    {ns inside : Namespace} {id : Nat} {inner closers : List Node} {kids : List NodeId}
    {b : Blueprint} {children : List Blueprint} {node : Node}
    (h : Trunk d source here ns id inner kids b children inside node closers) :
    closers = [] ∧ node.endTag? = none ∧ node.isImpliedClose = false ∨
      ∃ closer, closers = [closer] ∧ Linked node closer := by
  cases h with
  | block => exact Or.inl ⟨rfl, rfl, rfl⟩
  | element _ _ closing =>
    cases closing with
    | endTag => exact Or.inr ⟨_, rfl, Linked.pair rfl rfl rfl rfl⟩
    | ghost => exact Or.inr ⟨_, rfl, Linked.ghost rfl rfl rfl rfl rfl⟩
    | nothing => exact Or.inl ⟨rfl, rfl, rfl⟩

/-- A leaf neither closes anything nor is closed. -/
theorem Leaf.links_node (kind : Leaf) (here : Position) (ns : Namespace) (id : NodeId)
    (token : Token) :
    let n := kind.node here ns id token
    n.pair? = none ∧ n.endTag? = none ∧ n.isImpliedClose = false ∧ n.isGhost = false ∧
      n.isBranching = false := by
  cases kind <;> exact ⟨rfl, rfl, rfl, rfl, rfl⟩

/-- A node with children closes nothing. -/
theorem Node.links_of_isBranching {n : Node} (h : n.isBranching = true) :
    n.pair? = none ∧ n.isGhost = false ∧ n.isStray = false := by
  unfold pair? isGhost isStray
  rw [isBranching] at h
  cases hdata : n.data <;> simp_all [kind]

/-- What is not of the tree has no children and is not closed. -/
theorem Node.links_of_inTree {n : Node} (h : n.inTree = false) :
    n.endTag? = none ∧ n.isImpliedClose = false := by
  unfold endTag? isImpliedClose element?
  rw [inTree] at h
  cases hdata : n.data <;> simp_all [kind]

/-- Neither a ghost nor an element whose close is implied is a stray end tag. -/
theorem Node.isStray_of_isGhost {n : Node} (h : n.isGhost = true) : n.isStray = false := by
  rw [isGhost, beq_iff_eq] at h
  rw [isStray, h]
  rfl

theorem Node.isStray_of_isImpliedClose {n : Node} (h : n.isImpliedClose = true) :
    n.isStray = false := by
  refine Bool.eq_false_iff.2 fun hstray => ?_
  have hnone := (links_of_inTree (inTree_of_isStray hstray)).2
  exact absurd (hnone.symm.trans h) Bool.false_ne_true

namespace Linked

variable {n closer : Node}

theorem pair?_of_endTag? (h : Linked n closer) {t : NodeId} (ht : n.endTag? = some t) :
    closer.id = t ∧ closer.pair? = some n.id := by
  cases h with
  | pair endTag pair => exact ⟨Option.some.inj (endTag.symm.trans ht), pair⟩
  | ghost endTag => exact absurd (endTag.symm.trans ht) (by simp)

theorem endTag?_of_pair? (h : Linked n closer) {e : NodeId} (he : closer.pair? = some e) :
    n.id = e ∧ n.endTag? = some closer.id := by
  cases h with
  | pair endTag pair => exact ⟨Option.some.inj (pair.symm.trans he), endTag⟩
  | ghost _ pair => exact absurd (pair.symm.trans he) (by simp)

theorem isGhost_of_isImpliedClose (h : Linked n closer) (hn : n.isImpliedClose = true) :
    closer.isGhost = true ∧ closer.name = n.name := by
  cases h with
  | pair _ _ implied => exact absurd (implied.symm.trans hn) Bool.false_ne_true
  | ghost _ _ _ ghost name => exact ⟨ghost, name⟩

theorem isImpliedClose_of_isGhost (h : Linked n closer) (hc : closer.isGhost = true) :
    n.isImpliedClose = true ∧ closer.name = n.name := by
  cases h with
  | pair _ _ _ ghost => exact absurd (ghost.symm.trans hc) Bool.false_ne_true
  | ghost _ _ implied _ name => exact ⟨implied, name⟩

end Linked

/-- A node of a kind that has no children has none. -/
theorem Node.children_of_isBranching {n : Node} (h : n.isBranching = false) : n.children = [] := by
  rw [children]
  rw [isBranching] at h
  cases hdata : n.data <;> simp_all [kind]

/-- **The close of an element is implied** where no end tag is written and none is needed, in a
dialect that lets them be left out. -/
theorem Trunk.isImpliedClose_iff {d : Dialect} {source : Source} {here : Position}
    {ns inside : Namespace} {id : Nat} {inner closers : List Node} {kids : List NodeId}
    {b : Blueprint} {children : List Blueprint} {node : Node}
    (h : Trunk d source here ns id inner kids b children inside node closers) {e : Element}
    (he : node.data = .element e) :
    e.isImpliedClose = true ↔ e.endTag = none ∧ e.selfClosing = false ∧
      d.config.endTags = .omittable ∧ d.isVoid e.name = false := by
  cases h with
  | block => exact absurd he (by simp [Position.node])
  | element _ _ closing =>
    obtain rfl := NodeData.element.inj he
    cases closing with
    | endTag => simp [Dialect.elementOf]
    | ghost implied =>
      rw [Dialect.impliesClose, Bool.and_eq_true, Bool.and_eq_true] at implied
      obtain ⟨⟨hself, htags⟩, hvoid⟩ := implied
      rw [Bool.not_eq_true'] at hself hvoid
      exact iff_of_true rfl ⟨rfl, hself, beq_iff_eq.1 htags, hvoid⟩
    | nothing unimplied =>
      simp only [Dialect.elementOf, Bool.false_eq_true, true_and, false_iff]
      rintro ⟨hself, htags, hvoid⟩
      simp [Dialect.impliesClose, hself, htags, hvoid] at unimplied

/-! ## Numbered lists -/

/-- **The number of each node is its place.** -/
def Numbered (nodes : List Node) : Prop := ∀ i (n : Node), nodes[i]? = some n → n.id = i

namespace Numbered

variable {nodes : List Node} {n m : Node}

theorem getElem? (h : Numbered nodes) (hn : n ∈ nodes) : nodes[n.id]? = some n := by
  obtain ⟨i, hi⟩ := List.getElem?_of_mem hn
  rwa [h i n hi]

/-- Nodes of one number are the same. -/
theorem eq_of_id (h : Numbered nodes) (hn : n ∈ nodes) (hm : m ∈ nodes) (hid : n.id = m.id) :
    n = m := by
  have hget := h.getElem? hn
  rw [hid, h.getElem? hm] at hget
  exact (Option.some.inj hget).symm

end Numbered

/-! ## Sites -/

namespace Site

variable {d : Dialect} {source : Source} {all inner closers : List Node} {node n : Node}

theorem mem (h : Site d source all node inner closers) : node ∈ all := by
  obtain ⟨split⟩ := h
  simp [split]

theorem closer_mem (h : Site d source all node inner closers) (hn : n ∈ closers) : n ∈ all := by
  obtain ⟨split⟩ := h
  simp [split, hn]

theorem inner_mem (h : Site d source all node inner closers) (hn : n ∈ inner) : n ∈ all := by
  obtain ⟨split⟩ := h
  simp [split, hn]

theorem isBranching (h : Site d source all node inner closers) : node.isBranching = true := by
  obtain ⟨-, grows⟩ := h
  exact grows.isBranching_eq

theorem closers_cases (h : Site d source all node inner closers) :
    closers = [] ∧ node.endTag? = none ∧ node.isImpliedClose = false ∨
      ∃ closer, closers = [closer] ∧ Linked node closer := by
  obtain ⟨-, grows⟩ := h
  exact grows.closers_cases

theorem inTree_closer (h : Site d source all node inner closers) (hn : n ∈ closers) :
    n.inTree = false := by
  obtain ⟨-, grows⟩ := h
  exact grows.inTree_closers n hn

/-- What closes a node follows what is inside it. -/
theorem id_closer (h : Site d source all node inner closers) (hn : n ∈ closers) :
    n.id = node.id + 1 + inner.length := by
  obtain ⟨split, grows⟩ := h
  rw [grows.id_eq]
  exact (grows.closers_place n hn).1

/-- What is inside a node hangs from it or from what is inside it. -/
theorem placed_inner (h : Site d source all node inner closers) (hn : n ∈ inner) :
    Placed ⟨some node.id, node.depth + 1⟩ inner n := by
  obtain ⟨split, grows, content⟩ := h
  rw [grows.id_eq, grows.place.2]
  exact content.placed n hn

/-- **What hangs from a node directly is inside it.** -/
theorem mem_inner_of_parent (h : Site d source all node inner closers) (hn : n ∈ all) {p : Nat}
    (hp : n.parent = some p) (hlow : node.id ≤ p) (hhigh : p < node.id + 1 + inner.length) :
    n ∈ inner := by
  obtain ⟨split, grows, content, parent, outside⟩ := h
  rw [grows.id_eq] at hlow hhigh
  rw [Outside.append_iff] at outside
  rw [split, List.mem_append, List.mem_cons, List.mem_append] at hn
  rcases hn with hbefore | rfl | hinner | hafter
  · rcases outside.1 n hbefore p hp with hlt | hle
    · exact absurd hlt (Nat.not_lt.2 hlow)
    · exact absurd hhigh (Nat.not_lt.2 hle)
  · exact absurd (parent p (grows.place.1 ▸ hp)) (Nat.not_lt.2 hlow)
  · exact hinner
  · rcases outside.2 n hafter p hp with hlt | hle
    · exact absurd hlt (Nat.not_lt.2 hlow)
    · exact absurd hhigh (Nat.not_lt.2 hle)

/-- What is inside a node follows it at once. -/
theorem id_inner (h : Site d source all node inner closers) (hn : n ∈ inner) :
    node.id < n.id ∧ n.id < node.id + 1 + inner.length := by
  obtain ⟨split, grows, content, parent, outside⟩ := h
  rw [grows.id_eq]
  exact content.id_mem hn

/-- …up to what closes it. -/
theorem mem_inner_of_place (h : Site d source all node inner closers) {i : Nat}
    (hn : all[i]? = some n) (hlow : node.id < i) (hhigh : i < node.id + 1 + inner.length) :
    n ∈ inner := by
  obtain ⟨split, grows, content, parent, outside⟩ := h
  rw [grows.id_eq] at hlow hhigh
  obtain ⟨k, rfl⟩ := Nat.exists_eq_add_of_lt hlow
  have hk : k < inner.length := by omega
  rw [split, Nat.add_assoc, List.getElem?_append_right (Nat.le_add_right _ _),
    Nat.add_sub_cancel_left, List.getElem?_cons_succ, List.getElem?_append_left hk] at hn
  exact List.mem_of_getElem? hn

/-- **A node is below another exactly if it is inside it**, but for stray end tags. -/
theorem lt_of_below (h : Site d source all node inner closers) (hall : Numbered all) {i : NodeId}
    (hbelow : Below all node.id i) : node.id < i ∧ i < node.id + 1 + inner.length := by
  have hstep : ∀ p i : Nat, node.id ≤ p → p < node.id + 1 + inner.length →
      (∃ n, all[i]? = some n ∧ n.parent = some p) →
        node.id < i ∧ i < node.id + 1 + inner.length := by
    rintro p i hlow hhigh ⟨n, hn, hp⟩
    obtain rfl := hall i n hn
    exact h.id_inner (h.mem_inner_of_parent (List.mem_of_getElem? hn) hp hlow hhigh)
  induction hbelow with
  | single hedge => exact hstep _ _ (Nat.le_refl _) (by omega) hedge
  | tail _ hedge ih => exact hstep _ _ (Nat.le_of_lt ih.1) ih.2 hedge

theorem below_of_mem (h : Site d source all node inner closers) (hall : Numbered all)
    (hn : n ∈ inner) : Below all node.id n.id ∨ n.isStray = true := by
  induction hid : n.id using Nat.strongRecOn generalizing n with
  | ind i ih =>
    subst hid
    have hget := hall.getElem? (h.inner_mem hn)
    cases h.placed_inner hn with
    | stray kind parent => exact Or.inr kind
    | top parent depth => exact Or.inl (Relation.TransGen.single ⟨n, hget, parent⟩)
    | below mem parent lt branching depth =>
      rcases ih _ lt mem rfl with hbelow | hstray
      · exact Or.inl (hbelow.tail ⟨n, hget, parent⟩)
      · rw [(Node.links_of_isBranching branching).2.2] at hstray
        exact absurd hstray Bool.false_ne_true

/-- **What closes a node closes all that is inside it.** -/
theorem closedBy (h : Site d source all node inner closers) (hall : Numbered all)
    (hn : n ∈ closers) : ClosedBy all node n := by
  have hid := h.id_closer hn
  obtain ⟨split, grows, content, parent, outside⟩ := id h
  obtain ⟨-, hparent, hdepth, hns⟩ := grows.closers_place n hn
  refine ⟨hparent.trans grows.place.1.symm, hdepth.trans grows.place.2.symm, hns, ?_⟩
  rw [hid]
  have hlt := Nat.lt_of_lt_of_le (Nat.lt_succ_self node.id) (Nat.le_add_right _ inner.length)
  refine ⟨hlt, fun i hbelow => h.lt_of_below hall hbelow, fun i m hm hlow hhigh => ?_⟩
  obtain rfl := hall i m hm
  exact h.below_of_mem hall (h.mem_inner_of_place hm hlow hhigh)

/-- **The children of a node are those that name it as their parent.** -/
theorem children_eq (h : Site d source all node inner closers) :
    node.children = (all.filter (Node.hangsFrom (some node.id))).map Node.id := by
  obtain @⟨_, _, _, _, _, _, before, after, split, grows, content, parent, outside⟩ := h
  have hkids := content.tops_eq fun p hp => Option.some.inj hp ▸ Nat.lt_succ_self _
  have hself : ¬ node.hangsFrom (some before.length) = true := by
    intro hangs
    rw [Node.hangsFrom, Bool.and_eq_true, beq_iff_eq, grows.place.1] at hangs
    exact Nat.lt_irrefl _ (parent _ hangs.2)
  rw [Outside.append_iff] at outside
  have hnil : ∀ {nodes}, Outside before.length (before.length + 1 + inner.length) nodes →
      nodes.filter (Node.hangsFrom (some before.length)) = [] := fun hout =>
    hout.filter_eq_nil (Nat.le_refl _) (by omega)
  rw [grows.children_eq, hkids, grows.id_eq, split, List.filter_append,
    List.filter_cons_of_neg hself, List.filter_append, hnil outside.1, hnil outside.2,
    List.append_nil]
  rfl

end Site

/-! ## Nested rows -/

section Nested

variable {d : Dialect} {source : Source} {depth : Nat} {ns : Namespace} {bs : List Blueprint}
  {all : List Node} {tops : List NodeId}

/-- The nodes of a row from the first place on are numbered by their places. -/
theorem Row.numbered {here : Position} (h : Row d source here ns 0 bs all tops) : Numbered all := by
  intro i n hn
  obtain ⟨hi, rfl⟩ := List.getElem?_eq_some_iff.1 hn
  have hget := congrArg (·[i]?) h.map_id
  simpa [hi] using hget

/-- …and each is sited among them. -/
theorem Row.sited_all (h : Row d source ⟨none, depth⟩ ns 0 bs all tops) :
    ∀ n ∈ all, Sited d source all n := by
  have hframed : Framed ⟨none, depth⟩ 0 [] all [] :=
    ⟨rfl, fun p hp => absurd hp (by simp), fun n hn => absurd hn List.not_mem_nil⟩
  exact h.sited [] [] hframed (List.append_nil all).symm

/-- **A node of the list closes nothing, or one node that is linked with it**… -/
theorem Sited.closed {n : Node} (h : Sited d source all n) (hall : Numbered all) :
    n.pair? = none ∧ n.isGhost = false ∨
      ∃ node ∈ all, ClosedBy all node n ∧ Linked node n := by
  rcases h with ⟨kind, here, ns, id, token, rfl⟩ | ⟨node, inner, closers, hsite, rfl | hcloser⟩
  · obtain ⟨hpair, -, -, hghost, -⟩ := kind.links_node here ns id token
    exact Or.inl ⟨hpair, hghost⟩
  · obtain ⟨hpair, hghost, -⟩ := Node.links_of_isBranching hsite.isBranching
    exact Or.inl ⟨hpair, hghost⟩
  · rcases hsite.closers_cases with ⟨rfl, -⟩ | ⟨closer, rfl, hlinked⟩
    · exact absurd hcloser List.not_mem_nil
    · obtain rfl := List.mem_singleton.1 hcloser
      exact Or.inr ⟨node, hsite.mem, hsite.closedBy hall hcloser, hlinked⟩

/-- …and is not closed, or by one node. -/
theorem Sited.closer {n : Node} (h : Sited d source all n) (hall : Numbered all) :
    n.endTag? = none ∧ n.isImpliedClose = false ∨
      ∃ closer ∈ all, ClosedBy all n closer ∧ Linked n closer := by
  rcases h with ⟨kind, here, ns, id, token, rfl⟩ | ⟨node, inner, closers, hsite, rfl | hcloser⟩
  · obtain ⟨-, hendTag, himplied, -, -⟩ := kind.links_node here ns id token
    exact Or.inl ⟨hendTag, himplied⟩
  · rcases hsite.closers_cases with ⟨-, hnone⟩ | ⟨closer, rfl, hlinked⟩
    · exact Or.inl hnone
    · have hmem := List.mem_singleton_self closer
      exact Or.inr ⟨closer, hsite.closer_mem hmem, hsite.closedBy hall hmem, hlinked⟩
  · exact Or.inl (Node.links_of_inTree (hsite.inTree_closer hcloser))

/-- **A parent comes before its children.** -/
theorem Row.parent_lt (h : Row d source ⟨none, depth⟩ ns 0 bs all tops) {n : Node} (hn : n ∈ all)
    {p : NodeId} (hp : n.parent = some p) : p < n.id := by
  cases h.placed n hn with
  | stray kind parent =>
    rw [parent] at hp
    exact absurd hp (by simp)
  | top parent depth =>
    rw [parent] at hp
    exact absurd hp (by simp)
  | below mem parent lt branching depth =>
    rw [parent] at hp
    exact Option.some.inj hp ▸ lt

/-- **No two nodes that are not stray close the same.** -/
theorem ClosedBy.closer_unique (hall : Numbered all) {n c c' : Node} (h : ClosedBy all n c)
    (h' : ClosedBy all n c') (hc : c ∈ all) (hc' : c' ∈ all) (hstray : c.isStray = false)
    (hstray' : c'.isStray = false) : c = c' := by
  have hnot : ∀ {c c' : Node}, ClosedBy all n c → ClosedBy all n c' → c ∈ all →
      c.isStray = false → ¬ c.id < c'.id := by
    intro c c' h h' hc hstray hlt
    rcases h'.encloses.between c.id c (hall.getElem? hc) h.encloses.lt hlt with hbelow | hkind
    · exact Nat.lt_irrefl _ (h.encloses.below c.id hbelow).2
    · rw [hstray] at hkind
      exact Bool.false_ne_true hkind
  refine hall.eq_of_id hc hc' (Nat.le_antisymm ?_ ?_)
  · exact Nat.not_lt.1 (hnot h' h hc' hstray')
  · exact Nat.not_lt.1 (hnot h h' hc hstray)

/-- **No node closes two that stand beside each other**, for the inner one would hang from the outer
one's parent. -/
theorem Encloses.unique (hall : Numbered all)
    (hparent : ∀ n ∈ all, ∀ p, n.parent = some p → p < n.id) {n n' : Node} {last : NodeId}
    (h : Encloses all n.id last) (h' : Encloses all n'.id last) (hsame : n'.parent = n.parent)
    (hn : n ∈ all) (hn' : n' ∈ all) (hstray : n.isStray = false) (hstray' : n'.isStray = false) :
    n = n' := by
  have hnot : ∀ {n n' : Node}, Encloses all n.id last → Encloses all n'.id last →
      n'.parent = n.parent → n ∈ all → n' ∈ all → n'.isStray = false → ¬ n.id < n'.id := by
    intro n n' h h' hsame hn hn' hstray hlt
    rcases h.between n'.id n' (hall.getElem? hn') hlt h'.lt with hbelow | hkind
    · obtain ⟨p, hle, m, hm, hp⟩ :
          ∃ p, n.id ≤ p ∧ ∃ m, all[n'.id]? = some m ∧ m.parent = some p := by
        cases hbelow with
        | single hedge => exact ⟨n.id, Nat.le_refl _, hedge⟩
        | tail hinner hedge => exact ⟨_, Nat.le_of_lt (h.below _ hinner).1, hedge⟩
      obtain rfl := Option.some.inj ((hall.getElem? hn').symm.trans hm)
      exact absurd (hparent n hn p (hsame ▸ hp)) (Nat.not_lt.2 hle)
    · rw [hstray] at hkind
      exact Bool.false_ne_true hkind
  refine hall.eq_of_id hn hn' (Nat.le_antisymm ?_ ?_)
  · exact Nat.not_lt.1 (hnot h' h hsame.symm hn' hn hstray)
  · exact Nat.not_lt.1 (hnot h h' hsame hn hn' hstray')

/-- A node without children of its own is nobody's parent. -/
theorem Row.children_of_leaf {n : Node} (h : Row d source ⟨none, depth⟩ ns 0 bs all tops)
    (hn : n ∈ all) (hleaf : n.isBranching = false) :
    all.filter (Node.hangsFrom (some n.id)) = [] := by
  refine List.filter_eq_nil_iff.2 fun m hm hangs => ?_
  rw [Node.hangsFrom, Bool.and_eq_true, beq_iff_eq] at hangs
  cases h.placed m hm with
  | stray kind parent => exact absurd (parent.symm.trans hangs.2) (by simp)
  | top parent depth => exact absurd (parent.symm.trans hangs.2) (by simp)
  | below mem parent lt branching depth =>
    have hid := Option.some.inj (parent.symm.trans hangs.2)
    rw [h.numbered.eq_of_id mem hn hid, hleaf] at branching
    exact absurd branching Bool.false_ne_true

/-- A node of a kind that has children stands at a site. -/
theorem Row.site_of_isBranching {n : Node} (h : Row d source ⟨none, depth⟩ ns 0 bs all tops)
    (hn : n ∈ all) (hkind : n.isBranching = true) :
    ∃ inner closers, Site d source all n inner closers := by
  rcases h.sited_all n hn with ⟨kind, here, ns, id, token, rfl⟩ | ⟨_, _, _, hsite, rfl | hcloser⟩
  · exact absurd hkind (by simp [(kind.links_node here ns id token).2.2.2.2])
  · exact ⟨_, _, hsite⟩
  · have htree := Node.inTree_of_isBranching hkind
    rw [hsite.inTree_closer hcloser] at htree
    exact absurd htree Bool.false_ne_true

/-- **The children of each node are those that name it as their parent.** -/
theorem Row.children_eq {n : Node} (h : Row d source ⟨none, depth⟩ ns 0 bs all tops)
    (hn : n ∈ all) :
    n.children = (all.filter (Node.hangsFrom (some n.id))).map Node.id := by
  cases hkind : n.isBranching with
  | false => rw [h.children_of_leaf hn hkind, Node.children_of_isBranching hkind, List.map_nil]
  | true =>
    obtain ⟨inner, closers, hsite⟩ := h.site_of_isBranching hn hkind
    exact hsite.children_eq

/-- **Which elements have their close implied.** -/
theorem Row.isImpliedClose_iff {n : Node} {e : Element}
    (h : Row d source ⟨none, depth⟩ ns 0 bs all tops) (hn : n ∈ all) (he : n.data = .element e) :
    e.isImpliedClose = true ↔ e.endTag = none ∧ e.selfClosing = false ∧
      d.config.endTags = .omittable ∧ d.isVoid e.name = false := by
  have hkind : n.isBranching = true := by simp [Node.isBranching, Node.kind, he]
  obtain ⟨inner, closers, -, hgrows, -⟩ := h.site_of_isBranching hn hkind
  exact hgrows.isImpliedClose_iff he

/-- **End tags and the elements that they close name each other.** -/
theorem Row.linked (h : Row d source ⟨none, depth⟩ ns 0 bs all tops) (e t : NodeId) :
    all[t]?.bind Node.pair? = some e ↔ all[e]?.bind Node.endTag? = some t := by
  rw [Option.bind_eq_some_iff, Option.bind_eq_some_iff]
  constructor
  · rintro ⟨c, hc, hpair⟩
    obtain rfl := h.numbered t c hc
    rcases (h.sited_all c (List.mem_of_getElem? hc)).closed h.numbered with
      ⟨hnone, -⟩ | ⟨n, hn, -, hlinked⟩
    · exact absurd (hnone.symm.trans hpair) (by simp)
    · obtain ⟨rfl, hendTag⟩ := hlinked.endTag?_of_pair? hpair
      exact ⟨n, h.numbered.getElem? hn, hendTag⟩
  · rintro ⟨n, hn, hendTag⟩
    obtain rfl := h.numbered e n hn
    rcases (h.sited_all n (List.mem_of_getElem? hn)).closer h.numbered with
      ⟨hnone, -⟩ | ⟨c, hc, -, hlinked⟩
    · exact absurd (hnone.symm.trans hendTag) (by simp)
    · obtain ⟨rfl, hpair⟩ := hlinked.pair?_of_endTag? hendTag
      exact ⟨c, h.numbered.getElem? hc, hpair⟩

/-- **An end tag closes the element that it is linked with.** -/
theorem Row.closedBy_of_endTag? {n closer : Node} (h : Row d source ⟨none, depth⟩ ns 0 bs all tops)
    (hn : n ∈ all) (hcloser : closer ∈ all) (hlink : n.endTag? = some closer.id) :
    ClosedBy all n closer := by
  rcases (h.sited_all n hn).closer h.numbered with ⟨hnone, -⟩ | ⟨c, hc, hclosed, hlinked⟩
  · exact absurd (hnone.symm.trans hlink) (by simp)
  · obtain ⟨hid, -⟩ := hlinked.pair?_of_endTag? hlink
    rwa [h.numbered.eq_of_id hcloser hc hid.symm]

/-- **One ghost closes an element whose close is implied**… -/
theorem Row.existsUnique_ghost {n : Node} (h : Row d source ⟨none, depth⟩ ns 0 bs all tops)
    (hn : n ∈ all) (himplied : n.isImpliedClose = true) :
    ∃! ghost, ghost ∈ all ∧ ghost.isGhost = true ∧ ghost.name = n.name ∧ ClosedBy all n ghost := by
  rcases (h.sited_all n hn).closer h.numbered with ⟨-, hnone⟩ | ⟨c, hc, hclosed, hlinked⟩
  · exact absurd (hnone.symm.trans himplied) Bool.false_ne_true
  · obtain ⟨hghost, hname⟩ := hlinked.isGhost_of_isImpliedClose himplied
    refine ⟨c, ⟨hc, hghost, hname, hclosed⟩, ?_⟩
    rintro c' ⟨hc', hghost', -, hclosed'⟩
    exact hclosed'.closer_unique h.numbered hclosed hc' hc (Node.isStray_of_isGhost hghost')
      (Node.isStray_of_isGhost hghost)

/-- …and it closes no other. -/
theorem Row.existsUnique_element {ghost : Node} (h : Row d source ⟨none, depth⟩ ns 0 bs all tops)
    (hmem : ghost ∈ all) (hghost : ghost.isGhost = true) :
    ∃! n, n ∈ all ∧ n.isImpliedClose = true ∧ ghost.name = n.name ∧ ClosedBy all n ghost := by
  rcases (h.sited_all ghost hmem).closed h.numbered with ⟨-, hnone⟩ | ⟨n, hn, hclosed, hlinked⟩
  · exact absurd (hnone.symm.trans hghost) Bool.false_ne_true
  · obtain ⟨himplied, hname⟩ := hlinked.isImpliedClose_of_isGhost hghost
    refine ⟨n, ⟨hn, himplied, hname, hclosed⟩, ?_⟩
    rintro n' ⟨hn', himplied', -, hclosed'⟩
    exact hclosed'.encloses.unique h.numbered (fun m hm p hp => h.parent_lt hm hp) hclosed.encloses
      (hclosed.parent.symm.trans hclosed'.parent) hn' hn
      (Node.isStray_of_isImpliedClose himplied') (Node.isStray_of_isImpliedClose himplied)

/-- A node of the tree is a root or hangs from an earlier one. -/
theorem Row.place_of_inTree {n : Node} (h : Row d source ⟨none, depth⟩ ns 0 bs all tops)
    (hn : n ∈ all) (htree : n.inTree = true) : n.parent = none ∧ n.depth = depth ∨
      ∃ p ∈ all, n.parent = some p.id ∧ p.id < n.id ∧ p.isBranching = true ∧
        p.depth + 1 = n.depth := by
  cases h.placed n hn with
  | stray kind parent =>
    rw [Node.inTree_of_isStray kind] at htree
    exact absurd htree Bool.false_ne_true
  | top parent depth => exact Or.inl ⟨parent, depth⟩
  | below mem parent lt branching depth => exact Or.inr ⟨_, mem, parent, lt, branching, depth⟩

/-- **The children of a node are in order.** -/
theorem Row.children_pairwise {n : Node} (h : Row d source ⟨none, depth⟩ ns 0 bs all tops)
    (hn : n ∈ all) : n.children.Pairwise (· < ·) := by
  rw [h.children_eq hn]
  refine List.Pairwise.sublist (List.filter_sublist.map _) ?_
  rw [h.map_id]
  exact List.pairwise_lt_range'

/-- A node is a child of the one that it hangs from. -/
theorem Row.mem_children_iff {p : Node} (h : Row d source ⟨none, depth⟩ ns 0 bs all tops)
    (hp : p ∈ all) (i : NodeId) : i ∈ p.children ↔
      ∃ n ∈ all, n.id = i ∧ n.inTree = true ∧ n.parent = some p.id := by
  rw [h.children_eq hp, List.mem_map]
  refine exists_congr fun n => ?_
  rw [List.mem_filter, Node.hangsFrom, Bool.and_eq_true, beq_iff_eq, and_assoc,
    and_comm (b := n.id = i)]

/-- **A row from the first place on is the tree that its links say.** -/
theorem nested_of_row (h : Row d source ⟨none, depth⟩ ns 0 bs all tops) : Nested all depth where
  numbered := h.numbered
  linked := h.linked
  paired _ hn _ hcloser hlink := h.closedBy_of_endTag? hn hcloser hlink
  existsUnique_ghost _ hn himplied := h.existsUnique_ghost hn himplied
  existsUnique_element _ hmem hghost := h.existsUnique_element hmem hghost
  placed _ hn htree := h.place_of_inTree hn htree
  children _ hp := ⟨h.children_pairwise hp, h.mem_children_iff hp⟩

end Nested

end Markup
