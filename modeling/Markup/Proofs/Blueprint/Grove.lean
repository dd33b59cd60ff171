import Markup.Proofs.Blueprint.Relocation
import Markup.Proofs.Document.Nesting

/-!
# Proofs/Blueprint/Grove — nodes that are trees, wherever their tops stand

Blueprints may ask for any place, so what they become is no row: a `Grove` only says that **every
node of the tree is one of the tops or the child of one node**, and leaves open where the tops
stand.  A node takes those tops as children that stand right below it (`Grove.trunk`); a top that is
moved takes its own tree along (`Grove.relocate`), so its grove stays one.

Depths are a layer of their own (`Stepped`): a child is **one deeper than its parent** only as long
as the depths that a move shifts stay numbers of 63 bits.
-/

namespace Markup

/-- A node is a child of another. -/
structure Node.IsUnder (n p : Node) : Prop where
  inTree : n.inTree = true
  lt : p.id < n.id
  parent : n.parent = some p.id

/-- What has children is of a kind that does. -/
theorem Node.isBranching_of_mem_children {n : Node} {i : NodeId} (h : i ∈ n.children) :
    n.isBranching = true := by
  by_contra hnot
  rw [children_of_isBranching (Bool.eq_false_iff.2 hnot)] at h
  exact List.not_mem_nil h

/-- The node of a number stands at a position. -/
def StandsAt (nodes : List Node) (position : Position) (i : NodeId) : Prop :=
  ∃ n ∈ nodes, n.id = i ∧ n.parent = position.parent ∧ n.depth = position.depth

/-- The node of a number has a parent, or none. -/
def HangsFrom (nodes : List Node) (parent : Option NodeId) (i : NodeId) : Prop :=
  ∃ n ∈ nodes, n.id = i ∧ n.parent = parent

theorem StandsAt.hangsFrom {nodes : List Node} {position : Position} {i : NodeId}
    (h : StandsAt nodes position i) : HangsFrom nodes position.parent i :=
  h.imp fun _ hn => hn.imp_right (And.imp_right And.left)

/-- **Nodes with the places from `start` on that are trees**, with the tops of these. -/
structure Grove (start : Nat) (nodes : List Node) (tops : List NodeId) : Prop where
  map_id : nodes.map Node.id = List.range' start nodes.length
  tops_pairwise : tops.Pairwise (· < ·)
  tops_mem : ∀ i ∈ tops, ∃ n ∈ nodes, n.id = i ∧ n.inTree = true
  children_pairwise : ∀ p ∈ nodes, p.children.Pairwise (· < ·)
  /-- A child is no top, and it names its parent. -/
  child : ∀ p ∈ nodes, ∀ i ∈ p.children, i ∉ tops ∧ ∃ n ∈ nodes, n.id = i ∧ n.IsUnder p
  /-- A node of the tree is a top or a child. -/
  owned : ∀ n ∈ nodes, n.inTree = true → n.id ∈ tops ∨ ∃ p ∈ nodes, n.id ∈ p.children
  /-- An element and its end tag name each other. -/
  endTag : ∀ p ∈ nodes, ∀ i, p.endTag? = some i →
    ∃ n ∈ nodes, n.id = i ∧ p.id < i ∧ n.inTree = false ∧ n.pair? = some p.id

namespace Grove

variable {start : Nat} {nodes others : List Node} {tops more : List NodeId}

/-! ## Places -/

/-- The numbers of a grove are those from `start` on… -/
theorem id_mem (h : Grove start nodes tops) {n : Node} (hn : n ∈ nodes) :
    start ≤ n.id ∧ n.id < start + nodes.length := by
  have hmem := List.mem_map_of_mem (f := Node.id) hn
  rw [h.map_id, List.mem_range'_1] at hmem
  exact hmem

/-- …each of them in its place… -/
theorem getElem?_eq_some_iff (h : Grove start nodes tops) {k : Nat} {n : Node} :
    nodes[k]? = some n ↔ n ∈ nodes ∧ n.id = start + k := by
  have hplace : ∀ j m, nodes[j]? = some m → m.id = start + j := by
    intro j m hj
    obtain ⟨hlt, rfl⟩ := List.getElem?_eq_some_iff.1 hj
    have hget := congrArg (·[j]?) h.map_id
    simpa [hlt] using hget
  refine ⟨fun hk => ⟨List.mem_of_getElem? hk, hplace k n hk⟩, ?_⟩
  rintro ⟨hn, hid⟩
  obtain ⟨j, hj⟩ := List.getElem?_of_mem hn
  obtain rfl : j = k := Nat.add_left_cancel ((hplace j n hj).symm.trans hid)
  exact hj

/-- …so that nodes of one number are the same. -/
theorem eq_of_id (h : Grove start nodes tops) {n m : Node} (hn : n ∈ nodes) (hm : m ∈ nodes)
    (hid : n.id = m.id) : n = m := by
  obtain ⟨k, hk⟩ := List.getElem?_of_mem hn
  have hmk := h.getElem?_eq_some_iff.2 ⟨hm, hid ▸ (h.getElem?_eq_some_iff.1 hk).2⟩
  exact Option.some.inj (hk.symm.trans hmk)

theorem top_mem (h : Grove start nodes tops) {i : NodeId} (hi : i ∈ tops) :
    start ≤ i ∧ i < start + nodes.length := by
  obtain ⟨n, hn, rfl, -⟩ := h.tops_mem i hi
  exact h.id_mem hn

/-- The node that a list of children has under a number. -/
theorem isUnder_of_mem_children (h : Grove start nodes tops) {n p : Node} (hn : n ∈ nodes)
    (hp : p ∈ nodes) (hi : n.id ∈ p.children) : n.IsUnder p := by
  obtain ⟨-, m, hm, hid, hunder⟩ := h.child p hp n.id hi
  rwa [h.eq_of_id hn hm hid.symm]

/-! ## Groves that are built of others -/

theorem nil : Grove start [] [] := by
  refine ⟨rfl, List.Pairwise.nil, ?_, ?_, ?_, ?_, ?_⟩ <;> simp

/-- **Groves that follow each other are one.** -/
theorem append (h : Grove start nodes tops) (h' : Grove (start + nodes.length) others more) :
    Grove start (nodes ++ others) (tops ++ more) where
  map_id := by rw [List.map_append, h.map_id, h'.map_id, List.range'_append_1, List.length_append]
  tops_pairwise := by
    refine List.pairwise_append.2 ⟨h.tops_pairwise, h'.tops_pairwise, fun i hi j hj => ?_⟩
    exact Nat.lt_of_lt_of_le (h.top_mem hi).2 (h'.top_mem hj).1
  tops_mem i hi := by
    rcases List.mem_append.1 hi with hi | hi
    · obtain ⟨n, hn, htop⟩ := h.tops_mem i hi
      exact ⟨n, List.mem_append_left _ hn, htop⟩
    · obtain ⟨n, hn, htop⟩ := h'.tops_mem i hi
      exact ⟨n, List.mem_append_right _ hn, htop⟩
  children_pairwise := List.forall_mem_append.2 ⟨h.children_pairwise, h'.children_pairwise⟩
  child p hp i hi := by
    rcases List.mem_append.1 hp with hp | hp
    · obtain ⟨hnot, n, hn, rfl, hunder⟩ := h.child p hp i hi
      refine ⟨fun htop => ?_, n, List.mem_append_left _ hn, rfl, hunder⟩
      rcases List.mem_append.1 htop with htop | htop
      · exact hnot htop
      · exact absurd (h'.top_mem htop).1 (Nat.not_le.2 (h.id_mem hn).2)
    · obtain ⟨hnot, n, hn, rfl, hunder⟩ := h'.child p hp i hi
      refine ⟨fun htop => ?_, n, List.mem_append_right _ hn, rfl, hunder⟩
      rcases List.mem_append.1 htop with htop | htop
      · exact absurd (h'.id_mem hn).1 (Nat.not_le.2 (h.top_mem htop).2)
      · exact hnot htop
  owned n hn htree := by
    rcases List.mem_append.1 hn with hn | hn
    · rcases h.owned n hn htree with htop | ⟨p, hp, hi⟩
      · exact Or.inl (List.mem_append_left _ htop)
      · exact Or.inr ⟨p, List.mem_append_left _ hp, hi⟩
    · rcases h'.owned n hn htree with htop | ⟨p, hp, hi⟩
      · exact Or.inl (List.mem_append_right _ htop)
      · exact Or.inr ⟨p, List.mem_append_right _ hp, hi⟩
  endTag p hp i hi := by
    rcases List.mem_append.1 hp with hp | hp
    · obtain ⟨n, hn, hpair⟩ := h.endTag p hp i hi
      exact ⟨n, List.mem_append_left _ hn, hpair⟩
    · obtain ⟨n, hn, hpair⟩ := h'.endTag p hp i hi
      exact ⟨n, List.mem_append_right _ hn, hpair⟩

/-- A leaf is a grove of its own. -/
theorem leaf (kind : Leaf) (here : Position) (ns : Namespace) (token : Token) :
    Grove start [kind.node here ns start token] (kind.tops start) := by
  have hlinks := kind.links_node here ns start token
  have hchildren := Node.children_of_isBranching hlinks.2.2.2.2
  have htops : kind.tops start = [] ∧ (kind.node here ns start token).inTree = false ∨
      kind.tops start = [start] ∧ (kind.node here ns start token).inTree = true := by
    rcases kind.place_node here ns start token with ⟨-, -, htree, htops⟩ | ⟨-, -, htree, htops⟩
    · exact Or.inl ⟨htops, htree⟩
    · exact Or.inr ⟨htops, htree⟩
  refine ⟨?_, ?_, ?_, ?_, ?_, ?_, ?_⟩
  · simp [List.range'_succ]
  · rcases htops with ⟨htops, -⟩ | ⟨htops, -⟩ <;> simp [htops]
  · rcases htops with ⟨htops, htree⟩ | ⟨htops, htree⟩ <;> simp [htops, htree]
  · simp [hchildren]
  · simp [hchildren]
  · rcases htops with ⟨htops, htree⟩ | ⟨htops, htree⟩ <;> simp [htops, htree]
  · simp [hlinks.2.1]

section Trunk

variable {d : Dialect} {source : Source} {here : Position} {ns inside : Namespace}
  {inner closers : List Node} {b : Blueprint} {children : List Blueprint} {node : Node}
  {ids : List NodeId} {settles : NodeId → Bool}

/-- What closes a node has neither children nor an end tag. -/
theorem closer_bare
    (grows : Trunk d source here ns start inner (ids.filter settles) b children inside node closers)
    {closer : Node} (hmem : closer ∈ closers) : closer.children = [] ∧ closer.endTag? = none := by
  have htree := grows.inTree_closers closer hmem
  refine ⟨List.eq_nil_iff_forall_not_mem.2 fun i hi => ?_, (Node.links_of_inTree htree).1⟩
  rw [Node.inTree_of_isBranching (Node.isBranching_of_mem_children hi)] at htree
  exact absurd htree.symm Bool.false_ne_true

/-- The end tag of a node is what closes it. -/
theorem exists_endTag
    (grows : Trunk d source here ns start inner (ids.filter settles) b children inside node closers)
    {i : NodeId} (hi : node.endTag? = some i) :
    ∃ n ∈ closers, n.id = i ∧ node.id < i ∧ n.inTree = false ∧ n.pair? = some node.id := by
  rcases grows.closers_cases with ⟨-, hnone, -⟩ | ⟨closer, rfl, hlinked⟩
  · exact absurd (hnone.symm.trans hi) (by simp)
  · obtain ⟨rfl, hpair⟩ := hlinked.pair?_of_endTag? hi
    have hmem := List.mem_singleton_self closer
    refine ⟨closer, hmem, rfl, ?_, grows.inTree_closers closer hmem, hpair⟩
    rw [(grows.closers_place closer hmem).1, grows.id_eq]
    exact Nat.lt_of_lt_of_le (Nat.lt_succ_self _) (Nat.le_add_right _ _)

/-- A top that hangs from the node is under it. -/
theorem exists_isUnder (content : Grove (start + 1) inner ids)
    (grows : Trunk d source here ns start inner (ids.filter settles) b children inside node closers)
    {i : NodeId} (hi : i ∈ ids) (hhangs : HangsFrom inner (some start) i) :
    ∃ n ∈ inner, n.id = i ∧ n.IsUnder node := by
  obtain ⟨n, hn, rfl, hparent⟩ := hhangs
  obtain ⟨m, hm, hid, htree⟩ := content.tops_mem n.id hi
  obtain rfl := content.eq_of_id hm hn hid
  exact ⟨m, hm, rfl, htree, grows.id_eq ▸ (content.top_mem hi).1, grows.id_eq ▸ hparent⟩

/-- **A node takes as its children those tops that stand right below it**; the others are tops
beside it. -/
theorem trunk (content : Grove (start + 1) inner ids)
    (grows : Trunk d source here ns start inner (ids.filter settles) b children inside node closers)
    (hkids : ∀ i ∈ ids.filter settles, HangsFrom inner (some start) i) :
    Grove start (node :: (inner ++ closers))
      (start :: ids.filter fun i => !settles i) where
  map_id := by
    simp only [List.map_cons, List.map_append, List.length_cons, List.length_append,
      List.range'_succ, grows.id_eq, grows.map_id_closers, content.map_id]
    rw [List.range'_append_1]
  tops_pairwise := by
    refine List.pairwise_cons.2 ⟨fun i hi => ?_, content.tops_pairwise.filter _⟩
    exact (content.top_mem (List.mem_of_mem_filter hi)).1
  tops_mem := by
    rintro i (_ | ⟨_, hi⟩)
    · exact ⟨node, List.mem_cons_self, grows.id_eq, Node.inTree_of_isBranching grows.isBranching_eq⟩
    · obtain ⟨n, hn, htop⟩ := content.tops_mem i (List.mem_of_mem_filter hi)
      exact ⟨n, List.mem_cons_of_mem _ (List.mem_append_left _ hn), htop⟩
  children_pairwise := by
    rw [List.forall_mem_cons, List.forall_mem_append, grows.children_eq]
    refine ⟨content.tops_pairwise.filter _, content.children_pairwise, fun closer hmem => ?_⟩
    rw [(closer_bare grows hmem).1]
    exact List.Pairwise.nil
  child := by
    rw [List.forall_mem_cons, List.forall_mem_append, grows.children_eq]
    refine ⟨fun i hi => ⟨?_, ?_⟩, fun p hp i hi => ?_, fun closer hmem i hi => ?_⟩
    · obtain ⟨hi, hsettles⟩ := List.mem_filter.1 hi
      have hne : i ≠ start := Nat.ne_of_gt (content.top_mem hi).1
      simp [hne, hsettles]
    · obtain ⟨n, hn, hunder⟩ :=
        exists_isUnder content grows (List.mem_of_mem_filter hi) (hkids i hi)
      exact ⟨n, List.mem_cons_of_mem _ (List.mem_append_left _ hn), hunder⟩
    · obtain ⟨hnot, n, hn, rfl, hunder⟩ := content.child p hp i hi
      refine ⟨?_, n, List.mem_cons_of_mem _ (List.mem_append_left _ hn), rfl, hunder⟩
      rintro (_ | ⟨_, htop⟩)
      · exact absurd (content.id_mem hn).1 (Nat.not_succ_le_self _)
      · exact hnot (List.mem_of_mem_filter htop)
    · exact absurd ((closer_bare grows hmem).1 ▸ hi) List.not_mem_nil
  owned := by
    rw [List.forall_mem_cons, List.forall_mem_append]
    refine ⟨fun _ => Or.inl ?_, fun n hn htree => ?_, fun closer hmem htree => ?_⟩
    · exact grows.id_eq ▸ List.mem_cons_self
    · rcases content.owned n hn htree with htop | ⟨p, hp, hi⟩
      · by_cases hsettles : settles n.id = true
        · refine Or.inr ⟨node, List.mem_cons_self, ?_⟩
          exact grows.children_eq ▸ List.mem_filter.2 ⟨htop, hsettles⟩
        · exact Or.inl (List.mem_cons_of_mem _ (List.mem_filter.2 ⟨htop, by simp [hsettles]⟩))
      · exact Or.inr ⟨p, List.mem_cons_of_mem _ (List.mem_append_left _ hp), hi⟩
    · rw [grows.inTree_closers closer hmem] at htree
      exact absurd htree Bool.false_ne_true
  endTag := by
    rw [List.forall_mem_cons, List.forall_mem_append]
    refine ⟨fun i hi => ?_, fun p hp i hi => ?_, fun closer hmem i hi => ?_⟩
    · obtain ⟨n, hn, hpair⟩ := exists_endTag grows hi
      exact ⟨n, List.mem_cons_of_mem _ (List.mem_append_right _ hn), hpair⟩
    · obtain ⟨n, hn, hpair⟩ := content.endTag p hp i hi
      exact ⟨n, List.mem_cons_of_mem _ (List.mem_append_left _ hn), hpair⟩
    · exact absurd ((closer_bare grows hmem).2.symm.trans hi) (by simp)

end Trunk

/-! ## Moving a top -/

/-- **What a move of tops to a position does to the other nodes**: those that are moved hang from
its parent, and the other tops stand where they did. -/
structure Moves (position : Position) (ids tops : List NodeId) (nodes nodes' : List Node) :
    Prop where
  moved : ∀ i ∈ ids, HangsFrom nodes' position.parent i
  kept : ∀ place, ∀ i ∈ tops, i ∉ ids → StandsAt nodes place i → StandsAt nodes' place i

section Moving

variable {a : Arena} {before : List Node}

/-- What is linked from a node of the grove is a child or an end tag of it. -/
theorem exists_of_mem_links (h : Grove before.length nodes tops) (ha : a.toList = before ++ nodes)
    {p i : NodeId} (hp : before.length ≤ p) (hi : i ∈ a.links p) :
    ∃ m ∈ nodes, m.id = p ∧ (i ∈ m.children ∨ m.endTag? = some i) := by
  obtain ⟨k, rfl⟩ := Nat.exists_eq_add_of_le hp
  rw [Arena.links, ← Array.getElem?_toList, ha, List.getElem?_append_right hp,
    Nat.add_sub_cancel_left] at hi
  cases hk : nodes[k]? with
  | none => simp [hk] at hi
  | some m =>
    obtain ⟨hm, hid⟩ := h.getElem?_eq_some_iff.1 hk
    simp only [hk, List.mem_append, Option.mem_toList] at hi
    exact ⟨m, hm, hid, hi⟩

/-- A child of a node of the grove is linked from it. -/
theorem mem_links_of_mem_children (h : Grove before.length nodes tops)
    (ha : a.toList = before ++ nodes) {p : Node} (hp : p ∈ nodes) {i : NodeId}
    (hi : i ∈ p.children) : i ∈ a.links p.id := by
  obtain ⟨k, hk⟩ := List.getElem?_of_mem hp
  have hid := (h.getElem?_eq_some_iff.1 hk).2
  have hget : a[p.id]? = some p := by
    rw [← Array.getElem?_toList, ha, hid, List.getElem?_append_right (Nat.le_add_right _ _),
      Nat.add_sub_cancel_left, hk]
  rw [Arena.links, hget]
  exact List.mem_append_left _ hi

/-- A node that is linked from another is of the tree exactly if it is a child. -/
theorem inTree_of_link (h : Grove before.length nodes tops) {p n : Node} (hp : p ∈ nodes)
    (hn : n ∈ nodes) (hlink : n.id ∈ p.children ∨ p.endTag? = some n.id) :
    p.id < n.id ∧ (n.IsUnder p ∨ n.inTree = false ∧ n.pair? = some p.id) := by
  rcases hlink with hi | hi
  · have hunder := h.isUnder_of_mem_children hn hp hi
    exact ⟨hunder.lt, Or.inl hunder⟩
  · obtain ⟨m, hm, hid, hlt, htree, hpair⟩ := h.endTag p hp _ hi
    obtain rfl := h.eq_of_id hm hn hid
    exact ⟨hlt, Or.inr ⟨htree, hpair⟩⟩

/-- **In a grove links point forward** and no place is linked twice. -/
theorem branching (h : Grove before.length nodes tops) (ha : a.toList = before ++ nodes) :
    a.Branching before.length := by
  have hlink : ∀ p i : Nat, before.length ≤ p → i ∈ a.links p → ∃ m ∈ nodes, ∃ n ∈ nodes,
      m.id = p ∧ n.id = i ∧ (i ∈ m.children ∨ m.endTag? = some i) := by
    intro p i hp hi
    obtain ⟨m, hm, rfl, hlink⟩ := h.exists_of_mem_links ha hp hi
    rcases hlink with hchild | hend
    · obtain ⟨-, n, hn, rfl, -⟩ := h.child m hm i hchild
      exact ⟨m, hm, n, hn, rfl, rfl, Or.inl hchild⟩
    · obtain ⟨n, hn, rfl, -⟩ := h.endTag m hm i hend
      exact ⟨m, hm, n, hn, rfl, rfl, Or.inr hend⟩
  refine ⟨fun p i hp hi => ?_, fun p q i hp hq hi hi' => ?_, fun p hp => ?_⟩
  · obtain ⟨m, hm, n, hn, rfl, rfl, hlink⟩ := hlink p i hp hi
    exact (h.inTree_of_link hm hn hlink).1
  · obtain ⟨m, hm, n, hn, rfl, rfl, hlinkp⟩ := hlink p i hp hi
    obtain ⟨m', hm', n', hn', rfl, hid, hlinkq⟩ := hlink q n.id hq hi'
    obtain ⟨-, hunder | ⟨htree, hpair⟩⟩ := h.inTree_of_link hm hn hlinkp <;>
      obtain ⟨-, hunder' | ⟨htree', hpair'⟩⟩ := h.inTree_of_link hm' hn hlinkq
    · exact Option.some.inj (hunder.parent.symm.trans hunder'.parent)
    · exact absurd (hunder.inTree.symm.trans htree') (by simp)
    · exact absurd (hunder'.inTree.symm.trans htree) (by simp)
    · exact Option.some.inj (hpair.symm.trans hpair')
  · rw [Arena.links]
    cases hget : a[p]? with
    | none => exact List.nodup_nil
    | some m =>
      have hm : m ∈ nodes := by
        rw [← Array.getElem?_toList, ha, List.getElem?_append_right hp] at hget
        exact List.mem_of_getElem? hget
      refine List.Nodup.append ((h.children_pairwise m hm).imp Nat.ne_of_lt) ?_ ?_
      · cases m.endTag? <;> simp
      · intro i hi hend
        rw [Option.mem_toList] at hend
        obtain ⟨n, hn, rfl, -, htree, -⟩ := h.endTag m hm i hend
        exact absurd ((h.isUnder_of_mem_children hn hm hi).inTree.symm.trans htree) (by simp)

/-- **A node of the tree is carried with a top** if it is the top or its parent is carried. -/
theorem mem_carried_iff (h : Grove before.length nodes tops) (ha : a.toList = before ++ nodes)
    {root n : Node} (hroot : root ∈ nodes) (hn : n ∈ nodes) (htree : n.inTree = true) :
    n.id ∈ a.carried root.id ↔
      n = root ∨ ∃ p ∈ nodes, p.id ∈ a.carried root.id ∧ n.id ∈ p.children := by
  have hbranching := (h.branching ha).mono (h.id_mem hroot).1
  rw [Arena.mem_carried_iff hbranching]
  refine or_congr ⟨h.eq_of_id hn hroot, congrArg Node.id⟩ ⟨?_, ?_⟩
  · rintro ⟨p, hp, hi⟩
    have hle := Nat.le_trans (h.id_mem hroot).1 (Arena.le_of_mem_carried hbranching hp)
    obtain ⟨m, hm, rfl, hlink⟩ := h.exists_of_mem_links ha hle hi
    refine ⟨m, hm, hp, hlink.resolve_right fun hend => ?_⟩
    obtain ⟨c, hc, hid, -, hfalse, -⟩ := h.endTag m hm _ hend
    rw [h.eq_of_id hc hn hid, htree] at hfalse
    exact absurd hfalse (by simp)
  · rintro ⟨p, hp, hmem, hi⟩
    exact ⟨p.id, hmem, h.mem_links_of_mem_children ha hp hi⟩

/-- A child is carried with a top exactly if its parent is. -/
theorem child_mem_carried_iff (h : Grove before.length nodes tops) (ha : a.toList = before ++ nodes)
    {root n p : Node} (hroot : root ∈ nodes) (htop : root.id ∈ tops) (hn : n ∈ nodes)
    (hp : p ∈ nodes) (hchild : n.id ∈ p.children) :
    n.id ∈ a.carried root.id ↔ p.id ∈ a.carried root.id := by
  have hunder := h.isUnder_of_mem_children hn hp hchild
  rw [h.mem_carried_iff ha hroot hn hunder.inTree]
  refine ⟨?_, fun hmem => Or.inr ⟨p, hp, hmem, hchild⟩⟩
  rintro (rfl | ⟨q, hq, hmem, hchild'⟩)
  · exact absurd htop (h.child p hp _ hchild).1
  · have hparent := (h.isUnder_of_mem_children hn hq hchild').parent
    rwa [Option.some.inj (hunder.parent.symm.trans hparent)]

/-- No other top is carried with one. -/
theorem eq_of_top_mem_carried (h : Grove before.length nodes tops) (ha : a.toList = before ++ nodes)
    {root n : Node} (hroot : root ∈ nodes) (hn : n ∈ nodes) (htop : n.id ∈ tops)
    (hmem : n.id ∈ a.carried root.id) : n = root := by
  obtain ⟨m, hm, hid, htree⟩ := h.tops_mem n.id htop
  obtain rfl := h.eq_of_id hm hn hid
  refine ((h.mem_carried_iff ha hroot hm htree).1 hmem).resolve_right ?_
  rintro ⟨p, hp, -, hchild⟩
  exact (h.child p hp _ hchild).1 htop

/-- Nodes that keep their numbers, what they are and the parents of children are the same grove. -/
theorem map (h : Grove start nodes tops) {f : Node → Node} (hid : ∀ n, (f n).id = n.id)
    (hdata : ∀ n, (f n).data = n.data)
    (hparent : ∀ p ∈ nodes, ∀ n ∈ nodes, n.id ∈ p.children → (f n).parent = n.parent) :
    Grove start (nodes.map f) tops := by
  have htree : ∀ n, (f n).inTree = n.inTree := fun n => by
    rw [Node.inTree, Node.kind, hdata]
    rfl
  have hchildren : ∀ n, (f n).children = n.children := fun n => by
    rw [Node.children, hdata]
    rfl
  have hendTag : ∀ n, (f n).endTag? = n.endTag? := fun n => by
    rw [Node.endTag?, Node.element?, hdata]
    rfl
  have hpair : ∀ n, (f n).pair? = n.pair? := fun n => by
    rw [Node.pair?, hdata]
    rfl
  refine ⟨?_, h.tops_pairwise, fun i hi => ?_, ?_, ?_, ?_, ?_⟩
  · rw [List.map_map, List.length_map, ← h.map_id]
    exact List.map_congr_left fun n _ => hid n
  · obtain ⟨n, hn, rfl, htop⟩ := h.tops_mem i hi
    exact ⟨f n, List.mem_map_of_mem hn, hid n, (htree n).trans htop⟩
  · rw [List.forall_mem_map]
    exact fun p hp => (hchildren p).symm ▸ h.children_pairwise p hp
  · rw [List.forall_mem_map]
    intro p hp i hi
    rw [hchildren] at hi
    obtain ⟨hnot, n, hn, rfl, hunder⟩ := h.child p hp i hi
    refine ⟨hnot, f n, List.mem_map_of_mem hn, hid n, ?_, ?_, ?_⟩
    · exact (htree n).trans hunder.inTree
    · rw [hid, hid]
      exact hunder.lt
    · rw [hid, hparent p hp n hn hi, hunder.parent]
  · rw [List.forall_mem_map]
    intro n hn hmem
    rw [hid]
    refine (h.owned n hn ((htree n).symm.trans hmem)).imp_right ?_
    rintro ⟨p, hp, hi⟩
    exact ⟨f p, List.mem_map_of_mem hp, (hchildren p).symm ▸ hi⟩
  · rw [List.forall_mem_map]
    intro p hp i hi
    rw [hendTag] at hi
    obtain ⟨n, hn, rfl, hlt, hfalse, heq⟩ := h.endTag p hp i hi
    refine ⟨f n, List.mem_map_of_mem hn, hid n, ?_, (htree n).trans hfalse, ?_⟩
    · rwa [hid]
    · rw [hpair, hid, heq]

/-- **A top that is moved takes its tree along** and hangs where it was moved to; the other tops
stay where they are. -/
theorem relocate (h : Grove before.length nodes tops) (ha : a.toList = before ++ nodes)
    (position : Position) {i : NodeId} (hi : i ∈ tops) :
    ∃ nodes', (a.relocate position i).toList = before ++ nodes' ∧
      Grove before.length nodes' tops ∧ Moves position [i] tops nodes nodes' := by
  obtain ⟨root, hroot, rfl, hrootTree⟩ := h.tops_mem i hi
  let f : Node → Node := fun n => n.moved root position (a.carried root.id)
  have hparent : ∀ n ∈ nodes, n ≠ root → (f n).parent = n.parent := fun n hn hne =>
    if_neg fun hid => hne (h.eq_of_id hn hroot hid.symm)
  refine ⟨nodes.map f, Arena.toList_relocate position (h.branching ha) ha h.map_id hroot,
    h.map (fun _ => rfl) (fun _ => rfl) fun p hp n hn hchild => hparent n hn ?_, ?_, ?_⟩
  · rintro rfl
    exact (h.child p hp _ hchild).1 hi
  · rw [List.forall_mem_singleton]
    exact ⟨f root, List.mem_map_of_mem hroot, rfl, if_pos rfl⟩
  · rintro place j htop hne ⟨n, hn, rfl, hplace⟩
    have hother : n ≠ root := fun heq => hne (heq ▸ List.mem_singleton_self _)
    refine ⟨f n, List.mem_map_of_mem hn, rfl, (hparent n hn hother).trans hplace.1, ?_⟩
    refine (if_neg fun hmem => hother ?_).trans hplace.2
    exact h.eq_of_top_mem_carried ha hroot hn htop hmem

/-- **Several tops are moved to one position**, each with its tree. -/
theorem adopt (h : Grove before.length nodes tops) (ha : a.toList = before ++ nodes)
    (position : Position) {ids : List NodeId} (hids : ids ⊆ tops) :
    ∃ nodes', (a.adopt position ids).toList = before ++ nodes' ∧
      Grove before.length nodes' tops ∧ Moves position ids tops nodes nodes' := by
  induction ids generalizing a nodes with
  | nil => exact ⟨nodes, ha, h, by simp, fun _ _ _ _ hstands => hstands⟩
  | cons i ids ih =>
    obtain ⟨hi, hids⟩ := List.cons_subset.1 hids
    obtain ⟨first, hfirst, hgrove, hmoves⟩ := h.relocate ha position hi
    obtain ⟨nodes', hnodes, hgrove', hmoves'⟩ := ih hgrove hfirst hids
    refine ⟨nodes', hnodes, hgrove', List.forall_mem_cons.2 ⟨?_, hmoves'.moved⟩, ?_⟩
    · by_cases hmem : i ∈ ids
      · exact hmoves'.moved i hmem
      · obtain ⟨n, hn, hid, hparent⟩ := hmoves.moved i (List.mem_singleton_self i)
        exact (hmoves'.kept ⟨_, n.depth⟩ i hi hmem ⟨n, hn, hid, hparent, rfl⟩).hangsFrom
    · intro place j htop hnot hstands
      rw [List.mem_cons, not_or] at hnot
      refine hmoves'.kept place j htop hnot.2 (hmoves.kept place j htop ?_ hstands)
      exact mt List.mem_singleton.1 hnot.1

/-- A top that is said to stand at a position does. -/
theorem standsAt_of_mem_tops (h : Grove before.length nodes tops) (ha : a.toList = before ++ nodes)
    {position : Position} {i : NodeId} (hi : i ∈ tops) (hstands : a.standsAt position i = true) :
    StandsAt nodes position i := by
  obtain ⟨k, rfl⟩ := Nat.exists_eq_add_of_le (h.top_mem hi).1
  rw [Arena.standsAt, ← Array.getElem?_toList, ha,
    List.getElem?_append_right (Nat.le_add_right _ _), Nat.add_sub_cancel_left,
    Option.any_eq_true] at hstands
  obtain ⟨n, hk, hplace⟩ := hstands
  rw [Bool.and_eq_true, beq_iff_eq, beq_iff_eq] at hplace
  obtain ⟨hn, hid⟩ := h.getElem?_eq_some_iff.1 hk
  exact ⟨n, hn, hid, hplace⟩

/-- **Where the tops that do not stand at a position are moved there**, all tops hang from its
parent, and those that stood there still do. -/
theorem adopt_displaced (h : Grove before.length nodes tops) (ha : a.toList = before ++ nodes)
    (position : Position) :
    ∃ nodes', (a.adopt position (tops.filter fun i => !a.standsAt position i)).toList =
        before ++ nodes' ∧ Grove before.length nodes' tops ∧
      ∀ i ∈ tops, HangsFrom nodes' position.parent i ∧
        (a.standsAt position i = true → StandsAt nodes' position i) := by
  have hsub : (tops.filter fun i => !a.standsAt position i) ⊆ tops := List.filter_subset_self _
  obtain ⟨nodes', hnodes, hgrove, hmoves⟩ := h.adopt ha position hsub
  refine ⟨nodes', hnodes, hgrove, fun i hi => ?_⟩
  by_cases hstands : a.standsAt position i = true
  · have hkept := hmoves.kept position i hi (by simp [hstands])
      (h.standsAt_of_mem_tops ha hi hstands)
    exact ⟨hkept.hangsFrom, fun _ => hkept⟩
  · have hmoved := hmoves.moved i (List.mem_filter.2 ⟨hi, by simp [hstands]⟩)
    exact ⟨hmoved, fun hhere => absurd hhere hstands⟩

end Moving

end Grove

end Markup
