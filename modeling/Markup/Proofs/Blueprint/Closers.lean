import Markup.Proofs.Blueprint.Grove

/-!
# Proofs/Blueprint/Closers — what closes an element, and where it is left when the element moves

An element is closed by its end tag, which it links to, or by a ghost, which nothing links to: the
ghost of an element is **the first after it that is left over** once the elements in between have
taken theirs (`ghostIn?`).  What closes an element is built beside it.  A node that is moved takes
the end tags of all that hangs from it along in depth, but neither their parents nor any ghost, so
`Escorted.moved` says what remains of "beside it" by the kinds of nodes that are never moved.
-/

namespace Markup

/-- Only elements have end tags… -/
theorem Node.kind_of_endTag? {n : Node} {t : NodeId} (h : n.endTag? = some t) :
    n.kind = .element := by
  unfold endTag? element? at h
  unfold kind
  split at h <;> simp_all

/-- …or ghosts. -/
theorem Node.kind_of_isImpliedClose {n : Node} (h : n.isImpliedClose = true) :
    n.kind = .element := by
  unfold isImpliedClose element? at h
  unfold kind
  split at h <;> simp_all

/-- What closes an element is not of the tree. -/
theorem Node.inTree_of_closer {n : Node} (h : n.isGhost = true ∨ n.pair?.isSome = true) :
    n.inTree = false := by
  rw [inTree]
  rcases h with h | h
  · simp [beq_iff_eq.1 h]
  · unfold pair? at h
    unfold kind
    split at h <;> simp_all

/-! ## Ghosts and their elements -/

/-- What a node has or is of ghosts is said by what it is. -/
theorem Node.isImpliedClose_congr {n m : Node} (h : n.data = m.data) :
    n.isImpliedClose = m.isImpliedClose := by
  rw [isImpliedClose, element?, h]
  rfl

theorem Node.isGhost_congr {n m : Node} (h : n.data = m.data) : n.isGhost = m.isGhost := by
  rw [isGhost, kind, h]
  rfl

/-- **The ghost left over for an element** that these nodes follow, if `pending` of the elements in
between still wait for theirs. -/
def ghostIn? : Nat → List Node → Option Node
  | _, [] => none
  | pending, n :: nodes =>
    if n.isImpliedClose then ghostIn? (pending + 1) nodes
    else if n.isGhost then
      match pending with
      | 0 => some n
      | pending + 1 => ghostIn? pending nodes
    else ghostIn? pending nodes

/-- How many elements wait for their ghosts after these nodes, if `pending` did before; none if a
ghost is left over. -/
def waiting? : Nat → List Node → Option Nat
  | pending, [] => some pending
  | pending, n :: nodes =>
    if n.isImpliedClose then waiting? (pending + 1) nodes
    else if n.isGhost then
      match pending with
      | 0 => none
      | pending + 1 => waiting? pending nodes
    else waiting? pending nodes

/-- **A node closes an element**: as the end tag that names it, or as the ghost left over for it. -/
inductive CloserOf (nodes : List Node) (n c : Node) : Prop
  | endTag (pair : c.pair? = some n.id)
  | ghost (implied : n.isImpliedClose = true)
      (found : ghostIn? 0 (nodes.drop (n.id + 1)) = some c)

section Ghosts

variable {pending : Nat} {nodes rest : List Node} {n c : Node}

theorem ghostIn?_implied (h : n.isImpliedClose = true) :
    ghostIn? pending (n :: nodes) = ghostIn? (pending + 1) nodes := by
  simp [ghostIn?, h]

theorem ghostIn?_ghost_zero (himplied : n.isImpliedClose = false) (h : n.isGhost = true) :
    ghostIn? 0 (n :: nodes) = some n := by
  simp [ghostIn?, himplied, h]

theorem ghostIn?_ghost_succ (himplied : n.isImpliedClose = false) (h : n.isGhost = true) :
    ghostIn? (pending + 1) (n :: nodes) = ghostIn? pending nodes := by
  simp [ghostIn?, himplied, h]

theorem ghostIn?_other (himplied : n.isImpliedClose = false) (h : n.isGhost = false) :
    ghostIn? pending (n :: nodes) = ghostIn? pending nodes := by
  simp [ghostIn?, himplied, h]

/-- A ghost that is found stays found as nodes follow. -/
theorem ghostIn?_append (h : ghostIn? pending nodes = some c) :
    ghostIn? pending (nodes ++ rest) = some c := by
  fun_induction ghostIn? pending nodes with
  | case1 => simp at h
  | case2 _ _ _ himplied ih => rw [List.cons_append, ghostIn?_implied himplied, ih h]
  | case3 _ _ himplied hghost =>
    rw [List.cons_append, ghostIn?_ghost_zero (Bool.eq_false_iff.2 himplied) hghost, h]
  | case4 _ _ himplied hghost _ ih =>
    rw [List.cons_append, ghostIn?_ghost_succ (Bool.eq_false_iff.2 himplied) hghost, ih h]
  | case5 _ _ _ himplied hghost ih =>
    rw [List.cons_append,
      ghostIn?_other (Bool.eq_false_iff.2 himplied) (Bool.eq_false_iff.2 hghost), ih h]

theorem of_ghostIn? (h : ghostIn? pending nodes = some c) : c ∈ nodes ∧ c.isGhost = true := by
  fun_induction ghostIn? pending nodes with
  | case1 => simp at h
  | case3 _ _ _ hghost =>
    obtain rfl := Option.some.inj h
    exact ⟨List.mem_cons_self, hghost⟩
  | case2 _ _ _ _ ih | case4 _ _ _ _ _ ih | case5 _ _ _ _ _ ih =>
    exact (ih h).imp_left (List.mem_cons_of_mem _)

/-- **Nodes that leave no ghost over** are passed by. -/
theorem ghostIn?_of_waiting? {left : Nat} (h : waiting? pending nodes = some left) :
    ghostIn? pending (nodes ++ rest) = ghostIn? left rest := by
  fun_induction waiting? pending nodes with
  | case1 =>
    obtain rfl := Option.some.inj h
    rfl
  | case2 _ _ _ himplied ih => rw [List.cons_append, ghostIn?_implied himplied, ih h]
  | case3 => simp at h
  | case4 _ _ himplied hghost _ ih =>
    rw [List.cons_append, ghostIn?_ghost_succ (Bool.eq_false_iff.2 himplied) hghost, ih h]
  | case5 _ _ _ himplied hghost ih =>
    rw [List.cons_append,
      ghostIn?_other (Bool.eq_false_iff.2 himplied) (Bool.eq_false_iff.2 hghost), ih h]

theorem waiting?_append (pending : Nat) (nodes rest : List Node) :
    waiting? pending (nodes ++ rest) =
      (waiting? pending nodes).bind fun left => waiting? left rest := by
  fun_induction waiting? pending nodes <;> simp_all [waiting?]

/-- Ghosts are found by what the nodes are, wherever these stand. -/
theorem ghostIn?_map {f : Node → Node} (hdata : ∀ n, (f n).data = n.data) :
    ghostIn? pending (nodes.map f) = (ghostIn? pending nodes).map f := by
  fun_induction ghostIn? pending nodes <;>
    simp_all [ghostIn?, Node.isImpliedClose_congr (hdata _), Node.isGhost_congr (hdata _)]

theorem waiting?_map {f : Node → Node} (hdata : ∀ n, (f n).data = n.data) :
    waiting? pending (nodes.map f) = waiting? pending nodes := by
  fun_induction waiting? pending nodes <;>
    simp_all [waiting?, Node.isImpliedClose_congr (hdata _), Node.isGhost_congr (hdata _)]

end Ghosts

/-! ## Closers beside their elements -/

/-- Which of the nodes that have children are never moved. -/
structure Stays where
  elements : Bool := false
  blocks : Bool := false

/-- Nodes of the kind are never moved. -/
def Stays.of (stays : Stays) : NodeKind → Bool
  | .element => stays.elements
  | .block => stays.blocks
  | _ => false

/-- **What is left of standing beside an element** where nodes of some kinds stay and others may be
moved: an end tag keeps the depth; if elements stay, the parent is kept, and if nothing that has
children is moved, the depth is. -/
structure Follows (stays : Stays) (n c : Node) : Prop where
  endTag : c.isGhost = false → c.depth = n.depth
  parent : stays.elements = true → c.parent = n.parent
  depth : stays.elements = true → stays.blocks = true → c.depth = n.depth

/-- What stands beside an element follows it. -/
theorem Follows.of_place {stays : Stays} {n c : Node} (hparent : c.parent = n.parent)
    (hdepth : c.depth = n.depth) : Follows stays n c :=
  ⟨fun _ => hdepth, fun _ => hparent, fun _ _ => hdepth⟩

/-- **Nodes among which each element whose close is implied has a ghost that follows it**, and each
ghost such an element, whatever comes after them. -/
structure GhostsFollow (stays : Stays) (nodes : List Node) : Prop where
  /-- No ghost is left over, and none is missing. -/
  balanced : ∀ pending, waiting? pending nodes = some pending
  ghost : ∀ (k : Nat) (n : Node), nodes[k]? = some n → n.isImpliedClose = true →
    ∃ c, ghostIn? 0 (nodes.drop (k + 1)) = some c ∧ Follows stays n c
  element : ∀ c ∈ nodes, c.isGhost = true → ∃ (k : Nat) (n : Node), nodes[k]? = some n ∧
    n.isImpliedClose = true ∧ ghostIn? 0 (nodes.drop (k + 1)) = some c

/-- **Nodes among which each end tag that closes something follows the element** it links to. -/
def EndTagsFollow (stays : Stays) (nodes : List Node) : Prop :=
  ∀ c ∈ nodes, ∀ i, c.pair? = some i →
    ∃ n ∈ nodes, n.id = i ∧ n.endTag? = some c.id ∧ Follows stays n c

section Building

variable {stays : Stays} {nodes others : List Node} {n closer : Node}

theorem GhostsFollow.nil : GhostsFollow stays [] where
  balanced _ := rfl
  ghost _ _ hn := by simp at hn
  element := by simp

/-- **Nodes that follow each other** have the ghosts of both… -/
theorem GhostsFollow.append (h : GhostsFollow stays nodes) (h' : GhostsFollow stays others) :
    GhostsFollow stays (nodes ++ others) where
  balanced pending := by rw [waiting?_append, h.balanced, Option.bind_some, h'.balanced]
  ghost k n hn himplied := by
    rcases Nat.lt_or_ge k nodes.length with hk | hk
    · rw [List.getElem?_append_left hk] at hn
      obtain ⟨c, hc, hfollows⟩ := h.ghost k n hn himplied
      exact ⟨c, by rw [List.drop_append_of_le_length hk, ghostIn?_append hc], hfollows⟩
    · rw [List.getElem?_append_right hk] at hn
      obtain ⟨c, hc, hfollows⟩ := h'.ghost _ n hn himplied
      rw [← Nat.sub_add_comm hk] at hc
      refine ⟨c, ?_, hfollows⟩
      rw [List.drop_append, List.drop_eq_nil_of_le (Nat.le_succ_of_le hk), List.nil_append, hc]
  element c hc hghost := by
    rcases List.mem_append.1 hc with hc | hc
    · obtain ⟨k, n, hn, himplied, hfound⟩ := h.element c hc hghost
      have hk := (List.getElem?_eq_some_iff.1 hn).1
      refine ⟨k, n, by rw [List.getElem?_append_left hk, hn], himplied, ?_⟩
      rw [List.drop_append_of_le_length hk, ghostIn?_append hfound]
    · obtain ⟨k, n, hn, himplied, hfound⟩ := h'.element c hc hghost
      refine ⟨nodes.length + k, n, ?_, himplied, ?_⟩
      · rw [List.getElem?_append_right (Nat.le_add_right _ _), Nat.add_sub_cancel_left, hn]
      · rw [Nat.add_assoc, ← List.drop_drop, List.drop_left, hfound]

/-- …and the end tags. -/
theorem EndTagsFollow.append (h : EndTagsFollow stays nodes) (h' : EndTagsFollow stays others) :
    EndTagsFollow stays (nodes ++ others) := by
  intro c hc i hi
  rcases List.mem_append.1 hc with hc | hc
  · obtain ⟨n, hn, hlinked⟩ := h c hc i hi
    exact ⟨n, List.mem_append_left _ hn, hlinked⟩
  · obtain ⟨n, hn, hlinked⟩ := h' c hc i hi
    exact ⟨n, List.mem_append_right _ hn, hlinked⟩

/-- A node that neither has nor is a ghost. -/
theorem GhostsFollow.single (himplied : n.isImpliedClose = false) (hghost : n.isGhost = false) :
    GhostsFollow stays [n] where
  balanced _ := by simp [waiting?, himplied, hghost]
  ghost k m hm h := by
    obtain rfl := List.mem_singleton.1 (List.mem_of_getElem? hm)
    exact absurd (himplied.symm.trans h) Bool.false_ne_true
  element c hc h := by
    obtain rfl := List.mem_singleton.1 hc
    exact absurd (hghost.symm.trans h) Bool.false_ne_true

/-- A node that is no end tag of an element. -/
theorem EndTagsFollow.single (hpair : n.pair? = none) : EndTagsFollow stays [n] := by
  intro c hc i hi
  obtain rfl := List.mem_singleton.1 hc
  exact absurd (hpair.symm.trans hi) (by simp)

/-- **A ghost follows the element that it is left over for**, around what stands between the two. -/
theorem GhostsFollow.around (h : GhostsFollow stays nodes) (hnghost : n.isGhost = false)
    (hn : n.isImpliedClose = true) (hcimplied : closer.isImpliedClose = false)
    (hc : closer.isGhost = true) (hfollows : Follows stays n closer) :
    GhostsFollow stays (n :: (nodes ++ [closer])) := by
  have hfound : ghostIn? 0 (nodes ++ [closer]) = some closer := by
    rw [ghostIn?_of_waiting? (h.balanced 0), ghostIn?_ghost_zero hcimplied hc]
  refine ⟨fun pending => ?_, fun k m hm himplied => ?_, fun c hmem hghost => ?_⟩
  · have hwaiting : waiting? (pending + 1) (nodes ++ [closer]) = some pending := by
      rw [waiting?_append, h.balanced]
      simp [waiting?, hcimplied, hc]
    simpa [waiting?, hn] using hwaiting
  · cases k with
    | zero =>
      obtain rfl := Option.some.inj hm
      exact ⟨closer, hfound, hfollows⟩
    | succ k =>
      rw [List.getElem?_cons_succ] at hm
      rcases Nat.lt_or_ge k nodes.length with hk | hk
      · rw [List.getElem?_append_left hk] at hm
        obtain ⟨c, hfound, hfollows⟩ := h.ghost k m hm himplied
        refine ⟨c, ?_, hfollows⟩
        rw [List.drop_succ_cons, List.drop_append_of_le_length hk, ghostIn?_append hfound]
      · rw [List.getElem?_append_right hk] at hm
        obtain rfl := List.mem_singleton.1 (List.mem_of_getElem? hm)
        exact absurd (hcimplied.symm.trans himplied) Bool.false_ne_true
  · rcases List.mem_cons.1 hmem with rfl | hmem
    · exact absurd (hnghost.symm.trans hghost) Bool.false_ne_true
    · rcases List.mem_append.1 hmem with hmem | hmem
      · obtain ⟨k, m, hm, himplied, hfound⟩ := h.element c hmem hghost
        have hk := (List.getElem?_eq_some_iff.1 hm).1
        refine ⟨k + 1, m, ?_, himplied, ?_⟩
        · rw [List.getElem?_cons_succ, List.getElem?_append_left hk, hm]
        · rw [List.drop_succ_cons, List.drop_append_of_le_length hk, ghostIn?_append hfound]
      · obtain rfl := List.mem_singleton.1 hmem
        exact ⟨0, n, rfl, hn, hfound⟩

/-- **An end tag follows the element that links to it**, around what stands between the two. -/
theorem EndTagsFollow.around (h : EndTagsFollow stays nodes) (hn : n.pair? = none)
    (hlink : n.endTag? = some closer.id) (hpair : closer.pair? = some n.id)
    (hfollows : Follows stays n closer) : EndTagsFollow stays (n :: (nodes ++ [closer])) := by
  intro c hc i hi
  rcases List.mem_cons.1 hc with rfl | hc
  · exact absurd (hn.symm.trans hi) (by simp)
  · rcases List.mem_append.1 hc with hc | hc
    · obtain ⟨m, hm, hlinked⟩ := h c hc i hi
      exact ⟨m, List.mem_cons_of_mem _ (List.mem_append_left _ hm), hlinked⟩
    · obtain rfl := List.mem_singleton.1 hc
      exact ⟨n, List.mem_cons_self, Option.some.inj (hpair.symm.trans hi), hlink, hfollows⟩

end Building

/-- Nodes among which what closes an element follows it. -/
structure Escorted (stays : Stays) (nodes : List Node) : Prop where
  ghosts : GhostsFollow stays nodes
  endTags : EndTagsFollow stays nodes

namespace Escorted

variable {stays : Stays} {nodes others : List Node}

theorem nil : Escorted stays [] := ⟨GhostsFollow.nil, by simp [EndTagsFollow]⟩

theorem append (h : Escorted stays nodes) (h' : Escorted stays others) :
    Escorted stays (nodes ++ others) :=
  ⟨h.ghosts.append h'.ghosts, h.endTags.append h'.endTags⟩

theorem leaf (kind : Leaf) (here : Position) (ns : Namespace) (id : NodeId) (token : Token) :
    Escorted stays [kind.node here ns id token] :=
  have hlinks := kind.links_node here ns id token
  ⟨GhostsFollow.single hlinks.2.2.1 hlinks.2.2.2.1, EndTagsFollow.single hlinks.1⟩

/-- **What closes a node is built beside it.** -/
theorem trunk {d : Dialect} {source : Source} {here : Position} {ns inside : Namespace} {id : Nat}
    {inner closers : List Node} {kids : List NodeId} {b : Blueprint} {children : List Blueprint}
    {node : Node} (h : Escorted stays inner)
    (grows : Trunk d source here ns id inner kids b children inside node closers) :
    Escorted stays (node :: (inner ++ closers)) := by
  obtain ⟨hpair, hghost, -⟩ := Node.links_of_isBranching grows.isBranching_eq
  rcases grows.closers_cases with ⟨rfl, -, himplied⟩ | ⟨closer, rfl, hlinked⟩
  · rw [List.append_nil]
    exact append ⟨GhostsFollow.single himplied hghost, EndTagsFollow.single hpair⟩ h
  · have hmem := List.mem_singleton_self closer
    have hcimplied := (Node.links_of_inTree (grows.inTree_closers closer hmem)).2
    obtain ⟨-, hparent, hdepth, -⟩ := grows.closers_place closer hmem
    have hfollows : Follows stays node closer := Follows.of_place
      (hparent.trans grows.place.1.symm) (hdepth.trans grows.place.2.symm)
    cases hlinked with
    | pair link pair implied ghost =>
      refine ⟨?_, h.endTags.around hpair link pair hfollows⟩
      exact (GhostsFollow.single implied hghost).append
        (h.ghosts.append (GhostsFollow.single hcimplied ghost))
    | ghost link pair implied ghost =>
      refine ⟨h.ghosts.around hghost implied hcimplied ghost hfollows, ?_⟩
      exact (EndTagsFollow.single hpair).append (h.endTags.append (EndTagsFollow.single pair))

end Escorted

/-! ## Moving -/

section Moving

variable {stays : Stays} {a : Arena} {before nodes : List Node} {tops : List NodeId}
  {root n c : Node}

/-- A node of the grove is found in the arena at its number. -/
theorem Grove.getElem?_arena (h : Grove before.length nodes tops) (ha : a.toList = before ++ nodes)
    (hn : n ∈ nodes) : a[n.id]? = some n := by
  obtain ⟨k, hk⟩ := List.getElem?_of_mem hn
  rw [← Array.getElem?_toList, ha, (h.getElem?_eq_some_iff.1 hk).2,
    List.getElem?_append_right (Nat.le_add_right _ _), Nat.add_sub_cancel_left, hk]

/-- …so a node that stands at a position is said to. -/
theorem Grove.standsAt_arena (h : Grove before.length nodes tops) (ha : a.toList = before ++ nodes)
    {position : Position} {i : NodeId} (hstands : StandsAt nodes position i) :
    a.standsAt position i = true := by
  obtain ⟨n, hn, rfl, hparent, hdepth⟩ := hstands
  simp [Arena.standsAt, h.getElem?_arena ha hn, hparent, hdepth]

/-- **An end tag is carried with a top exactly if its element is.** -/
theorem Grove.endTag_mem_carried_iff (h : Grove before.length nodes tops)
    (ha : a.toList = before ++ nodes) (hroot : root ∈ nodes) (htree : root.inTree = true)
    (hn : n ∈ nodes) (hc : c ∈ nodes) (hlink : n.endTag? = some c.id) :
    c.id ∈ a.carried root.id ↔ n.id ∈ a.carried root.id := by
  have hbranching := (h.branching ha).mono (h.id_mem hroot).1
  have hmem : c.id ∈ a.links n.id := by
    rw [Arena.links, h.getElem?_arena ha hn]
    exact List.mem_append_right _ (Option.mem_toList.2 hlink)
  have hcloser := (h.inTree_of_link hn hc (Or.inr hlink)).2
  rw [Arena.mem_carried_iff hbranching]
  constructor
  · rintro (heq | ⟨p, hp, hlink'⟩)
    · obtain ⟨m, hm, hid, -, hfalse, -⟩ := h.endTag n hn c.id hlink
      obtain rfl := h.eq_of_id hm hroot (hid.trans heq)
      exact absurd (htree.symm.trans hfalse) (by simp)
    · have hle := Nat.le_trans (h.id_mem hroot).1 (Arena.le_of_mem_carried hbranching hp)
      rwa [(h.branching ha).unique n.id p c.id (h.id_mem hn).1 hle hmem hlink']
  · exact fun hcarried => Or.inr ⟨n.id, hcarried, hmem⟩

/-- A node without children or an end tag is carried alone. -/
theorem Grove.eq_of_mem_carried (h : Grove before.length nodes tops)
    (ha : a.toList = before ++ nodes) (hroot : root ∈ nodes) (hleaf : root.isBranching = false)
    {i : NodeId} (hi : i ∈ a.carried root.id) : i = root.id := by
  have hbranching := (h.branching ha).mono (h.id_mem hroot).1
  have hend : root.endTag? = none := by
    by_contra hsome
    obtain ⟨t, ht⟩ := Option.ne_none_iff_exists'.1 hsome
    rw [Node.isBranching, Node.kind_of_endTag? ht] at hleaf
    exact absurd hleaf (by decide)
  have hnone : a.links root.id = [] := by
    rw [Arena.links, h.getElem?_arena ha hroot]
    simp [Node.children_of_isBranching hleaf, hend]
  induction i using Nat.strongRecOn with
  | ind i ih =>
    rcases (Arena.mem_carried_iff hbranching).1 hi with rfl | ⟨p, hp, hlink⟩
    · rfl
    · have hle := Arena.le_of_mem_carried hbranching hp
      obtain rfl := ih p (hbranching.forward p i hle hlink) hp
      exact absurd (hnone ▸ hlink) List.not_mem_nil

/-- **What follows an element still does when a node of another kind is moved**: if elements stay,
neither of the two is the node that takes another parent, and if nothing with children is moved, the
node is moved alone. -/
theorem Follows.moved (hfollows : Follows stays n c) (h : Grove before.length nodes tops)
    (ha : a.toList = before ++ nodes) (position : Position) (hroot : root ∈ nodes)
    (htree : root.inTree = true) (hmoves : stays.of root.kind = false) (hn : n ∈ nodes)
    (hc : c ∈ nodes) (helement : n.kind = .element) (hcloser : c.inTree = false)
    (hlink : c.isGhost = false → n.endTag? = some c.id) :
    Follows stays (n.moved root position (a.carried root.id))
      (c.moved root position (a.carried root.id)) := by
  have hnc : root.id ≠ c.id := fun hid => by
    rw [← h.eq_of_id hroot hc hid, htree] at hcloser
    exact absurd hcloser (by simp)
  refine ⟨fun hghost => ?_, fun hstays => ?_, fun hstays hblocks => ?_⟩
  · have hcarried := h.endTag_mem_carried_iff ha hroot htree hn hc (hlink hghost)
    simp only [Node.moved, hcarried, hfollows.endTag hghost]
  · have hnn : root.id ≠ n.id := fun hid => by
      rw [h.eq_of_id hroot hn hid, helement, Stays.of, hstays] at hmoves
      exact absurd hmoves (by simp)
    simp only [Node.moved, if_neg hnn, if_neg hnc, hfollows.parent hstays]
  · have hleaf : root.isBranching = false := by
      rw [Node.isBranching, Bool.or_eq_false_iff, beq_eq_false_iff_ne, beq_eq_false_iff_ne]
      exact ⟨fun hkind => by simp [hkind, Stays.of, hstays] at hmoves,
        fun hkind => by simp [hkind, Stays.of, hblocks] at hmoves⟩
    have hnn : root.id ≠ n.id := fun hid => by
      rw [h.eq_of_id hroot hn hid, helement, Stays.of, hstays] at hmoves
      exact absurd hmoves (by simp)
    have hmem : n.id ∉ a.carried root.id := fun hi =>
      hnn (h.eq_of_mem_carried ha hroot hleaf hi).symm
    have hcmem : c.id ∉ a.carried root.id := fun hi =>
      hnc (h.eq_of_mem_carried ha hroot hleaf hi).symm
    simp only [Node.moved, if_neg hmem, if_neg hcmem, hfollows.depth hstays hblocks]

/-- **Closers follow their elements when a node of a kind that may be moved is.** -/
theorem Escorted.moved (hescorted : Escorted stays nodes) (h : Grove before.length nodes tops)
    (ha : a.toList = before ++ nodes) (position : Position) (hroot : root ∈ nodes)
    (htree : root.inTree = true) (hmoves : stays.of root.kind = false) :
    Escorted stays (nodes.map fun n => n.moved root position (a.carried root.id)) := by
  have hdata : ∀ n : Node, (n.moved root position (a.carried root.id)).data = n.data := fun _ => rfl
  obtain ⟨hghosts, hendTags⟩ := hescorted
  have hmoved : ∀ n ∈ nodes, ∀ c ∈ nodes, Follows stays n c → n.kind = .element →
      c.inTree = false → (c.isGhost = false → n.endTag? = some c.id) →
        Follows stays (n.moved root position (a.carried root.id))
          (c.moved root position (a.carried root.id)) :=
    fun n hn c hc hfollows helement hcloser hlink =>
      hfollows.moved h ha position hroot htree hmoves hn hc helement hcloser hlink
  refine ⟨⟨fun pending => ?_, fun k m hm himplied => ?_, ?_⟩, ?_⟩
  · rw [waiting?_map hdata, hghosts.balanced]
  · rw [List.getElem?_map, Option.map_eq_some_iff] at hm
    obtain ⟨n, hn, rfl⟩ := hm
    obtain ⟨c, hfound, hfollows⟩ := hghosts.ghost k n hn himplied
    obtain ⟨hc, hghost⟩ := of_ghostIn? hfound
    refine ⟨_, by rw [← List.map_drop, ghostIn?_map hdata, hfound]; rfl, ?_⟩
    refine hmoved n (List.mem_of_getElem? hn) c (List.mem_of_mem_drop hc) hfollows ?_ ?_ ?_
    · exact Node.kind_of_isImpliedClose himplied
    · exact Node.inTree_of_closer (Or.inl hghost)
    · exact fun hfalse => absurd (hghost.symm.trans hfalse) (by simp)
  · rw [List.forall_mem_map]
    intro c hc hghost
    obtain ⟨k, n, hn, himplied, hfound⟩ := hghosts.element c hc hghost
    refine ⟨k, n.moved root position (a.carried root.id), ?_, himplied, ?_⟩
    · rw [List.getElem?_map, hn, Option.map_some]
    · rw [← List.map_drop, ghostIn?_map hdata, hfound, Option.map_some]
  · unfold EndTagsFollow
    rw [List.forall_mem_map]
    intro c hc i hi
    obtain ⟨n, hn, rfl, hlink, hfollows⟩ := hendTags c hc i hi
    refine ⟨_, List.mem_map_of_mem hn, rfl, hlink, hmoved n hn c hc hfollows ?_ ?_ fun _ => hlink⟩
    · exact Node.kind_of_endTag? hlink
    · exact Node.inTree_of_closer (Or.inr (Option.isSome_of_eq_some hi))

/-- …and so they do when several such tops are moved, which leaves every node of its kind. -/
theorem Grove.adopt_escorted (h : Grove before.length nodes tops) (ha : a.toList = before ++ nodes)
    (hescorted : Escorted stays nodes) (position : Position) {ids : List NodeId} (hids : ids ⊆ tops)
    (hmoves : ∀ n ∈ nodes, n.id ∈ ids → stays.of n.kind = false) :
    ∃ nodes', (a.adopt position ids).toList = before ++ nodes' ∧ Escorted stays nodes' ∧
      ∀ n' ∈ nodes', ∃ n ∈ nodes, n.id = n'.id ∧ n.kind = n'.kind := by
  induction ids generalizing a nodes with
  | nil => exact ⟨nodes, ha, hescorted, fun n hn => ⟨n, hn, rfl, rfl⟩⟩
  | cons i ids ih =>
    obtain ⟨hi, hrest⟩ := List.cons_subset.1 hids
    obtain ⟨root, hroot, rfl, htree⟩ := h.tops_mem i hi
    have hstill := hmoves root hroot List.mem_cons_self
    obtain ⟨moved, hmoved, hgrove, -, -⟩ := h.relocate ha position hi
    have heq := Arena.toList_relocate position (h.branching ha) ha h.map_id hroot
    obtain rfl := List.append_cancel_left (hmoved.symm.trans heq)
    have hescorted' := hescorted.moved h ha position hroot htree hstill
    obtain ⟨nodes', hnodes, hescorted'', hkinds⟩ := ih hgrove hmoved hescorted' hrest
      (List.forall_mem_map.2 fun n hn hmem => hmoves n hn (List.mem_cons_of_mem _ hmem))
    refine ⟨nodes', hnodes, hescorted'', fun n' hn' => ?_⟩
    obtain ⟨m, hm, hid, hkind⟩ := hkinds n' hn'
    obtain ⟨n, hn, rfl⟩ := List.mem_map.1 hm
    exact ⟨n, hn, hid, hkind⟩

end Moving

end Markup
