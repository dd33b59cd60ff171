import Markup.Proofs.Blueprint.Grove

/-!
# Proofs/Blueprint/Depths — depths that are in step with the tree

A node is built one deeper than what it is built in, so no depth is further above the depths that
blueprints ask for than there are nodes.  As long as that is a number of 63 bits, a move shifts all
that hangs from a node by the same difference, and **children stay one deeper than their parents**
(`Grove.adopt_stepped`).
-/

namespace Markup

/-! ## The depths asked for -/

namespace Blueprint

mutual

/-- The depths that a blueprint asks for, for itself and for what is built in it. -/
def depths : Blueprint → List Nat
  | .leaf placement .. => placement.depth.toList
  | .block placement _ _ children => placement.depth.toList ++ depthsAll children
  | .element placement _ children _ => placement.depth.toList ++ depthsAll children
  | .group placement _ items => placement.depth.toList ++ depthsAll items
  | .fault _ => []

/-- …and that several do. -/
def depthsAll : List Blueprint → List Nat
  | [] => []
  | b :: bs => b.depths ++ depthsAll bs

end

end Blueprint

/-- A placement takes no depth but the one it asks for and the one where it stands. -/
theorem Placement.depth_resolve_le {placement : Placement} {here : Position} {bound start : Nat}
    (hasked : ∀ depth ∈ placement.depth.toList, depth ≤ bound)
    (hhere : here.depth ≤ bound + start) : (placement.resolve here).depth ≤ bound + start := by
  rw [resolve]
  cases hdepth : placement.depth with
  | none => exact hhere
  | some depth => exact Nat.le_add_right_of_le (hasked depth (by simp [hdepth]))

/-! ## Depths in a grove -/

/-- **Depths in step with the tree**: a child is one deeper than its parent, and no depth is further
above a bound than the node's number. -/
structure Stepped (bound : Nat) (nodes : List Node) : Prop where
  child : ∀ p ∈ nodes, ∀ n ∈ nodes, n.id ∈ p.children → n.depth = p.depth + 1
  le : ∀ n ∈ nodes, n.inTree = true → n.depth ≤ bound + n.id

namespace Stepped

variable {start bound : Nat} {nodes others : List Node} {tops more : List NodeId}

theorem nil : Stepped bound [] := ⟨by simp, by simp⟩

/-- **Groves that follow each other** are in step if both are. -/
theorem append (h : Stepped bound nodes) (h' : Stepped bound others)
    (hgrove : Grove start nodes tops) (hgrove' : Grove (start + nodes.length) others more) :
    Stepped bound (nodes ++ others) where
  child p hp n hn hi := by
    rcases List.mem_append.1 hp with hp | hp
    · obtain ⟨-, m, hm, hid, -⟩ := hgrove.child p hp _ hi
      obtain rfl := (hgrove.append hgrove').eq_of_id (List.mem_append_left _ hm) hn hid
      exact h.child p hp m hm hi
    · obtain ⟨-, m, hm, hid, -⟩ := hgrove'.child p hp _ hi
      obtain rfl := (hgrove.append hgrove').eq_of_id (List.mem_append_right _ hm) hn hid
      exact h'.child p hp m hm hi
  le := List.forall_mem_append.2 ⟨h.le, h'.le⟩

theorem leaf (kind : Leaf) {here : Position} (ns : Namespace) {id : NodeId} (token : Token)
    (hdepth : here.depth ≤ bound + id) : Stepped bound [kind.node here ns id token] := by
  have hlinks := kind.links_node here ns id token
  refine ⟨?_, ?_⟩
  · simp [Node.children_of_isBranching hlinks.2.2.2.2]
  · rw [List.forall_mem_singleton, kind.id_node]
    rcases kind.place_node here ns id token with ⟨-, -, hfalse, -⟩ | ⟨-, hplace, -⟩
    · exact fun htree => absurd (htree.symm.trans hfalse) (by simp)
    · exact fun _ => hplace.symm ▸ hdepth

/-- **A node that takes children right below it is in step with them.** -/
theorem trunk {d : Dialect} {source : Source} {here : Position} {ns inside : Namespace}
    {inner closers : List Node} {b : Blueprint} {children : List Blueprint} {node : Node}
    {ids : List NodeId} {settles : NodeId → Bool} (h : Stepped bound inner)
    (content : Grove (start + 1) inner ids)
    (grows : Trunk d source here ns start inner (ids.filter settles) b children inside node closers)
    (hkids : ∀ i ∈ ids.filter settles, StandsAt inner (here.under start) i)
    (hdepth : here.depth ≤ bound + start) : Stepped bound (node :: (inner ++ closers)) := by
  have hgrove := content.trunk grows fun i hi => (hkids i hi).hangsFrom
  refine ⟨fun p hp n hn hi => ?_, ?_⟩
  · rcases List.mem_cons.1 hp with rfl | hp
    · rw [grows.children_eq] at hi
      obtain ⟨m, hm, hid, -, hmdepth⟩ := hkids n.id hi
      obtain rfl := hgrove.eq_of_id (List.mem_cons_of_mem _ (List.mem_append_left _ hm)) hn hid
      rw [hmdepth, grows.place.2]
      rfl
    · rcases List.mem_append.1 hp with hp | hp
      · obtain ⟨-, m, hm, hid, -⟩ := content.child p hp _ hi
        obtain rfl := hgrove.eq_of_id (List.mem_cons_of_mem _ (List.mem_append_left _ hm)) hn hid
        exact h.child p hp m hm hi
      · exact absurd ((Grove.closer_bare grows hp).1 ▸ hi) List.not_mem_nil
  · rw [List.forall_mem_cons, List.forall_mem_append]
    refine ⟨fun _ => ?_, h.le, fun closer hmem htree => ?_⟩
    · rw [grows.place.2, grows.id_eq]
      exact hdepth
    · rw [grows.inTree_closers closer hmem] at htree
      exact absurd htree Bool.false_ne_true

end Stepped

/-! ## Moving a top -/

section Moving

variable {a : Arena} {bound : Nat} {before nodes : List Node} {tops : List NodeId} {root n : Node}

/-- **What is carried with a top is below it**, by no more than there are nodes up to it. -/
theorem Stepped.exists_of_mem_carried (h : Stepped bound nodes)
    (hgrove : Grove before.length nodes tops) (ha : a.toList = before ++ nodes)
    (hroot : root ∈ nodes) (hn : n ∈ nodes) (htree : n.inTree = true)
    (hmem : n.id ∈ a.carried root.id) :
    ∃ below, n.depth = root.depth + below ∧ below + root.id ≤ n.id := by
  induction hid : n.id using Nat.strongRecOn generalizing n with
  | ind i ih =>
    subst hid
    rcases (hgrove.mem_carried_iff ha hroot hn htree).1 hmem with rfl | ⟨p, hp, hcarried, hi⟩
    · exact ⟨0, rfl, Nat.le_of_eq (Nat.zero_add _)⟩
    · have hlt := (hgrove.isUnder_of_mem_children hn hp hi).lt
      obtain ⟨below, hdepth, hle⟩ := ih p.id hlt hp
        (Node.inTree_of_isBranching (Node.isBranching_of_mem_children hi)) hcarried rfl
      refine ⟨below + 1, ?_, ?_⟩
      · rw [h.child p hp n hn hi, hdepth, Nat.add_assoc]
      · rw [Nat.add_right_comm]
        exact Nat.lt_of_le_of_lt hle hlt

/-- **A node that is taken along keeps its distance to the top**, if depths stay signed
numbers. -/
theorem Stepped.exists_shiftDepth (h : Stepped bound nodes)
    (hgrove : Grove before.length nodes tops) (ha : a.toList = before ++ nodes)
    (hroot : root ∈ nodes) {depth : Nat} (hdepth : depth ≤ bound + root.id)
    (hfits : bound + a.size ≤ Arena.signedBound) (hn : n ∈ nodes) (htree : n.inTree = true)
    (hmem : n.id ∈ a.carried root.id) :
    ∃ below, n.depth = root.depth + below ∧ below + root.id ≤ n.id ∧
      Arena.shiftDepth n.depth root.depth depth = depth + below := by
  obtain ⟨below, hbelow, hle⟩ := h.exists_of_mem_carried hgrove ha hroot hn htree hmem
  have hlt : below + root.id < before.length + nodes.length :=
    Nat.lt_of_le_of_lt hle (hgrove.id_mem hn).2
  have hsize : a.size = before.length + nodes.length := by
    rw [← Array.length_toList, ha, List.length_append]
  refine ⟨below, hbelow, hle, ?_⟩
  rw [Arena.shiftDepth_eq] <;> omega

/-- **Depths stay in step when a top is moved**, and the top stands where it was moved to. -/
theorem Stepped.moved (h : Stepped bound nodes) (hgrove : Grove before.length nodes tops)
    (ha : a.toList = before ++ nodes) (hroot : root ∈ nodes) (htop : root.id ∈ tops)
    (htree : root.inTree = true) {position : Position}
    (hdepth : position.depth ≤ bound + root.id) (hfits : bound + a.size ≤ Arena.signedBound) :
    Stepped bound (nodes.map fun n => n.moved root position (a.carried root.id)) ∧
      StandsAt (nodes.map fun n => n.moved root position (a.carried root.id)) position
        root.id := by
  have hshift : ∀ n ∈ nodes, n.inTree = true → n.id ∈ a.carried root.id →
      ∃ below, n.depth = root.depth + below ∧ below + root.id ≤ n.id ∧
        (n.moved root position (a.carried root.id)).depth = position.depth + below := by
    intro n hn htree hmem
    simp only [Node.moved, if_pos hmem]
    exact h.exists_shiftDepth hgrove ha hroot hdepth hfits hn htree hmem
  have hkept : ∀ n : Node, n.id ∉ a.carried root.id →
      (n.moved root position (a.carried root.id)).depth = n.depth := fun _ hmem => if_neg hmem
  refine ⟨⟨?_, ?_⟩, ?_⟩
  · simp only [List.forall_mem_map]
    intro p hp n hn hi
    have hiff := hgrove.child_mem_carried_iff ha hroot htop hn hp hi
    by_cases hmem : p.id ∈ a.carried root.id
    · obtain ⟨below, hp', -, hpdepth⟩ := hshift p hp
        (Node.inTree_of_isBranching (Node.isBranching_of_mem_children hi)) hmem
      obtain ⟨below', hn', -, hndepth⟩ := hshift n hn
        (hgrove.isUnder_of_mem_children hn hp hi).inTree (hiff.2 hmem)
      have hstep := h.child p hp n hn hi
      omega
    · rw [hkept p hmem, hkept n (hiff.not.2 hmem)]
      exact h.child p hp n hn hi
  · simp only [List.forall_mem_map]
    intro n hn htree
    by_cases hmem : n.id ∈ a.carried root.id
    · obtain ⟨below, -, hle, hndepth⟩ := hshift n hn htree hmem
      calc (n.moved root position (a.carried root.id)).depth
        _ = position.depth + below := hndepth
        _ ≤ bound + root.id + below := Nat.add_le_add_right hdepth below
        _ = bound + (below + root.id) := by rw [Nat.add_assoc, Nat.add_comm below]
        _ ≤ bound + n.id := Nat.add_le_add_left hle bound
    · rw [hkept n hmem]
      exact h.le n hn htree
  · have hself : root.id ∈ a.carried root.id :=
      (hgrove.mem_carried_iff ha hroot hroot htree).2 (Or.inl rfl)
    obtain ⟨below, hbelow, -, hrdepth⟩ := hshift root hroot htree hself
    obtain rfl : below = 0 := Nat.add_left_cancel hbelow.symm
    exact ⟨_, List.mem_map_of_mem hroot, rfl, if_pos rfl, hrdepth⟩

/-- …and when several tops are. -/
theorem Grove.adopt_stepped (hgrove : Grove before.length nodes tops)
    (ha : a.toList = before ++ nodes) (h : Stepped bound nodes) (position : Position)
    {ids : List NodeId} (hids : ids ⊆ tops) (hdepth : ∀ i ∈ ids, position.depth ≤ bound + i)
    (hfits : bound + a.size ≤ Arena.signedBound) :
    ∃ nodes', (a.adopt position ids).toList = before ++ nodes' ∧ Stepped bound nodes' ∧
      ∀ i ∈ ids, StandsAt nodes' position i := by
  induction ids generalizing a nodes with
  | nil => exact ⟨nodes, ha, h, by simp⟩
  | cons i ids ih =>
    obtain ⟨hi, hrest⟩ := List.cons_subset.1 hids
    rw [List.forall_mem_cons] at hdepth
    obtain ⟨root, hroot, rfl, htree⟩ := hgrove.tops_mem i hi
    obtain ⟨first, hfirst, hgrove', -⟩ := hgrove.relocate ha position hi
    have heq := Arena.toList_relocate position (hgrove.branching ha) ha hgrove.map_id hroot
    obtain rfl := List.append_cancel_left (hfirst.symm.trans heq)
    obtain ⟨hstepped, hstands⟩ := h.moved hgrove ha hroot hi htree hdepth.1 hfits
    obtain ⟨nodes', hnodes, hstepped', hstands'⟩ := ih hgrove' hfirst hstepped hrest hdepth.2 (by
      rw [← Array.length_toList, hfirst, List.length_append, List.length_map, ← List.length_append,
        ← ha, Array.length_toList]
      exact hfits)
    obtain ⟨last, hlast, -, hmoves⟩ := hgrove'.adopt hfirst position hrest
    obtain rfl := List.append_cancel_left (hnodes.symm.trans hlast)
    refine ⟨_, hnodes, hstepped', List.forall_mem_cons.2 ⟨?_, hstands'⟩⟩
    by_cases hmem : root.id ∈ ids
    · exact hstands' root.id hmem
    · exact hmoves.kept position root.id hi hmem hstands

/-- …and when those are that do not stand there, all tops do. -/
theorem Grove.adopt_displaced_stepped (hgrove : Grove before.length nodes tops)
    (ha : a.toList = before ++ nodes) (h : Stepped bound nodes) (position : Position)
    (hdepth : position.depth ≤ bound) (hfits : bound + a.size ≤ Arena.signedBound) :
    ∃ nodes', (a.adopt position (tops.filter fun i => !a.standsAt position i)).toList =
        before ++ nodes' ∧ Stepped bound nodes' ∧ ∀ i ∈ tops, StandsAt nodes' position i := by
  have hsub : (tops.filter fun i => !a.standsAt position i) ⊆ tops := List.filter_subset_self _
  obtain ⟨nodes', hnodes, hstepped, hmoved⟩ := hgrove.adopt_stepped ha h position hsub
    (fun i _ => Nat.le_add_right_of_le hdepth) hfits
  obtain ⟨nodes'', hnodes', -, hkept⟩ := hgrove.adopt_displaced ha position
  obtain rfl := List.append_cancel_left (hnodes.symm.trans hnodes')
  refine ⟨nodes', hnodes, hstepped, fun i hi => ?_⟩
  by_cases hstands : a.standsAt position i = true
  · exact (hkept i hi).2 hstands
  · exact hmoved i (List.mem_filter.2 ⟨hi, by simp [hstands]⟩)

end Moving

end Markup
