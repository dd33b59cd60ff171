import Markup.Proofs.Blueprint.Closers
import Markup.Proofs.Document.Coherence

/-!
# Proofs/Document/Closers — end tags and ghosts of elements that are moved

A node that is moved leaves behind what closes it, but for the depth of end tags: so **what closes
an element stands beside it as long as the element is not moved** (`Document.closers_of_parse`), and
`not_beside_strayed` shows what becomes of one that is.
-/

namespace Markup

/-- A node stands where it does among more nodes. -/
theorem StandsAt.mono {nodes others : List Node} {position : Position} {i : NodeId}
    (h : StandsAt nodes position i) (hsub : nodes ⊆ others) : StandsAt others position i :=
  h.imp fun _ hn => hn.imp_left (hsub ·)

namespace Blueprint

mutual

/-- **The nodes of these kinds are to stand where their blueprints do.**  Under a group that asks
for another place, `moved`, they do not. -/
def keeps (stays : Stays) (moved : Bool) : Blueprint → Bool
  | .leaf .. | .fault _ => true
  | .block placement _ _ children =>
    (!stays.blocks || !moved && placement == {}) && keepsAll stays false children
  | .element placement _ children _ =>
    (!stays.elements || !moved && placement == {}) && keepsAll stays false children
  | .group placement _ items => keepsAll stays (moved || placement != {}) items

/-- …in blueprints that stand side by side. -/
def keepsAll (stays : Stays) (moved : Bool) : List Blueprint → Bool
  | [] => true
  | b :: bs => b.keeps stays moved && keepsAll stays moved bs

end

/-- **What building does, if it succeeds, is to add a grove** in which closers follow their elements
and only nodes of kinds that may be moved stand elsewhere. -/
def Escorts (stays : Stays) (moved : Bool) (x : Position → Build (List NodeId)) : Prop :=
  ∀ ⦃here : Position⦄ ⦃a a' : Arena⦄ ⦃ids : List NodeId⦄, x here a = .ok (ids, a') →
    ∃ nodes, a'.toList = a.toList ++ nodes ∧ Grove a.size nodes ids ∧ Escorted stays nodes ∧
      ∀ n ∈ nodes, n.id ∈ ids → stays.of n.kind = true → moved = false ∧ StandsAt nodes here n.id

variable {d : Dialect} {source : Source} {stays : Stays} {moved : Bool}

/-- A kind that stays is built where its blueprint stands. -/
theorem resolve_of_keeps (kind : NodeKind) {placement : Placement} {here : Position}
    (hkeeps : (!stays.of kind || !moved && placement == {}) = true)
    (hstays : stays.of kind = true) :
    moved = false ∧ placement.resolve here = here := by
  rw [hstays, Bool.not_true, Bool.false_or, Bool.and_eq_true, Bool.not_eq_true', beq_iff_eq]
    at hkeeps
  obtain ⟨hmoved, rfl⟩ := hkeeps
  exact ⟨hmoved, rfl⟩

theorem escorts_leaf {placement : Placement} {span : Span} {kind : Leaf} :
    Escorts stays moved fun here => raise d source here (.leaf placement span kind) := by
  intro here a a' ids hraise
  simp only [raise, Build.bind_eq_ok, Build.slice_eq_ok] at hraise
  obtain ⟨token, _, ⟨-, rfl⟩, hleaf⟩ := hraise
  rw [Build.leaf_eq, Except.ok.injEq, Prod.mk.injEq] at hleaf
  obtain ⟨rfl, rfl⟩ := hleaf
  refine ⟨_, Array.toList_push, Grove.leaf kind _ _ token, Escorted.leaf kind _ _ _ token, ?_⟩
  intro n hn _ hstays
  obtain rfl := List.mem_singleton.1 hn
  cases kind <;> exact absurd hstays Bool.false_ne_true

/-- **A node with children is escorted** if its children are, for those that are moved beside it are
of kinds that may be. -/
theorem Branched.escorts {kind : NodeKind} {here position : Position} {children : List Blueprint}
    {a a' : Arena} {ids : List NodeId} (h : Branched d source kind position children a ids a')
    (hchildren : Escorts stays false fun here => raiseAll d source here children)
    (hplace : stays.of kind = true → moved = false ∧ position = here) :
    ∃ nodes, a'.toList = a.toList ++ nodes ∧ Grove a.size nodes ids ∧ Escorted stays nodes ∧
      ∀ n ∈ nodes, n.id ∈ ids → stays.of n.kind = true →
        moved = false ∧ StandsAt nodes here n.id := by
  obtain @⟨first, node, inner, closers, kids, a₁, a₃, _, _, _, raised, added, content, rfl, grows,
    settled, hnodes, rfl, rfl⟩ := h
  obtain ⟨inner', hinner, -, hescorted, htops⟩ := hchildren raised
  obtain rfl := List.append_cancel_left (added.symm.trans hinner)
  have hgrove := content.trunk grows fun i hi => (settled i hi).hangsFrom
  have hdisplaced : ∀ n ∈ node :: (inner ++ closers),
      n.id ∈ (kids.filter fun i => !a₁.standsAt (position.under a.size) i) →
        stays.of n.kind = false := by
    intro n hn hmem
    obtain ⟨hkid, hstands⟩ := List.mem_filter.1 hmem
    obtain ⟨m, hm, hid, -⟩ := content.tops_mem n.id hkid
    obtain rfl := hgrove.eq_of_id (List.mem_cons_of_mem _ (List.mem_append_left _ hm)) hn hid
    refine Bool.eq_false_iff.2 fun hstays => ?_
    have hlength : (a.push first).toList.length = a.size + 1 := by simp
    have hat := (hlength ▸ content : Grove _ _ _).standsAt_arena added (htops m hm hkid hstays).2
    simp [hat] at hstands
  rw [← Array.length_toList] at hgrove ⊢
  obtain ⟨nodes, hmoved, hgrove', -, hkept⟩ :=
    hgrove.adopt hnodes position (List.subset_cons_self _ _)
  obtain ⟨nodes', hmoved', hescorted', hkinds⟩ := hgrove.adopt_escorted hnodes
    (hescorted.trunk grows) position (List.subset_cons_self _ _) hdisplaced
  obtain rfl := List.append_cancel_left (hmoved.symm.trans hmoved')
  refine ⟨nodes, hmoved, hgrove', hescorted', fun n hn htop hstays => ?_⟩
  obtain ⟨m, hm, hid, hkind⟩ := hkinds n hn
  rw [← hkind] at hstays
  rcases List.mem_cons.1 htop with hself | hmem
  · obtain rfl := hgrove.eq_of_id hm List.mem_cons_self
      (hid.trans (hself.trans (Array.length_toList ▸ grows.id_eq.symm)))
    obtain ⟨hstill, rfl⟩ := hplace hstays
    refine ⟨hstill, hkept _ n.id htop (fun hmem => ?_) ⟨m, List.mem_cons_self, hid, grows.place⟩⟩
    have hafter := (content.top_mem (List.mem_of_mem_filter hmem)).1
    exact absurd (hself ▸ hafter) (Nat.not_succ_le_self _)
  · exact absurd ((hdisplaced m hm (hid ▸ hmem)).symm.trans hstays) (by simp)

theorem escorts_group {placement : Placement} {span : Option Span} {items : List Blueprint}
    (hitems : Escorts stays (moved || placement != {}) fun here => raiseAll d source here items) :
    Escorts stays moved fun here => raise d source here (.group placement span items) := by
  intro here a a' ids hraise
  simp only [raise, Build.bind_eq_ok, Build.mapM_slice_eq_ok] at hraise
  obtain ⟨_, _, ⟨-, rfl⟩, hraise⟩ := hraise
  obtain ⟨nodes, hnodes, hgrove, hescorted, htops⟩ := hitems hraise
  refine ⟨nodes, hnodes, hgrove, hescorted, fun n hn htop hstays => ?_⟩
  obtain ⟨hstill, hstands⟩ := htops n hn htop hstays
  rw [Bool.or_eq_false_iff, bne_eq_false_iff_eq] at hstill
  obtain ⟨hmoved, rfl⟩ := hstill
  exact ⟨hmoved, hstands⟩

theorem escorts_cons {b : Blueprint} {bs : List Blueprint}
    (hfirst : Escorts stays moved fun here => raise d source here b)
    (hrest : Escorts stays moved fun here => raiseAll d source here bs) :
    Escorts stays moved fun here => raiseAll d source here (b :: bs) := by
  intro here a a' ids hraise
  simp only [raiseAll, Build.bind_eq_ok, Build.pure_eq_ok] at hraise
  obtain ⟨tops, a₁, hraise, more, a₂, hraise', rfl, rfl⟩ := hraise
  obtain ⟨nodes, hnodes, hgrove, hescorted, htops⟩ := hfirst hraise
  obtain ⟨others, hothers, hgrove', hescorted', htops'⟩ := hrest hraise'
  have hsize : a₁.size = a.size + nodes.length := by
    rw [← Array.length_toList, hnodes, List.length_append, Array.length_toList]
  rw [hsize] at hgrove'
  refine ⟨nodes ++ others, ?_, hgrove.append hgrove', hescorted.append hescorted', ?_⟩
  · rw [hothers, hnodes, List.append_assoc]
  · intro n hn htop hstays
    rcases List.mem_append.1 hn with hn | hn <;> rcases List.mem_append.1 htop with htop | htop
    · exact (htops n hn htop hstays).imp_right fun h => h.mono (List.subset_append_left _ _)
    · exact absurd (hgrove'.top_mem htop).1 (Nat.not_le.2 (hgrove.id_mem hn).2)
    · exact absurd (hgrove'.id_mem hn).1 (Nat.not_le.2 (hgrove.top_mem htop).2)
    · exact (htops' n hn htop hstays).imp_right fun h => h.mono (List.subset_append_right _ _)

mutual

/-- **Building a blueprint adds nodes whose closers follow them**, wherever its nodes ask to
stand. -/
theorem escorts_raise (moved : Bool) : ∀ b : Blueprint, b.keeps stays moved = true →
    Escorts stays moved fun here => raise d source here b
  | .leaf .., _ => escorts_leaf
  | .block _ _ _ children, hkeeps => fun _ _ _ _ hraise => by
    rw [keeps, Bool.and_eq_true] at hkeeps
    have hchildren := escorts_raiseAll false children hkeeps.2
    exact (branched_block (grows_raiseAll children) hraise).escorts hchildren
      (resolve_of_keeps .block hkeeps.1)
  | .element _ _ children _, hkeeps => fun _ _ _ _ hraise => by
    rw [keeps, Bool.and_eq_true] at hkeeps
    have hchildren := escorts_raiseAll false children hkeeps.2
    exact (branched_element (grows_raiseAll children) hraise).escorts hchildren
      (resolve_of_keeps .element hkeeps.1)
  | .group placement _ items, hkeeps => by
    rw [keeps] at hkeeps
    exact escorts_group (escorts_raiseAll (moved || placement != {}) items hkeeps)
  | .fault error, _ => by
    intro here a a' ids hraise
    simp only [raise] at hraise
    nomatch hraise

theorem escorts_raiseAll (moved : Bool) : ∀ bs : List Blueprint, keepsAll stays moved bs = true →
    Escorts stays moved fun here => raiseAll d source here bs
  | [], _ => by
    intro here a a' ids hraise
    simp only [raiseAll, Build.pure_eq_ok] at hraise
    obtain ⟨rfl, rfl⟩ := hraise
    exact ⟨[], (List.append_nil _).symm, Grove.nil, Escorted.nil, by simp⟩
  | b :: bs, hkeeps => by
    rw [keepsAll, Bool.and_eq_true] at hkeeps
    exact escorts_cons (escorts_raise moved b hkeeps.1) (escorts_raiseAll moved bs hkeeps.2)

end

mutual

/-- Where any node may be moved, nothing is asked of a blueprint. -/
theorem keeps_any : ∀ (moved : Bool) (b : Blueprint), b.keeps {} moved = true
  | _, .leaf .. | _, .fault _ => rfl
  | _, .block _ _ _ children | _, .element _ _ children _ => keepsAll_any false children
  | moved, .group placement _ items => keepsAll_any (moved || placement != {}) items

theorem keepsAll_any : ∀ (moved : Bool) (bs : List Blueprint), keepsAll {} moved bs = true
  | _, [] => rfl
  | moved, b :: bs => by rw [keepsAll, keeps_any, keepsAll_any, Bool.and_self]

end

end Blueprint

/-! ## Whole documents -/

section Numbered

variable {stays : Stays} {nodes : List Node} {n c : Node}

/-- **What closes an element follows it**, in a numbered list… -/
theorem Escorted.follows (h : Escorted stays nodes) (hnodes : Numbered nodes) (hn : n ∈ nodes)
    (hc : c ∈ nodes) (hcloses : CloserOf nodes n c) : Follows stays n c := by
  cases hcloses with
  | endTag pair =>
    obtain ⟨m, hm, hid, -, hfollows⟩ := h.endTags c hc n.id pair
    rwa [← hnodes.eq_of_id hm hn hid]
  | ghost implied found =>
    obtain ⟨c', hfound, hfollows⟩ := h.ghosts.ghost n.id n (hnodes.getElem? hn) implied
    rwa [Option.some.inj (found.symm.trans hfound)]

/-- …in which every ghost and every end tag of an element closes one… -/
theorem Escorted.exists_element (h : Escorted stays nodes) (hnodes : Numbered nodes)
    (hc : c ∈ nodes) (hcloses : c.isGhost = true ∨ c.pair? ≠ none) :
    ∃ n ∈ nodes, CloserOf nodes n c := by
  rcases hcloses with hghost | hpair
  · obtain ⟨k, n, hk, himplied, hfound⟩ := h.ghosts.element c hc hghost
    obtain rfl := hnodes k n hk
    exact ⟨n, List.mem_of_getElem? hk, CloserOf.ghost himplied hfound⟩
  · obtain ⟨i, hi⟩ := Option.ne_none_iff_exists'.1 hpair
    obtain ⟨n, hn, rfl, -⟩ := h.endTags c hc i hi
    exact ⟨n, hn, CloserOf.endTag hi⟩

/-- …and every element whose close is implied has a ghost. -/
theorem Escorted.exists_ghost (h : Escorted stays nodes) (hnodes : Numbered nodes) (hn : n ∈ nodes)
    (himplied : n.isImpliedClose = true) :
    ∃ c ∈ nodes, c.isGhost = true ∧ CloserOf nodes n c := by
  obtain ⟨c, hfound, -⟩ := h.ghosts.ghost n.id n (hnodes.getElem? hn) himplied
  obtain ⟨hc, hghost⟩ := of_ghostIn? hfound
  exact ⟨c, List.mem_of_mem_drop hc, hghost, CloserOf.ghost himplied hfound⟩

end Numbered

/-- **In a document, which is numbered, closers follow their elements.** -/
theorem Document.escorted_of_parse {d : Dialect} {text : String} {o : Options} {doc : Document}
    {reading : Reading} {stays : Stays}
    (hread : d.read (Source.ofString text o.base) o = .ok reading)
    (hkeeps : Blueprint.keepsAll stays false reading.roots = true)
    (hparse : Document.parse d text o = .ok doc) :
    Numbered doc.nodes.toList ∧ Escorted stays doc.nodes.toList := by
  obtain ⟨reading', ids, a, hread', hraise, rfl⟩ := Document.exists_of_parse hparse
  obtain rfl := Except.ok.inj (hread.symm.trans hread')
  obtain ⟨nodes, hnodes, hgrove, hescorted, htops⟩ :=
    Blueprint.escorts_raiseAll false reading.roots hkeeps hraise
  have hstart : Grove ([] : List Node).length nodes ids := hgrove
  have hdisplaced : ∀ n ∈ nodes,
      n.id ∈ (ids.filter fun i => !a.standsAt ⟨none, o.depth⟩ i) → stays.of n.kind = false := by
    intro n hn hmem
    obtain ⟨htop, hstands⟩ := List.mem_filter.1 hmem
    refine Bool.eq_false_iff.2 fun hstays => ?_
    simp [hstart.standsAt_arena hnodes (htops n hn htop hstays).2] at hstands
  obtain ⟨nodes', hmoved, hescorted', -⟩ := hstart.adopt_escorted hnodes hescorted ⟨none, o.depth⟩
    (List.filter_subset_self _) hdisplaced
  obtain ⟨moved, hmoved', hgrove', -⟩ :=
    hstart.adopt hnodes ⟨none, o.depth⟩ (List.filter_subset_self _)
  exact ⟨hmoved' ▸ hgrove'.numbered, hmoved ▸ hescorted'⟩

/-- **What closes an element keeps the depth of the element if it is an end tag, stands under its
parent if elements stand where their blueprints do, and at its depth if all nodes with children
do.**  Ghosts and end tags of elements all close one, and an element whose close is implied has a
ghost. -/
theorem Document.closers_of_parse {d : Dialect} {text : String} {o : Options} {doc : Document}
    (hparse : Document.parse d text o = .ok doc) :
    ∃ reading, d.read (Source.ofString text o.base) o = .ok reading ∧
      (∀ c ∈ doc.nodes, c.isGhost = true ∨ c.pair? ≠ none →
        ∃ n ∈ doc.nodes, CloserOf doc.nodes.toList n c) ∧
      (∀ n ∈ doc.nodes, n.isImpliedClose = true →
        ∃ c ∈ doc.nodes, c.isGhost = true ∧ CloserOf doc.nodes.toList n c) ∧
      ∀ n ∈ doc.nodes, ∀ c ∈ doc.nodes, CloserOf doc.nodes.toList n c →
        (c.isGhost = false → c.depth = n.depth) ∧
        (Blueprint.keepsAll { elements := true } false reading.roots = true →
          c.parent = n.parent) ∧
        (Blueprint.keepsAll { elements := true, blocks := true } false reading.roots = true →
          c.depth = n.depth) := by
  obtain ⟨reading, -, -, hread, -⟩ := Document.exists_of_parse hparse
  obtain ⟨hnodes, hescorted⟩ :=
    Document.escorted_of_parse hread (Blueprint.keepsAll_any _ _) hparse
  simp only [← Array.mem_toList_iff]
  refine ⟨reading, hread, fun c hc => hescorted.exists_element hnodes hc,
    fun n hn => hescorted.exists_ghost hnodes hn, fun n hn c hc hcloses => ⟨?_, ?_, ?_⟩⟩
  · exact (hescorted.follows hnodes hn hc hcloses).endTag
  · intro hkeeps
    have hstays := (Document.escorted_of_parse hread hkeeps hparse).2
    exact (hstays.follows hnodes hn hc hcloses).parent rfl
  · intro hkeeps
    have hstays := (Document.escorted_of_parse hread hkeeps hparse).2
    exact (hstays.follows hnodes hn hc hcloses).depth rfl rfl

/-- A dialect whose leaves and first block ask for other places, so that elements are carried along
with the block but never moved themselves. -/
def carrying : Dialect where
  name := "carrying"
  config := {}
  read _ _ := .ok {
    roots := [
      .block { depth := some 4 } ⟨0, 1⟩ "outer" [
        .element {} ⟨1, 4⟩ [.leaf { parent := some none } ⟨4, 5⟩ .text] (some ⟨5, 9⟩),
        .element {} ⟨9, 12⟩ [] none]]
    isFragment := true }

/-- What closes an element of this dialect stands under the parent of the element, an end tag at its
depth. -/
theorem closers_carrying : ∃ doc,
    Document.parse carrying "-<a>x</a><b>" {} = .ok doc ∧
      ∀ n ∈ doc.nodes, ∀ c ∈ doc.nodes, CloserOf doc.nodes.toList n c →
        (c.isGhost = false → c.depth = n.depth) ∧ c.parent = n.parent := by
  have hok : (Document.parse carrying "-<a>x</a><b>" {}).isOk = true := by decide +kernel
  obtain ⟨doc, hparse⟩ := Except.exists_of_isOk hok
  obtain ⟨reading, hread, -, -, hfollows⟩ := Document.closers_of_parse hparse
  obtain rfl := Except.ok.inj hread
  refine ⟨doc, hparse, fun n hn c hc hcloses => ?_⟩
  obtain ⟨hdepth, hparent, -⟩ := hfollows n hn c hc hcloses
  exact ⟨hdepth, hparent (by decide +kernel)⟩

/-- A dialect whose elements ask for another depth. -/
def straying : Dialect where
  name := "straying"
  config := {}
  read _ _ := .ok {
    roots := [.element {} ⟨0, 3⟩
      [.element { depth := some 5 } ⟨3, 6⟩ [] (some ⟨6, 10⟩),
        .element { depth := some 5 } ⟨10, 13⟩ [] none] (some ⟨13, 17⟩)]
    isFragment := true }

/-- **An element that is moved leaves the parent of its end tag behind**, and parent and depth of
its ghost. -/
theorem not_beside_straying : ∃ doc, Document.parse straying "<a><b></b><c></a>" {} = .ok doc ∧
    (∃ n ∈ doc.nodes, ∃ c ∈ doc.nodes, CloserOf doc.nodes.toList n c ∧ c.isGhost = false ∧
      c.parent ≠ n.parent) ∧
    ∃ n ∈ doc.nodes, ∃ c ∈ doc.nodes, CloserOf doc.nodes.toList n c ∧ c.isGhost = true ∧
      c.parent ≠ n.parent ∧ c.depth ≠ n.depth := by
  have hany : (Document.parse straying "<a><b></b><c></a>" {}).toOption.any (fun doc =>
      ((doc.nodes.toList.any fun n => n.id == 1 && n.parent == none) &&
        doc.nodes.toList.any fun c => c.pair? == some 1 && !c.isGhost && c.parent == some 0) &&
      ((doc.nodes.toList.any fun n => n.isImpliedClose && n.parent == none && n.depth == 0) &&
        doc.nodes.toList.all fun c =>
          !c.isGhost || c.parent == some 0 && c.depth == 5)) = true := by
    decide +kernel
  obtain ⟨doc, hparse, htest⟩ := exists_of_any hany
  simp only [Bool.and_eq_true, List.any_eq_true, List.all_eq_true, beq_iff_eq, Bool.not_eq_true',
    Bool.or_eq_true] at htest
  obtain ⟨⟨⟨n, hn, hid, hparent⟩, c, hc, ⟨hpair, hghost⟩, hcparent⟩,
    ⟨m, hm, ⟨himplied, hmparent⟩, hmdepth⟩, hghosts⟩ := htest
  simp only [← Array.mem_toList_iff]
  refine ⟨doc, hparse, ⟨n, hn, c, hc, .endTag (hid ▸ hpair), hghost, ?_⟩, ?_⟩
  · simp [hcparent, hparent]
  · obtain ⟨reading, hread⟩ : ∃ reading,
        straying.read (Source.ofString "<a><b></b><c></a>") {} = .ok reading := ⟨_, rfl⟩
    obtain ⟨hnodes, hescorted⟩ :=
      Document.escorted_of_parse hread (Blueprint.keepsAll_any _ _) hparse
    obtain ⟨c, hc, hghost, hcloses⟩ := hescorted.exists_ghost hnodes hm himplied
    obtain hnot | ⟨hcparent, hcdepth⟩ := hghosts c hc
    · exact absurd (hghost.symm.trans hnot) (by simp)
    · exact ⟨m, hm, c, hc, hcloses, hghost, by simp [hcparent, hmparent],
        by simp [hcdepth, hmdepth]⟩

end Markup
