import Markup.Proofs.Blueprint.Depths
import Markup.Proofs.Blueprint.Raise

/-!
# Proofs/Document/Coherence — parents, children and depths agree

Whatever places blueprints ask for, **what building one adds is a grove** (`Blueprint.grows_raise`):
a node keeps the children that stand right below it, and the others are moved beside it with all
that hangs from them.  The roots of a document are moved to the top in the same way, so a document
is `Coherent`, in any dialect at all (`Document.coherent_of_parse`).

Depths agree with it (`Layered`) as long as they are numbers of 63 bits: a move takes the difference
of two depths as a signed number, and `not_layered_sunken` shows what becomes of a larger one.
-/

namespace Markup

/-- **A list of nodes in which parents and children agree.** -/
structure Coherent (nodes : List Node) : Prop where
  /-- A node's number is its place. -/
  numbered : Numbered nodes
  /-- Children are listed in order, none of them twice… -/
  children_pairwise : ∀ p ∈ nodes, p.children.Pairwise (· < ·)
  /-- …and are nodes of the tree. -/
  children_mem : ∀ p ∈ nodes, ∀ i ∈ p.children, ∃ n ∈ nodes, n.id = i ∧ n.inTree = true
  /-- A node of the tree is a root and nobody's child, or the child of one earlier node. -/
  placed : ∀ n ∈ nodes, n.inTree = true →
    (n.parent = none ∧ ∀ p ∈ nodes, n.id ∉ p.children) ∨
      ∃ p ∈ nodes, n.parent = some p.id ∧ p.id < n.id ∧ p.isBranching = true ∧
        p.children.count n.id = 1 ∧ ∀ q ∈ nodes, n.id ∈ q.children → q = p

/-- **Depths that agree with the parents**, with roots of the given depth. -/
structure Layered (nodes : List Node) (depth : Nat) : Prop where
  root : ∀ n ∈ nodes, n.inTree = true → n.parent = none → n.depth = depth
  below : ∀ p ∈ nodes, ∀ n ∈ nodes, n.inTree = true → n.parent = some p.id →
    n.depth = p.depth + 1

/-- A grove from the first place on is numbered. -/
theorem Grove.numbered {nodes : List Node} {tops : List NodeId} (h : Grove 0 nodes tops) :
    Numbered nodes :=
  fun i _ hn => (h.getElem?_eq_some_iff.1 hn).2.trans (Nat.zero_add i)

/-- **A grove whose tops all hang from nothing is coherent**… -/
theorem Grove.coherent {nodes : List Node} {tops : List NodeId} (h : Grove 0 nodes tops)
    (htops : ∀ i ∈ tops, HangsFrom nodes none i) : Coherent nodes where
  numbered := h.numbered
  children_pairwise := h.children_pairwise
  children_mem p hp i hi := by
    obtain ⟨-, n, hn, hid, hunder⟩ := h.child p hp i hi
    exact ⟨n, hn, hid, hunder.inTree⟩
  placed n hn htree := by
    rcases h.owned n hn htree with htop | ⟨p, hp, hi⟩
    · obtain ⟨m, hm, hid, hparent⟩ := htops n.id htop
      obtain rfl := h.eq_of_id hm hn hid
      exact Or.inl ⟨hparent, fun p hp hi => (h.child p hp _ hi).1 htop⟩
    · have hunder := h.isUnder_of_mem_children hn hp hi
      refine Or.inr ⟨p, hp, hunder.parent, hunder.lt, Node.isBranching_of_mem_children hi, ?_,
        fun q hq hi' => ?_⟩
      · exact List.count_eq_one_of_mem ((h.children_pairwise p hp).imp Nat.ne_of_lt) hi
      · have hparent := (h.isUnder_of_mem_children hn hq hi').parent
        exact h.eq_of_id hq hp (Option.some.inj (hparent.symm.trans hunder.parent))

/-- …and layered if its depths are in step and its tops stand at the top of a document. -/
theorem Stepped.layered {nodes : List Node} {tops : List NodeId} {bound depth : Nat}
    (hstepped : Stepped bound nodes) (h : Grove 0 nodes tops)
    (htops : ∀ i ∈ tops, StandsAt nodes ⟨none, depth⟩ i) : Layered nodes depth where
  root n hn htree hparent := by
    rcases h.owned n hn htree with htop | ⟨p, hp, hi⟩
    · obtain ⟨m, hm, hid, -, hdepth⟩ := htops n.id htop
      obtain rfl := h.eq_of_id hm hn hid
      exact hdepth
    · have hunder := (h.isUnder_of_mem_children hn hp hi).parent
      exact absurd (hparent.symm.trans hunder) (by simp)
  below p hp n hn htree hparent := by
    rcases h.owned n hn htree with htop | ⟨q, hq, hi⟩
    · obtain ⟨m, hm, hid, hnone, -⟩ := htops n.id htop
      obtain rfl := h.eq_of_id hm hn hid
      exact absurd (hparent.symm.trans hnone) (by simp)
    · have hunder := (h.isUnder_of_mem_children hn hq hi).parent
      rw [h.eq_of_id hp hq (Option.some.inj (hparent.symm.trans hunder))]
      exact hstepped.child q hq n hn hi

/-! ## Building a grove -/

namespace Blueprint

variable {d : Dialect} {source : Source} {asked : List Nat}

/-- **What building does, if it succeeds, is to add a grove.**  Its depths are in step if those
`asked` for, the one where it stands and the number of nodes leave them numbers of 63 bits. -/
def Grows (asked : List Nat) (x : Position → Build (List NodeId)) : Prop :=
  ∀ ⦃here : Position⦄ ⦃a a' : Arena⦄ ⦃ids : List NodeId⦄, x here a = .ok (ids, a') →
    ∃ nodes, a'.toList = a.toList ++ nodes ∧ Grove a.size nodes ids ∧
      ∀ bound, (∀ depth ∈ asked, depth ≤ bound) → here.depth ≤ bound + a.size →
        bound + a'.size ≤ Arena.signedBound → Stepped bound nodes

theorem grows_leaf {placement : Placement} {span : Span} {kind : Leaf} :
    Grows placement.depth.toList fun here =>
      raise d source here (.leaf placement span kind) := by
  intro here a a' ids hraise
  simp only [raise, Build.bind_eq_ok, Build.slice_eq_ok] at hraise
  obtain ⟨token, _, ⟨-, rfl⟩, hleaf⟩ := hraise
  rw [Build.leaf_eq, Except.ok.injEq, Prod.mk.injEq] at hleaf
  obtain ⟨rfl, rfl⟩ := hleaf
  exact ⟨_, Array.toList_push, Grove.leaf kind _ _ token, fun bound hasked hhere _ =>
    Stepped.leaf kind _ token (Placement.depth_resolve_le hasked hhere)⟩

/-- **The children of a node that has just been added** become a grove, and the node takes those
that stand right below it. -/
theorem exists_grove_of_children {here : Position} {children : List Blueprint}
    (hchildren : Grows asked fun here => raiseAll d source here children) {a a₁ a₂ : Arena}
    {node : Node} {ids displaced : List NodeId}
    (hraise : raiseAll d source (here.under a.size) children (a.push node) = .ok (ids, a₁))
    (hsettle : Build.settle (here.under a.size) ids a₁ = .ok (displaced, a₂)) :
    let settles := a₁.standsAt (here.under a.size)
    ∃ inner, a₁.toList = (a.push node).toList ++ inner ∧ Grove (a.size + 1) inner ids ∧
      displaced = (ids.filter fun i => !settles i) ∧
      (∀ i ∈ ids.filter settles, StandsAt inner (here.under a.size) i) ∧
      a₂.toList = a.toList ++ (ids.filter settles).foldl Node.addChild node :: inner := by
  obtain ⟨inner, hinner, hgrove, -⟩ := hchildren hraise
  rw [Build.settle, Arena.settle_eq] at hsettle
  obtain ⟨rfl, rfl⟩ : _ = displaced ∧ _ = a₂ := by simpa using hsettle
  rw [Array.size_push] at hgrove
  refine ⟨inner, hinner, hgrove, rfl, fun i hi => ?_, ?_⟩
  · obtain ⟨hi, hstands⟩ := List.mem_filter.1 hi
    have hlength : (a.push node).toList.length = a.size + 1 := by simp
    exact Grove.standsAt_of_mem_tops (hlength ▸ hgrove) hinner hi hstands
  · rw [← Array.length_toList]
    refine Arena.toList_foldl_attach _ ?_
    rw [hinner, Array.toList_push, List.append_assoc]
    rfl

/-- **How a node with children is built** at a position: the node, its children, then what closes
it; the children that do not stand right below the node are moved beside it. -/
inductive Branched (d : Dialect) (source : Source) (kind : NodeKind) (here : Position)
    (children : List Blueprint) (a : Arena) (ids : List NodeId) (a' : Arena) : Prop
  | intro {first node : Node} {inner closers : List Node} {kids : List NodeId} {a₁ a₃ : Arena}
      {ns inside : Namespace} {b : Blueprint}
      (raised : raiseAll d source (here.under a.size) children (a.push first) = .ok (kids, a₁))
      (added : a₁.toList = (a.push first).toList ++ inner)
      (content : Grove (a.size + 1) inner kids)
      (kind_eq : node.kind = kind)
      (grows : Trunk d source here ns a.size inner
        (kids.filter (a₁.standsAt (here.under a.size))) b children inside node closers)
      (settled : ∀ i ∈ kids.filter (a₁.standsAt (here.under a.size)),
        StandsAt inner (here.under a.size) i)
      (nodes : a₃.toList = a.toList ++ node :: (inner ++ closers))
      (tops : ids = a.size :: kids.filter fun i => !a₁.standsAt (here.under a.size) i)
      (adopted : a' =
        a₃.adopt here (kids.filter fun i => !a₁.standsAt (here.under a.size) i))

/-- A block is built in this way… -/
theorem branched_block {placement : Placement} {span : Span} {name : String}
    {children : List Blueprint}
    (hchildren : Grows asked fun here => raiseAll d source here children)
    {here : Position} {a a' : Arena} {ids : List NodeId}
    (hraise : raise d source here (.block placement span name children) a = .ok (ids, a')) :
    Branched d source .block (placement.resolve here) children a ids a' := by
  obtain ⟨token, kids, a₁, displaced, a₂, hslice, hkids, hsettle, rfl, rfl⟩ :=
    exists_of_raise_block hraise
  obtain ⟨inner, hinner, hgrove, rfl, hstands, hnodes⟩ :=
    exists_grove_of_children hchildren hkids hsettle
  rw [Node.foldl_addChild_block, List.nil_append, ← List.append_nil inner] at hnodes
  exact .intro hkids hinner hgrove rfl (Trunk.block hslice) hstands hnodes rfl rfl

/-- …and so is an element. -/
theorem branched_element {placement : Placement} {startTag : Span} {endTag : Option Span}
    {children : List Blueprint}
    (hchildren : Grows asked fun here => raiseAll d source here children)
    {here : Position} {a a' : Arena} {ids : List NodeId}
    (hraise : raise d source here (.element placement startTag children endTag) a =
      .ok (ids, a')) :
    Branched d source .element (placement.resolve here) children a ids a' := by
  obtain ⟨token, tag, hslice, hread, kids, a₁, displaced, a₂, closer, u, a₃, hkids, hsettle,
    hcloser, hclose, rfl, rfl⟩ := exists_of_raise_element hraise
  obtain ⟨inner, hinner, hgrove, rfl, hstands, hnodes⟩ :=
    exists_grove_of_children hchildren hkids hsettle
  rw [Node.foldl_addChild_element, ← Array.length_toList] at hnodes
  rw [← Array.length_toList] at hclose
  obtain ⟨link, implied, closers, hclosing, hnodes'⟩ := exists_closing hnodes hcloser hclose
  rw [Array.length_toList] at hclosing hnodes'
  exact .intro hkids hinner hgrove rfl (Trunk.element hslice hread hclosing) hstands hnodes' rfl rfl

/-- **What is built in this way is a grove**, in step if its children are. -/
theorem Branched.grows {kind : NodeKind} {position : Position} {children : List Blueprint}
    {a a' : Arena} {ids : List NodeId} (h : Branched d source kind position children a ids a')
    (hchildren : Grows asked fun here => raiseAll d source here children) :
    ∃ nodes, a'.toList = a.toList ++ nodes ∧ Grove a.size nodes ids ∧
      ∀ bound, (∀ depth ∈ asked, depth ≤ bound) → position.depth ≤ bound + a.size →
        bound + a'.size ≤ Arena.signedBound → Stepped bound nodes := by
  obtain @⟨first, node, inner, closers, kids, a₁, a₃, _, _, _, raised, added, content, -, grows,
    settled, hnodes, rfl, rfl⟩ := h
  have hgrove := content.trunk grows fun i hi => (settled i hi).hangsFrom
  rw [← Array.length_toList] at hgrove ⊢
  obtain ⟨nodes, hmoved, hgrove', -⟩ := hgrove.adopt hnodes position (List.subset_cons_self _ _)
  refine ⟨nodes, hmoved, hgrove', fun bound hasked hdepth hfits => ?_⟩
  rw [Arena.size_adopt] at hfits
  obtain ⟨inner', hinner, -, hstepped⟩ := hchildren raised
  obtain rfl := List.append_cancel_left (added.symm.trans hinner)
  have hle : a₁.size ≤ a₃.size := by
    rw [← Array.length_toList, ← Array.length_toList, added, hnodes]
    simp
  have hinside := hstepped bound hasked (by
    rw [Array.size_push]
    exact Nat.succ_le_succ hdepth) (Nat.le_trans (Nat.add_le_add_left hle _) hfits)
  have htrunk := hinside.trunk content grows settled hdepth
  have hdisplaced : ∀ i ∈ kids.filter fun i => !a₁.standsAt (position.under a.size) i,
      position.depth ≤ bound + i := fun i hi =>
    have hafter := (content.top_mem (List.mem_of_mem_filter hi)).1
    Nat.le_trans hdepth (Nat.add_le_add_left (Nat.le_of_lt hafter) bound)
  obtain ⟨nodes', hmoved', hstepped', -⟩ :=
    hgrove.adopt_stepped hnodes htrunk position (List.subset_cons_self _ _) hdisplaced hfits
  obtain rfl := List.append_cancel_left (hmoved.symm.trans hmoved')
  exact hstepped'

theorem grows_block {placement : Placement} {span : Span} {name : String}
    {children : List Blueprint}
    (hchildren : Grows asked fun here => raiseAll d source here children) :
    Grows (placement.depth.toList ++ asked) fun here =>
      raise d source here (.block placement span name children) := by
  intro here a a' ids hraise
  obtain ⟨nodes, hnodes, hgrove, hstepped⟩ := (branched_block hchildren hraise).grows hchildren
  refine ⟨nodes, hnodes, hgrove, fun bound hasked hhere hfits => ?_⟩
  rw [List.forall_mem_append] at hasked
  exact hstepped bound hasked.2 (Placement.depth_resolve_le hasked.1 hhere) hfits

theorem grows_element {placement : Placement} {startTag : Span} {endTag : Option Span}
    {children : List Blueprint}
    (hchildren : Grows asked fun here => raiseAll d source here children) :
    Grows (placement.depth.toList ++ asked) fun here =>
      raise d source here (.element placement startTag children endTag) := by
  intro here a a' ids hraise
  obtain ⟨nodes, hnodes, hgrove, hstepped⟩ := (branched_element hchildren hraise).grows hchildren
  refine ⟨nodes, hnodes, hgrove, fun bound hasked hhere hfits => ?_⟩
  rw [List.forall_mem_append] at hasked
  exact hstepped bound hasked.2 (Placement.depth_resolve_le hasked.1 hhere) hfits

theorem grows_group {placement : Placement} {span : Option Span} {items : List Blueprint}
    (hitems : Grows asked fun here => raiseAll d source here items) :
    Grows (placement.depth.toList ++ asked) fun here =>
      raise d source here (.group placement span items) := by
  intro here a a' ids hraise
  simp only [raise, Build.bind_eq_ok, Build.mapM_slice_eq_ok] at hraise
  obtain ⟨_, _, ⟨-, rfl⟩, hraise⟩ := hraise
  obtain ⟨nodes, hnodes, hgrove, hstepped⟩ := hitems hraise
  refine ⟨nodes, hnodes, hgrove, fun bound hasked hhere hfits => ?_⟩
  rw [List.forall_mem_append] at hasked
  exact hstepped bound hasked.2 (Placement.depth_resolve_le hasked.1 hhere) hfits

theorem grows_cons {more : List Nat} {b : Blueprint} {bs : List Blueprint}
    (hfirst : Grows asked fun here => raise d source here b)
    (hrest : Grows more fun here => raiseAll d source here bs) :
    Grows (asked ++ more) fun here => raiseAll d source here (b :: bs) := by
  intro here a a' ids hraise
  simp only [raiseAll, Build.bind_eq_ok, Build.pure_eq_ok] at hraise
  obtain ⟨tops, a₁, hraise, others, a₂, hraise', rfl, rfl⟩ := hraise
  obtain ⟨nodes, hnodes, hgrove, hstepped⟩ := hfirst hraise
  obtain ⟨nodes', hnodes', hgrove', hstepped'⟩ := hrest hraise'
  have hsize : a₁.size = a.size + nodes.length := by
    rw [← Array.length_toList, hnodes, List.length_append, Array.length_toList]
  have hsize' : a₂.size = a₁.size + nodes'.length := by
    rw [← Array.length_toList, hnodes', List.length_append, Array.length_toList]
  rw [hsize] at hgrove'
  refine ⟨nodes ++ nodes', ?_, hgrove.append hgrove', fun bound hasked hhere hfits => ?_⟩
  · rw [hnodes', hnodes, List.append_assoc]
  · rw [List.forall_mem_append] at hasked
    refine (hstepped bound hasked.1 hhere ?_).append (hstepped' bound hasked.2 ?_ hfits) hgrove
      hgrove'
    · omega
    · omega

mutual

/-- **Building a blueprint adds a grove**, wherever its nodes ask to stand. -/
theorem grows_raise : ∀ b : Blueprint, Grows b.depths fun here => raise d source here b
  | .leaf .. => grows_leaf
  | .block _ _ _ children => grows_block (grows_raiseAll children)
  | .element _ _ children _ => grows_element (grows_raiseAll children)
  | .group _ _ items => grows_group (grows_raiseAll items)
  | .fault error => by
    intro here a a' ids hraise
    simp only [raise] at hraise
    nomatch hraise

theorem grows_raiseAll : ∀ bs : List Blueprint,
    Grows (depthsAll bs) fun here => raiseAll d source here bs
  | [] => by
    intro here a a' ids hraise
    simp only [raiseAll, Build.pure_eq_ok] at hraise
    obtain ⟨rfl, rfl⟩ := hraise
    exact ⟨[], (List.append_nil _).symm, Grove.nil, fun _ _ _ _ => Stepped.nil⟩
  | b :: bs => grows_cons (grows_raise b) (grows_raiseAll bs)

end

end Blueprint

/-! ## Whole documents -/

/-- **In a document parents and children agree**, whatever places the dialect asks for, and depths
agree with them if those asked for and the number of nodes leave depths numbers of 63 bits. -/
theorem Document.coherent_of_parse {d : Dialect} {text : String} {o : Options} {doc : Document}
    (hparse : Document.parse d text o = .ok doc) :
    ∃ reading, d.read (Source.ofString text o.base) o = .ok reading ∧
      Coherent doc.nodes.toList ∧
      ((∀ depth ∈ o.depth :: Blueprint.depthsAll reading.roots,
          depth + doc.nodes.size ≤ Arena.signedBound) →
        Layered doc.nodes.toList o.depth) := by
  obtain ⟨reading, ids, a, hread, hraise, rfl⟩ := Document.exists_of_parse hparse
  obtain ⟨nodes, hnodes, hgrove, hstepped⟩ := Blueprint.grows_raiseAll reading.roots hraise
  have hstart : Grove ([] : List Node).length nodes ids := hgrove
  obtain ⟨nodes', hmoved, hgrove', htops⟩ := hstart.adopt_displaced hnodes ⟨none, o.depth⟩
  rw [hmoved, List.nil_append]
  refine ⟨reading, hread, hgrove'.coherent fun i hi => (htops i hi).1, fun hfits => ?_⟩
  -- all depths asked for are at most the greatest that leaves room for the nodes
  rw [Arena.size_adopt] at hfits
  have hbound : ∀ depth ∈ o.depth :: Blueprint.depthsAll reading.roots,
      depth ≤ Arena.signedBound - a.size := fun depth hdepth =>
    Nat.le_sub_of_add_le (hfits depth hdepth)
  have hroom : Arena.signedBound - a.size + a.size ≤ Arena.signedBound :=
    Nat.le_of_eq (Nat.sub_add_cancel (Nat.le_of_add_left_le (hfits _ List.mem_cons_self)))
  rw [List.forall_mem_cons] at hbound
  have hbuilt := hstepped _ hbound.2 hbound.1 hroom
  obtain ⟨nodes'', hmoved', hstepped', hstands⟩ :=
    hstart.adopt_displaced_stepped hnodes hbuilt ⟨none, o.depth⟩ hbound.1 hroom
  obtain rfl := List.append_cancel_left (hmoved.symm.trans hmoved')
  exact hstepped'.layered hgrove' hstands

/-- A dialect whose blueprints ask for places that are not there, too deep or at the top. -/
def scattered : Dialect where
  name := "scattered"
  config := {}
  read _ _ := .ok {
    roots := [
      .block { parent := some (some 7), depth := some 9 } ⟨0, 1⟩ "outer" [
        .block { depth := some 0 } ⟨1, 2⟩ "inner" [
          .leaf {} ⟨2, 3⟩ .text,
          .leaf { parent := some none } ⟨3, 4⟩ .text],
        .leaf {} ⟨4, 5⟩ .text],
      .leaf { parent := some (some 0) } ⟨5, 6⟩ (.comment false)]
    isFragment := true }

theorem coherent_scattered : ∃ doc,
    Document.parse scattered "abcdef" { depth := 2 } = .ok doc ∧
      Coherent doc.nodes.toList ∧ Layered doc.nodes.toList 2 := by
  have hany : (Document.parse scattered "abcdef" { depth := 2 }).toOption.any
      (fun doc => doc.nodes.size == 6) = true := by decide +kernel
  obtain ⟨doc, hparse, hsize⟩ := exists_of_any hany
  obtain ⟨reading, hread, hcoherent, hlayered⟩ := Document.coherent_of_parse hparse
  obtain rfl := Except.ok.inj hread
  refine ⟨doc, hparse, hcoherent, hlayered ?_⟩
  rw [beq_iff_eq.1 hsize]
  decide

/-- A dialect whose one leaf asks for a depth of its own. -/
def sunken : Dialect where
  name := "sunken"
  config := {}
  read _ _ := .ok { roots := [.leaf { depth := some 0 } ⟨0, 1⟩ .text], isFragment := true }

/-- **A root that is moved further than a signed number says ends at depth 0**, not where the
document's roots stand. -/
theorem not_layered_sunken : ∃ doc,
    Document.parse sunken "a" { depth := Arena.signedBound } = .ok doc ∧
      ¬ Layered doc.nodes.toList Arena.signedBound := by
  have hany : (Document.parse sunken "a" { depth := Arena.signedBound }).toOption.any (fun doc =>
      doc.nodes.toList.any fun n => n.inTree && n.parent == none && n.depth == 0) = true := by
    decide +kernel
  obtain ⟨doc, hparse, htest⟩ := exists_of_any hany
  simp only [List.any_eq_true, Bool.and_eq_true, beq_iff_eq] at htest
  obtain ⟨n, hn, ⟨htree, hparent⟩, hdepth⟩ := htest
  refine ⟨doc, hparse, fun hlayered => ?_⟩
  have hroot := hlayered.root n hn htree hparent
  exact absurd (hdepth.symm.trans hroot) (by decide)

end Markup
