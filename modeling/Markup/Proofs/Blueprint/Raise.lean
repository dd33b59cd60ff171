import Markup.Document.Basic
import Markup.Proofs.Blueprint.Row

/-!
# Proofs/Blueprint/Raise — building appends a row

Blueprints that ask for no place of their own only ever **add nodes at the end**: `adds_raise` says
that what building one adds is the row that it becomes.  The two changes to nodes that are there
already — a child is attached, a closing is noted — are made to the node whose row is being built,
so they end up in the row (`toList_modify_append`).
-/

namespace Markup

/-! ## Steps of building -/

namespace Build

variable {α β : Type} {a a' : Arena} {source : Source} {r : β × Arena}

/-- **A sequence of steps succeeds exactly as its parts do.** -/
theorem bind_eq_ok {x : Build α} {f : α → Build β} :
    (x >>= f) a = .ok r ↔ ∃ v b, x a = .ok (v, b) ∧ f v b = .ok r := by
  change (x a >>= fun p => f p.1 p.2) = .ok r ↔ _
  rw [Except.bind_eq_ok, Prod.exists]

theorem pure_eq_ok {v w : α} : (pure v : Build α) a = .ok (w, a') ↔ v = w ∧ a = a' := by
  change (Except.ok (v, a) : Except Error (α × Arena)) = .ok (w, a') ↔ _
  rw [Except.ok.injEq, Prod.mk.injEq]

theorem slice_eq_ok {span : Span} {token : Token} :
    slice source span a = .ok (token, a') ↔ source.slice span = .ok token ∧ a = a' := by
  rw [slice]
  cases source.slice span <;> simp [Except.map]

theorem mapM_slice_eq_ok {span : Option Span} {token : Option Token} :
    span.mapM (slice source) a = .ok (token, a') ↔
      ((span = none ∧ token = none) ∨ ∃ s t, span = some s ∧ token = some t ∧
        source.slice s = .ok t) ∧ a = a' := by
  cases span with
  | none =>
    rw [Option.mapM_none, pure_eq_ok]
    simp [eq_comm]
  | some s =>
    rw [Option.mapM_some, ← bind_pure_comp, bind_eq_ok]
    simp only [slice_eq_ok, pure_eq_ok]
    constructor
    · rintro ⟨t, b, ⟨ht, rfl⟩, rfl, rfl⟩
      exact ⟨Or.inr ⟨s, t, rfl, rfl, ht⟩, rfl⟩
    · rintro ⟨⟨h, -⟩ | ⟨s', t, hs, rfl, ht⟩, rfl⟩
      · exact absurd h (by simp)
      · obtain rfl := Option.some.inj hs
        exact ⟨t, a, ⟨ht, rfl⟩, rfl, rfl⟩

theorem add_eq_ok {position : Position} {token : Token} {ns : Namespace} {data : NodeData}
    {id : NodeId} :
    add position token ns data a = .ok (id, a') ↔
      id = a.size ∧ a' = a.push (position.node a.size token ns data) := by
  simp [add, Arena.add, Position.node, eq_comm]

theorem lift_eq_ok {x : Except Error α} {v : α} :
    (liftM x : Build α) a = .ok (v, a') ↔ x = .ok v ∧ a = a' := by
  cases x <;> simp [liftM, monadLift, MonadLift.monadLift, StateT.lift, bind, Except.bind, pure,
    Except.pure]

theorem updateElement_eq_ok {id : NodeId} {f : Element → Element} {u : Unit} :
    updateElement id f a = .ok (u, a') ↔ a' = a.modify id fun node => node.updateElement f := by
  simp [updateElement, eq_comm]

theorem lastEnd_eq_ok {stop : Nat} :
    lastEnd source a = .ok (stop, a') ↔
      stop = (a.back?.map fun node => source.toLocal node.token.endOffset).getD 0 ∧ a = a' := by
  simp [lastEnd, eq_comm]

theorem adopt_eq_ok {position : Position} {ids : List NodeId} {u : Unit} :
    adopt position ids a = .ok (u, a') ↔ a' = a.adopt position ids := by
  simp [adopt, eq_comm]

theorem namespaceIn_eq_ok {parent : Option NodeId} {ns : Namespace} :
    namespaceIn parent a = .ok (ns, a') ↔ ns = a.namespaceIn parent ∧ a = a' := by
  simp [namespaceIn, eq_comm]

/-- **A leaf adds its node.** -/
theorem leaf_eq {here : Position} {token : Token} {kind : Leaf} :
    leaf here token kind a = .ok (kind.tops a.size,
      a.push (kind.node here (a.namespaceIn here.parent) a.size token)) := by
  cases kind <;> rfl

variable {d : Dialect} {here : Position} {ns : Namespace} {id : NodeId} {tag : StartTag} {u : Unit}

/-- **An end tag is added and noted**… -/
theorem close_some_eq_ok {token : Token} :
    close d source here ns id tag (some token) a = .ok (u, a') ↔
      a' = (a.push (here.node a.size token ns
        (.endTag (String.ofList (endTagName token.raw.toList)) (some id)))).modify id
          fun node => node.updateElement fun e => { e with endTag := some a.size } := by
  simp only [close, bind_eq_ok, add_eq_ok, updateElement_eq_ok]
  constructor
  · rintro ⟨_, _, ⟨rfl, rfl⟩, rfl⟩
    rfl
  · rintro rfl
    exact ⟨_, _, ⟨rfl, rfl⟩, rfl⟩

/-- …and so is a ghost that stands for one… -/
theorem close_none_eq_ok (h : d.impliesClose tag = true) :
    close d source here ns id tag none a = .ok (u, a') ↔
      a' = (a.push (here.node a.size
        (source.emptyToken ((a.back?.map fun node => source.toLocal node.token.endOffset).getD 0))
          ns (.ghost tag.name))).modify id
            fun node => node.updateElement fun e => { e with isImpliedClose := true } := by
  rw [close, ← Dialect.impliesClose, if_pos h]
  simp only [bind_eq_ok, lastEnd_eq_ok, add_eq_ok, updateElement_eq_ok]
  constructor
  · rintro ⟨_, _, ⟨rfl, rfl⟩, _, _, ⟨rfl, rfl⟩, rfl⟩
    rfl
  · rintro rfl
    exact ⟨_, _, ⟨rfl, rfl⟩, _, _, ⟨rfl, rfl⟩, rfl⟩

/-- …unless none is needed. -/
theorem close_none_eq_ok_of_not (h : d.impliesClose tag = false) :
    close d source here ns id tag none a = .ok (u, a') ↔ a = a' := by
  rw [close, ← Dialect.impliesClose, h, if_neg Bool.false_ne_true, pure_eq_ok]
  exact and_iff_right rfl

end Build

/-! ## The arena as a list -/

namespace Arena

variable {a : Arena} {before after : List Node} {n : Node}

/-- A change to the node that follows a list of nodes. -/
theorem toList_modify_append (ha : a.toList = before ++ n :: after) (f : Node → Node) :
    (a.modify before.length f).toList = before ++ f n :: after := by
  rw [Array.toList_modify, ha]
  clear ha
  induction before with
  | nil => rfl
  | cons m before ih => rw [List.cons_append, List.length_cons, List.modify_succ_cons, ih]; rfl

/-- A node is added, and that is noted in an earlier one. -/
theorem toList_modify_push (ha : a.toList = before ++ n :: after) (m : Node) (f : Node → Node) :
    ((a.push m).modify before.length f).toList = before ++ f n :: (after ++ [m]) := by
  refine toList_modify_append ?_ f
  rw [Array.toList_push, ha, List.append_assoc, List.cons_append]

/-- **Children that are attached one by one end up in order.** -/
theorem toList_foldl_attach (ids : List NodeId) (ha : a.toList = before ++ n :: after) :
    (ids.foldl (fun a id => a.attach (some before.length) id) a).toList =
      before ++ ids.foldl Node.addChild n :: after := by
  induction ids generalizing a n with
  | nil => exact ha
  | cons id ids ih => exact ih (toList_modify_append ha _)

/-- Roots are nobody's children. -/
theorem foldl_attach_none (ids : List NodeId) (a : Arena) :
    ids.foldl (fun a id => a.attach none id) a = a := by
  induction ids with
  | nil => rfl
  | cons _ _ ih => exact ih

/-- Nothing is moved where there is nothing to move. -/
@[simp] theorem adopt_nil (a : Arena) (position : Position) : a.adopt position [] = a := rfl

/-- The namespace in a node that is there stays as nodes are added. -/
theorem namespaceIn_of_append {a' : Arena} {nodes : List Node} {parent : Option NodeId}
    (ha : a'.toList = a.toList ++ nodes) (hp : ∀ p, parent = some p → p < a.size) :
    a'.namespaceIn parent = a.namespaceIn parent := by
  cases parent with
  | none => rfl
  | some p =>
    have hget : a'[p]? = a[p]? := by
      rw [← Array.getElem?_toList, ha, List.getElem?_append_left (by simpa using hp p rfl),
        Array.getElem?_toList]
    simp [namespaceIn, hget]

/-- The nodes that stand at a position are attached to its parent, and the others are left over. -/
theorem settle_eq (a : Arena) (position : Position) (ids : List NodeId) :
    a.settle position ids =
      ((ids.filter (a.standsAt position)).foldl (fun a id => a.attach position.parent id) a,
        ids.filter fun i => !a.standsAt position i) := by
  rw [settle, List.partition_eq_filter_filter]
  rfl

/-- Where all nodes stand at a position, none is left over… -/
theorem filter_not_standsAt {position : Position} {ids : List NodeId}
    (h : ∀ id ∈ ids, a.standsAt position id = true) :
    (ids.filter fun i => !a.standsAt position i) = [] :=
  List.filter_eq_nil_iff.2 fun id hid => by simp [h id hid]

/-- …and **all of them are settled there**. -/
theorem settle_of_standsAt {position : Position} {ids : List NodeId}
    (h : ∀ id ∈ ids, a.standsAt position id = true) :
    a.settle position ids = (ids.foldl (fun a id => a.attach position.parent id) a, []) := by
  rw [settle_eq, List.filter_eq_self.2 h, filter_not_standsAt h]

end Arena

/-- **The top nodes of a row that has just been added stand at its position.** -/
theorem Row.standsAt {d : Dialect} {source : Source} {here : Position} {ns : Namespace}
    {a a' : Arena} {bs : List Blueprint} {nodes : List Node} {tops : List NodeId}
    (h : Row d source here ns a.size bs nodes tops) (ha : a'.toList = a.toList ++ nodes) :
    ∀ id ∈ tops, a'.standsAt here id = true := by
  intro id hid
  obtain ⟨n, hn, rfl, hparent, hdepth⟩ := h.mem_of_tops hid
  have hget := h.getElem?_id a.toList [] Array.length_toList hn
  rw [List.append_nil, ← ha, Array.getElem?_toList] at hget
  simp [Arena.standsAt, hget, hparent, hdepth]

/-! ## Building a row -/

@[simp] theorem Placement.resolve_default (here : Position) : resolve {} here = here := rfl

/-- What a node becomes as children are attached to it. -/
theorem Node.foldl_addChild_block {here : Position} {id : NodeId} {token : Token} {ns : Namespace}
    {name : String} (ids kids : List NodeId) :
    ids.foldl Node.addChild (here.node id token ns (.block name kids)) =
      here.node id token ns (.block name (kids ++ ids)) := by
  induction ids generalizing kids with
  | nil => rw [List.append_nil]; rfl
  | cons id ids ih =>
    rw [List.append_cons, ← ih]
    rfl

theorem Node.foldl_addChild_element {here : Position} {id : NodeId} {token : Token}
    {ns : Namespace} {e : Element} (ids : List NodeId) :
    ids.foldl Node.addChild (here.node id token ns (.element e)) =
      here.node id token ns (.element { e with children := e.children ++ ids }) := by
  induction ids generalizing e with
  | nil => rw [List.append_nil]; rfl
  | cons id ids ih =>
    have hstep := ih (e := { e with children := e.children ++ [id] })
    rw [List.append_assoc] at hstep
    exact hstep

namespace Blueprint

variable {d : Dialect} {source : Source}

/-- **What building does, if it succeeds, is to add the row of the blueprints.** -/
def Adds (d : Dialect) (source : Source) (bs : List Blueprint)
    (x : Position → Build (List NodeId)) : Prop :=
  ∀ ⦃here : Position⦄ ⦃a a' : Arena⦄ ⦃ids : List NodeId⦄,
    (∀ p, here.parent = some p → p < a.size) → x here a = .ok (ids, a') →
      ∃ nodes, a'.toList = a.toList ++ nodes ∧
        Row d source here (a.namespaceIn here.parent) a.size bs nodes ids

/-- **One thing is built after the other**, in the namespace that they both stand in. -/
theorem Adds.append {bs cs : List Blueprint} {x y : Position → Build (List NodeId)}
    (hx : Adds d source bs x) (hy : Adds d source cs y) :
    Adds d source (bs ++ cs) fun here => do
      let ids ← x here
      return ids ++ (← y here) := by
  intro here a a' ids hparent hraise
  simp only [Build.bind_eq_ok, Build.pure_eq_ok] at hraise
  obtain ⟨first, a₁, hfirst, rest, a₂, hrest, rfl, rfl⟩ := hraise
  obtain ⟨nodes, hnodes, hrow⟩ := hx hparent hfirst
  have hsize : a₁.size = a.size + nodes.length := by
    rw [← Array.length_toList, hnodes, List.length_append, Array.length_toList]
  obtain ⟨others, hothers, hrow'⟩ := hy
    (fun p hp => by rw [hsize]; exact Nat.lt_add_right _ (hparent p hp)) hrest
  rw [Arena.namespaceIn_of_append hnodes hparent, hsize] at hrow'
  refine ⟨nodes ++ others, ?_, hrow.append hrow'⟩
  rw [hothers, hnodes, List.append_assoc]

theorem adds_raiseAll {bs : List Blueprint}
    (h : ∀ b ∈ bs, Adds d source [b] fun here => raise d source here b) :
    Adds d source bs fun here => raiseAll d source here bs := by
  induction bs with
  | nil =>
    intro here a a' ids _ hraise
    simp only [raiseAll, Build.pure_eq_ok] at hraise
    obtain ⟨rfl, rfl⟩ := hraise
    exact ⟨[], (List.append_nil _).symm, Row.nil⟩
  | cons b bs ih =>
    rw [List.forall_mem_cons] at h
    simp only [raiseAll]
    exact h.1.append (ih h.2)

theorem adds_leaf {span : Span} {kind : Leaf} :
    Adds d source [.leaf {} span kind] fun here => raise d source here (.leaf {} span kind) := by
  intro here a a' ids _ hraise
  simp only [raise, Build.bind_eq_ok, Build.slice_eq_ok] at hraise
  obtain ⟨token, _, ⟨hslice, rfl⟩, hleaf⟩ := hraise
  rw [Build.leaf_eq, Except.ok.injEq, Prod.mk.injEq] at hleaf
  obtain ⟨rfl, rfl⟩ := hleaf
  refine ⟨[kind.node here (a.namespaceIn here.parent) a.size token], Array.toList_push, ?_⟩
  rw [← List.append_nil (kind.tops _)]
  exact Row.leaf hslice Row.nil

/-- **The children of a node that has just been added** become the row inside it, and all of them
are attached to it. -/
theorem exists_row_of_children {here : Position} {children : List Blueprint}
    (hchildren : Adds d source children fun here => raiseAll d source here children)
    {a a₁ a₂ : Arena} {node : Node} {kids displaced : List NodeId}
    (hraise : raiseAll d source (here.under a.size) children (a.push node) = .ok (kids, a₁))
    (hsettle : Build.settle (here.under a.size) kids a₁ = .ok (displaced, a₂)) :
    ∃ inner, displaced = [] ∧ a₂.toList = a.toList ++ kids.foldl Node.addChild node :: inner ∧
      Row d source (here.under a.size) (Arena.namespaceIn (a.push node) (some a.size)) (a.size + 1)
        children inner kids := by
  obtain ⟨inner, hinner, hrow⟩ := hchildren
    (fun p hp => by obtain rfl := Option.some.inj hp; simp) hraise
  rw [Build.settle, Arena.settle_of_standsAt (hrow.standsAt hinner)] at hsettle
  obtain ⟨rfl, rfl⟩ : [] = displaced ∧ _ = a₂ := by simpa using hsettle
  rw [Array.size_push] at hrow
  refine ⟨inner, rfl, ?_, hrow⟩
  rw [← Array.length_toList]
  refine Arena.toList_foldl_attach kids ?_
  rw [hinner, Array.toList_push, List.append_assoc]
  rfl

/-- The place after a node and what follows it. -/
theorem size_of_toList {a : Arena} {before inner : List Node} {node : Node}
    (ha : a.toList = before ++ node :: inner) : a.size = before.length + 1 + inner.length := by
  rw [← Array.length_toList, ha, List.length_append, List.length_cons]
  omega

/-- The last node's end. -/
theorem lastEnd_of_toList {a : Arena} {before inner : List Node} {node : Node}
    (ha : a.toList = before ++ node :: inner) :
    (a.back?.map fun node => source.toLocal node.token.endOffset).getD 0 =
      source.toLocal (endOf node.token inner) := by
  rw [← Array.getLast?_toList, ha, List.getLast?_append, List.getLast?_cons]
  cases h : inner.getLast? <;> simp [endOf, h]

/-- **An element is closed as its end tag and its start tag say.** -/
theorem exists_closing {here : Position} {ns : Namespace} {a a' : Arena} {before inner : List Node}
    {token : Token} {tag : StartTag} {kids : List NodeId} {endTag : Option Span}
    {closer : Option Token} {u : Unit}
    (ha : a.toList = before ++
      here.node before.length token ns (.element (d.elementOf tag kids none false)) :: inner)
    (hslice : (endTag = none ∧ closer = none) ∨ ∃ span t, endTag = some span ∧ closer = some t ∧
      source.slice span = .ok t)
    (hclose : Build.close d source here ns before.length tag closer a = .ok (u, a')) :
    ∃ link implied closers,
      Closing d source here ns before.length (before.length + 1 + inner.length)
        (endOf token inner) tag endTag link implied closers ∧
      a'.toList = before ++
        here.node before.length token ns (.element (d.elementOf tag kids link implied)) ::
          (inner ++ closers) := by
  have hsize := size_of_toList ha
  obtain ⟨rfl, rfl⟩ | ⟨span, t, rfl, rfl, ht⟩ := hslice
  · cases himplied : d.impliesClose tag with
    | false =>
      obtain rfl := (Build.close_none_eq_ok_of_not himplied).1 hclose
      refine ⟨_, _, _, Closing.nothing himplied, ?_⟩
      rw [List.append_nil, ha]
    | true =>
      obtain rfl := (Build.close_none_eq_ok himplied).1 hclose
      refine ⟨_, _, _, Closing.ghost himplied, ?_⟩
      rw [hsize, lastEnd_of_toList ha, Arena.toList_modify_push ha]
      rfl
  · obtain rfl := Build.close_some_eq_ok.1 hclose
    refine ⟨_, _, _, Closing.endTag ht, ?_⟩
    rw [hsize, Arena.toList_modify_push ha]
    rfl

/-- The namespace in a node that has just been added. -/
theorem namespaceIn_push {a : Arena} {node : Node} :
    Arena.namespaceIn (a.push node) (some a.size) =
      (node.element?.map fun e => Namespace.forChildren e.name node.ns).getD node.ns := by
  rw [Arena.namespaceIn, Option.bind_some, Array.getElem?_push_size]
  cases h : node.element? <;> simp [h]

/-- **The steps of building a block.** -/
theorem exists_of_raise_block {here : Position} {placement : Placement} {span : Span}
    {name : String} {children : List Blueprint} {a a' : Arena} {ids : List NodeId}
    (hraise : raise d source here (.block placement span name children) a = .ok (ids, a')) :
    let position := placement.resolve here
    ∃ token kids a₁ displaced a₂, source.slice span = .ok token ∧
      raiseAll d source (position.under a.size) children (a.push
        (position.node a.size token (a.namespaceIn position.parent) (.block name []))) =
          .ok (kids, a₁) ∧
      Build.settle (position.under a.size) kids a₁ = .ok (displaced, a₂) ∧
      ids = a.size :: displaced ∧ a' = a₂.adopt position displaced := by
  simp only [raise, Build.bind_eq_ok, Build.slice_eq_ok, Build.namespaceIn_eq_ok, Build.add_eq_ok,
    Build.adopt_eq_ok, Build.pure_eq_ok] at hraise
  obtain ⟨token, _, ⟨hslice, rfl⟩, _, _, ⟨rfl, rfl⟩, _, _, ⟨rfl, rfl⟩, kids, a₁, hkids, displaced,
    a₂, hsettle, _, _, rfl, rfl, rfl⟩ := hraise
  exact ⟨token, kids, a₁, displaced, a₂, hslice, hkids, hsettle, rfl, rfl⟩

/-- **The steps of building an element.** -/
theorem exists_of_raise_element {here : Position} {placement : Placement} {startTag : Span}
    {children : List Blueprint} {endTag : Option Span} {a a' : Arena} {ids : List NodeId}
    (hraise : raise d source here (.element placement startTag children endTag) a =
      .ok (ids, a')) :
    let position := placement.resolve here
    ∃ token tag, source.slice startTag = .ok token ∧
      StartTag.read d.readAttribute source token = .ok tag ∧
      let ns := Namespace.ofElement tag.name (a.namespaceIn position.parent)
      ∃ kids a₁ displaced a₂ closer u a₃,
        raiseAll d source (position.under a.size) children (a.push
          (position.node a.size token ns (.element (d.elementOf tag [] none false)))) =
            .ok (kids, a₁) ∧
        Build.settle (position.under a.size) kids a₁ = .ok (displaced, a₂) ∧
        ((endTag = none ∧ closer = none) ∨ ∃ span t, endTag = some span ∧ closer = some t ∧
          source.slice span = .ok t) ∧
        Build.close d source position ns a.size tag closer a₂ = .ok (u, a₃) ∧
        ids = a.size :: displaced ∧ a' = a₃.adopt position displaced := by
  simp only [raise, Build.bind_eq_ok, Build.slice_eq_ok, Build.lift_eq_ok, Build.namespaceIn_eq_ok,
    Build.add_eq_ok, Build.mapM_slice_eq_ok, Build.adopt_eq_ok, Build.pure_eq_ok] at hraise
  obtain ⟨token, _, ⟨hslice, rfl⟩, tag, _, ⟨hread, rfl⟩, _, _, ⟨rfl, rfl⟩, _, _, ⟨rfl, rfl⟩, kids,
    a₁, hkids, displaced, a₂, hsettle, closer, _, ⟨hcloser, rfl⟩, u, a₃, hclose, _, _, rfl, rfl,
    rfl⟩ := hraise
  exact ⟨token, tag, hslice, hread, kids, a₁, displaced, a₂, closer, u, a₃, hkids, hsettle, hcloser,
    hclose, rfl, rfl⟩

theorem adds_block {span : Span} {name : String} {children : List Blueprint}
    (hchildren : Adds d source children fun here => raiseAll d source here children) :
    Adds d source [.block {} span name children]
      fun here => raise d source here (.block {} span name children) := by
  intro here a a' ids _ hraise
  obtain ⟨token, kids, a₁, displaced, a₂, hslice, hkids, hsettle, rfl, rfl⟩ :=
    exists_of_raise_block hraise
  obtain ⟨inner, rfl, hnodes, hrow⟩ := exists_row_of_children hchildren hkids hsettle
  rw [Placement.resolve_default, Node.foldl_addChild_block] at hnodes
  rw [namespaceIn_push] at hrow
  refine ⟨_, ?_, Row.trunk (Trunk.block hslice) hrow Row.nil⟩
  rw [Arena.adopt_nil, hnodes, List.append_nil, List.append_nil]
  rfl

theorem adds_element {startTag : Span} {endTag : Option Span} {children : List Blueprint}
    (hchildren : Adds d source children fun here => raiseAll d source here children) :
    Adds d source [.element {} startTag children endTag]
      fun here => raise d source here (.element {} startTag children endTag) := by
  intro here a a' ids _ hraise
  obtain ⟨token, tag, hslice, hread, kids, a₁, displaced, a₂, closer, u, a₃, hkids, hsettle,
    hcloser, hclose, rfl, rfl⟩ := exists_of_raise_element hraise
  obtain ⟨inner, rfl, hnodes, hrow⟩ := exists_row_of_children hchildren hkids hsettle
  rw [Placement.resolve_default, Node.foldl_addChild_element, ← Array.length_toList] at hnodes
  rw [namespaceIn_push] at hrow
  rw [← Array.length_toList] at hclose
  obtain ⟨link, implied, closers, hclosing, hnodes'⟩ := exists_closing hnodes hcloser hclose
  rw [Array.length_toList] at hclosing hnodes'
  refine ⟨_, ?_, Row.trunk (Trunk.element hslice hread hclosing) hrow Row.nil⟩
  rw [Arena.adopt_nil, hnodes', List.append_nil]
  rfl

theorem adds_group {span : Option Span} {items : List Blueprint}
    (hitems : Adds d source items fun here => raiseAll d source here items) :
    Adds d source [.group {} span items]
      fun here => raise d source here (.group {} span items) := by
  intro here a a' ids hparent hraise
  simp only [raise, Placement.resolve_default, Build.bind_eq_ok, Build.mapM_slice_eq_ok] at hraise
  obtain ⟨_, _, ⟨-, rfl⟩, hraise⟩ := hraise
  obtain ⟨nodes, hnodes, hrow⟩ := hitems hparent hraise
  refine ⟨nodes, hnodes, ?_⟩
  rw [← List.append_nil nodes, ← List.append_nil ids]
  exact Row.group hrow Row.nil

/-- **Building a blueprint that asks for no place of its own adds its row.** -/
theorem adds_raise {b : Blueprint} (h : InPlace b) :
    Adds d source [b] fun here => raise d source here b := by
  induction h with
  | leaf span kind => exact adds_leaf
  | block span name _ ih => exact adds_block (adds_raiseAll ih)
  | element startTag endTag _ ih => exact adds_element (adds_raiseAll ih)
  | group span _ ih => exact adds_group (adds_raiseAll ih)
  | fault error =>
    intro here a a' ids _ hraise
    simp only [raise] at hraise
    nomatch hraise

end Blueprint

/-! ## Whole documents -/

/-- **A document is what its roots raise**, with those at the top that do not stand there. -/
theorem Document.exists_of_parse {d : Dialect} {raw : String} {o : Options} {doc : Document}
    (hparse : Document.parse d raw o = .ok doc) :
    let top : Position := ⟨none, o.depth⟩
    ∃ reading ids a, d.read (Source.ofString raw o.base) o = .ok reading ∧
      Blueprint.raiseAll d (Source.ofString raw o.base) top reading.roots #[] = .ok (ids, a) ∧
      doc = { raw, nodes := a.adopt top (ids.filter fun i => !a.standsAt top i),
              isFragment := reading.isFragment } := by
  rw [Document.parse] at hparse
  cases hread : d.read (Source.ofString raw o.base) o with
  | error rejection => simp [hread] at hparse
  | ok reading => ?_
  simp only [hread, Blueprint.raiseForest, StateT.run, Except.bind_eq_ok, pure, Except.pure,
    Except.ok.injEq] at hparse
  obtain ⟨⟨displaced, a'⟩, ⟨⟨ids, a⟩, hraise, hsettle⟩, rfl⟩ := hparse
  rw [Arena.settle_eq, Arena.foldl_attach_none, Prod.mk.injEq] at hsettle
  obtain ⟨rfl, rfl⟩ := hsettle
  exact ⟨reading, ids, a, rfl, hraise, rfl⟩

/-- A document is a fragment if its reading says so. -/
theorem Document.isFragment_of_parse {d : Dialect} {raw : String} {o : Options} {doc : Document}
    {reading : Reading} (hread : d.read (Source.ofString raw o.base) o = .ok reading)
    (hparse : Document.parse d raw o = .ok doc) : doc.isFragment = reading.isFragment := by
  obtain ⟨reading', ids, a, hread', -, rfl⟩ := Document.exists_of_parse hparse
  obtain rfl := Except.ok.inj (hread.symm.trans hread')
  rfl

/-- **A document that is parsed from roots in place is their row**, from the first place on. -/
theorem Document.row_of_parse {d : Dialect} {raw : String} {o : Options} {doc : Document}
    (hplace : ∀ reading, d.read (Source.ofString raw o.base) o = .ok reading →
      ∀ b ∈ reading.roots, b.InPlace)
    (hparse : Document.parse d raw o = .ok doc) :
    ∃ reading tops, d.read (Source.ofString raw o.base) o = .ok reading ∧
      Row d (Source.ofString raw o.base) ⟨none, o.depth⟩ .html 0 reading.roots doc.nodes.toList
        tops := by
  obtain ⟨reading, ids, a, hread, hraise, rfl⟩ := Document.exists_of_parse hparse
  obtain ⟨nodes, hnodes, hrow⟩ := Blueprint.adds_raiseAll
    (fun b hb => Blueprint.adds_raise (hplace reading hread b hb)) (by simp) hraise
  rw [Arena.filter_not_standsAt (hrow.standsAt hnodes), Arena.adopt_nil, hnodes]
  exact ⟨reading, ids, hread, hrow⟩

end Markup
