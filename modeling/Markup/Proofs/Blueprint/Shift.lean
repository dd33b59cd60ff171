import Markup.Proofs.Attribute.Shift
import Markup.Proofs.Blueprint.Raise

/-!
# Proofs/Blueprint/Shift — the same nodes wherever the text stands

Building is **in step with itself** (`Shift.InStep`): from an arena whose nodes are moved, each of
its steps goes to the arena that it would go to, moved, or refuses at the token moved.  Blueprints
that ask for no place of their own are never relocated, so no difference of depths is ever taken,
and `Blueprint.raise_shift` follows step by step.
-/

namespace Markup

namespace Shift

variable (σ : Shift)

/-- What a node is, where it stands in the file: only its attributes have tokens. -/
def data : NodeData → NodeData
  | .element e => .element { e with attributes := e.attributes.map σ.attr }
  | .text => .text
  | .comment bogus => .comment bogus
  | .endTag name pair => .endTag name pair
  | .block name children => .block name children
  | .ghost name => .ghost name
  | .doctype d => .doctype d

/-- **A node where it stands in the file**, and as much deeper as the roots are. -/
def node (n : Node) : Node :=
  { n with token := σ.token n.token, depth := n.depth + σ.depth, data := σ.data n.data }

/-- A position where it stands in the file. -/
def position (here : Position) : Position := { here with depth := here.depth + σ.depth }

/-- All nodes where they stand in the file. -/
def arena (a : Arena) : Arena := a.map σ.node

mutual

/-- A blueprint in the file: what could not be planned is refused there. -/
def blueprint : Blueprint → Blueprint
  | .leaf placement span kind => .leaf placement span kind
  | .block placement span name children => .block placement span name (blueprints children)
  | .element placement startTag children endTag =>
    .element placement startTag (blueprints children) endTag
  | .group placement span items => .group placement span (blueprints items)
  | .fault error => .fault (σ.error error)

/-- Blueprints in a row in the file. -/
def blueprints : List Blueprint → List Blueprint
  | [] => []
  | b :: bs => blueprint b :: blueprints bs

end

theorem blueprints_eq_map (bs : List Blueprint) : σ.blueprints bs = bs.map σ.blueprint := by
  induction bs with
  | nil => rw [blueprints, List.map_nil]
  | cons b bs ih => rw [blueprints, List.map_cons, ih]

theorem position_under (here : Position) (id : NodeId) :
    σ.position (here.under id) = (σ.position here).under id := by
  rw [position, position, Position.under, Position.under, Nat.add_right_comm]

@[simp] theorem size_arena (a : Arena) : (σ.arena a).size = a.size := Array.size_map

@[simp] theorem getElem?_arena (a : Arena) (i : Nat) : (σ.arena a)[i]? = (a[i]?).map σ.node :=
  Array.getElem?_map

theorem arena_push (a : Arena) (n : Node) : σ.arena (a.push n) = (σ.arena a).push (σ.node n) :=
  Array.map_push

/-- A change that does not touch what is moved may be made before or after. -/
theorem arena_modify {f : Node → Node} (hf : ∀ n, σ.node (f n) = f (σ.node n)) (a : Arena)
    (i : Nat) : σ.arena (a.modify i f) = (σ.arena a).modify i f := by
  apply Array.ext_getElem?
  intro j
  rw [getElem?_arena, Array.getElem?_modify, Array.getElem?_modify, getElem?_arena]
  split
  · cases a[j]? with
    | none => rfl
    | some n => exact congrArg some (hf n)
  · rfl

theorem node_addChild (n : Node) (child : NodeId) :
    σ.node (n.addChild child) = (σ.node n).addChild child := by
  obtain ⟨id, token, depth, parent, ns, data, metadata⟩ := n
  cases data <;> rfl

theorem namespaceIn_arena (a : Arena) (parent : Option NodeId) :
    (σ.arena a).namespaceIn parent = a.namespaceIn parent := by
  cases parent with
  | none => rfl
  | some p =>
    simp only [Arena.namespaceIn, Option.bind_some, getElem?_arena]
    cases a[p]? with
    | none => rfl
    | some n =>
      obtain ⟨id, token, depth, parent, ns, data, metadata⟩ := n
      cases data <;> rfl

theorem standsAt_arena (a : Arena) (here : Position) :
    (σ.arena a).standsAt (σ.position here) = a.standsAt here := by
  funext id
  simp only [Arena.standsAt, getElem?_arena, Option.any_map]
  congr 1
  funext n
  simp only [node, position, beq_eq_decide, Nat.add_right_cancel_iff]

theorem arena_attach (a : Arena) (parent : Option NodeId) (id : NodeId) :
    σ.arena (a.attach parent id) = (σ.arena a).attach parent id := by
  cases parent with
  | none => rfl
  | some p => exact arena_modify σ (fun n => node_addChild σ n id) a p

theorem arena_foldl_attach (a : Arena) (parent : Option NodeId) (ids : List NodeId) :
    σ.arena (ids.foldl (fun a id => a.attach parent id) a) =
      ids.foldl (fun a id => a.attach parent id) (σ.arena a) := by
  induction ids generalizing a with
  | nil => rfl
  | cons id ids ih => rw [List.foldl_cons, List.foldl_cons, ih, arena_attach]

/-- Nodes are settled where they stand. -/
theorem settle_arena (a : Arena) (here : Position) (ids : List NodeId) :
    (σ.arena a).settle (σ.position here) ids =
      (σ.arena (a.settle here ids).1, (a.settle here ids).2) := by
  simp only [Arena.settle, standsAt_arena, arena_foldl_attach]
  rfl

/-- **One run of building goes where the other does**, moved. -/
def InStep {α β : Type} (f : α → β) (a : Arena) (x : Build α) (x' : Build β) : Prop :=
  x' (σ.arena a) = σ.result (Prod.map f σ.arena) (x a)

end Shift

/-! ## Steps of building -/

namespace Build

variable {σ : Shift} {text : String} {a : Arena} {α β γ δ : Type}

/-- **Runs that are in step at each of their steps are in step.** -/
theorem InStep.bind {f : α → β} {h : γ → δ} {x : Build α} {x' : Build β} {g : α → Build γ}
    {g' : β → Build δ} (hx : σ.InStep f a x x')
    (hg : ∀ v b, x a = .ok (v, b) → σ.InStep h b (g v) (g' (f v))) :
    σ.InStep h a (x >>= g) (x' >>= g') :=
  Shift.result_bind hx fun r hr => hg r.1 r.2 hr

theorem inStep_pure {f : α → β} {v : α} {w : β} (h : w = f v) : σ.InStep f a (pure v) (pure w) := by
  subst h
  rfl

theorem inStep_lift {f : α → β} {x : Except Error α} {x' : Except Error β} (h : x' = σ.result f x) :
    σ.InStep f a (liftM x) (liftM x') := by
  subst h
  cases x <;> rfl

theorem inStep_slice (span : Span) :
    σ.InStep σ.token a (slice (.alone text) span) (slice (σ.source text) span) := by
  rw [Shift.InStep, slice, slice, Source.slice_shift]
  cases (Source.alone text).slice span <;> rfl

theorem inStep_mapM_slice (span : Option Span) :
    σ.InStep (Option.map σ.token) a (span.mapM (slice (.alone text)))
      (span.mapM (slice (σ.source text))) := by
  cases span with
  | none => exact inStep_pure rfl
  | some span =>
    simp only [Option.mapM_some, ← bind_pure_comp]
    exact InStep.bind (inStep_slice span) fun _ _ _ => inStep_pure rfl

theorem inStep_namespaceIn (parent : Option NodeId) :
    σ.InStep id a (namespaceIn parent) (namespaceIn parent) := by
  rw [Shift.InStep, namespaceIn, Shift.namespaceIn_arena]
  rfl

theorem inStep_add (here : Position) (token : Token) (ns : Namespace) (data : NodeData) :
    σ.InStep id a (add here token ns data)
      (add (σ.position here) (σ.token token) ns (σ.data data)) := by
  rw [Shift.InStep, add, add, Arena.add, Arena.add, Shift.result_ok, Prod.map, Shift.arena_push,
    Shift.size_arena]
  rfl

theorem inStep_settle (here : Position) (ids : List NodeId) :
    σ.InStep id a (settle here ids) (settle (σ.position here) ids) := by
  rw [Shift.InStep, settle, settle, Shift.settle_arena]
  rfl

/-- Nothing is moved where there is nothing to move. -/
theorem inStep_adopt_nil (here : Position) :
    σ.InStep id a (adopt here []) (adopt (σ.position here) []) := rfl

theorem inStep_updateElement (id : NodeId) {f : Element → Element}
    (hf : ∀ n : Node, σ.node (n.updateElement f) = (σ.node n).updateElement f) :
    σ.InStep (fun u => u) a (updateElement id f) (updateElement id f) := by
  rw [Shift.InStep, updateElement, updateElement, Shift.result_ok, Prod.map,
    Shift.arena_modify σ hf]

theorem inStep_lastEnd : σ.InStep id a (lastEnd (.alone text)) (lastEnd (σ.source text)) := by
  rw [Shift.InStep, lastEnd, lastEnd, Shift.result_ok]
  have hback : (σ.arena a).back? = a.back?.map σ.node := Array.back?_map
  rw [hback, Option.map_map]
  simp only [Function.comp_def, Shift.node, Shift.token, Source.toLocal_shift]
  rfl

theorem inStep_leaf (here : Position) (token : Token) (kind : Leaf) :
    σ.InStep id a (leaf here token kind) (leaf (σ.position here) (σ.token token) kind) := by
  rw [Shift.InStep, leaf_eq, leaf_eq, Shift.result_ok, Prod.map, Shift.arena_push, Shift.size_arena]
  have hns : (σ.arena a).namespaceIn (σ.position here).parent = a.namespaceIn here.parent :=
    Shift.namespaceIn_arena σ a here.parent
  rw [hns]
  cases kind <;> rfl

/-- What closes an element is noted in it, whatever its attributes are. -/
theorem inStep_close (d : Dialect) (here : Position) (ns : Namespace) (id : NodeId) (tag : StartTag)
    (closer : Option Token) :
    σ.InStep (fun u => u) a (close d (.alone text) here ns id tag closer)
      (close d (σ.source text) (σ.position here) ns id (σ.startTag tag) (closer.map σ.token)) := by
  cases closer with
  | some token =>
    refine InStep.bind (inStep_add here token ns _) fun closer _ _ => inStep_updateElement id ?_
    rintro ⟨_, _, _, _, _, data, _⟩
    cases data <;> rfl
  | none =>
    have himplies : d.impliesClose (σ.startTag tag) = d.impliesClose tag := rfl
    rw [Option.map_none, close, close, ← Dialect.impliesClose, ← Dialect.impliesClose, himplies]
    cases d.impliesClose tag with
    | true =>
      rw [if_pos rfl, if_pos rfl]
      refine InStep.bind inStep_lastEnd fun stop _ _ => ?_
      rw [id_eq, Source.emptyToken_shift]
      refine InStep.bind (inStep_add here _ ns _) fun _ _ _ => inStep_updateElement id ?_
      rintro ⟨_, _, _, _, _, data, _⟩
      cases data <;> rfl
    | false => exact inStep_pure rfl

end Build

/-! ## Whole blueprints -/

namespace Blueprint

open Build

variable {d : Dialect} {σ : Shift} {text : String} {children : List Blueprint}

/-- **Building is in step with itself**, at any place that is there. -/
def Portable (σ : Shift) (x x' : Position → Build (List NodeId)) : Prop :=
  ∀ ⦃here : Position⦄ ⦃a : Arena⦄, (∀ p, here.parent = some p → p < a.size) →
    σ.InStep id a (x here) (x' (σ.position here))

/-- The children of a node that is added at a place. -/
theorem Portable.inside
    (h : Portable σ (fun here => raiseAll d (.alone text) here children)
      fun here => raiseAll d (σ.source text) here (σ.blueprints children))
    (here : Position) (a : Arena) (n : Node) :
    σ.InStep id (a.push n) (raiseAll d (.alone text) (here.under a.size) children)
      (raiseAll d (σ.source text) ((σ.position here).under a.size) (σ.blueprints children)) := by
  rw [← Shift.position_under]
  exact h fun p hp => by obtain rfl := Option.some.inj hp; simp

theorem portable_raiseAll {bs : List Blueprint} (hplace : ∀ b ∈ bs, b.InPlace)
    (h : ∀ b ∈ bs, Portable σ (fun here => raise d (.alone text) here b)
      fun here => raise d (σ.source text) here (σ.blueprint b)) :
    Portable σ (fun here => raiseAll d (.alone text) here bs)
      fun here => raiseAll d (σ.source text) here (σ.blueprints bs) := by
  induction bs with
  | nil =>
    intro here a _
    simp only [Shift.blueprints, raiseAll]
    exact inStep_pure rfl
  | cons b bs ih =>
    rw [List.forall_mem_cons] at hplace h
    intro here a hparent
    simp only [Shift.blueprints, raiseAll]
    refine InStep.bind (h.1 hparent) fun ids b hfirst => ?_
    obtain ⟨nodes, hnodes, -⟩ := adds_raise hplace.1 hparent hfirst
    have hsize : a.size ≤ b.size := by
      rw [← Array.length_toList, ← Array.length_toList, hnodes, List.length_append]
      exact Nat.le_add_right _ _
    refine InStep.bind (ih hplace.2 h.2 fun p hp => (hparent p hp).trans_le hsize) fun _ _ _ => ?_
    exact inStep_pure rfl

theorem portable_block {span : Span} {name : String} (hplace : ∀ b ∈ children, b.InPlace)
    (hchildren : Portable σ (fun here => raiseAll d (.alone text) here children)
      fun here => raiseAll d (σ.source text) here (σ.blueprints children)) :
    Portable σ (fun here => raise d (.alone text) here (.block {} span name children))
      fun here => raise d (σ.source text) here (σ.blueprint (.block {} span name children)) := by
  intro here a _
  simp only [Shift.blueprint, raise, Placement.resolve_default]
  refine InStep.bind (inStep_slice span) fun token _ hslice => ?_
  obtain ⟨-, rfl⟩ := slice_eq_ok.1 hslice
  refine InStep.bind (inStep_namespaceIn here.parent) fun ns _ hns => ?_
  obtain ⟨-, rfl⟩ := namespaceIn_eq_ok.1 hns
  refine InStep.bind (inStep_add here token ns (.block name [])) fun id _ hadd => ?_
  obtain ⟨rfl, rfl⟩ := add_eq_ok.1 hadd
  refine InStep.bind (hchildren.inside here a _) fun kids _ hkids => ?_
  refine InStep.bind (Shift.position_under σ here _ ▸ inStep_settle _ kids)
    fun displaced _ hsettle => ?_
  obtain ⟨-, rfl, -⟩ := exists_row_of_children
    (adds_raiseAll fun b hb => adds_raise (hplace b hb)) hkids hsettle
  exact InStep.bind (inStep_adopt_nil here) fun _ _ _ => inStep_pure rfl

theorem portable_element {startTag : Span} {endTag : Option Span}
    (hread : d.readAttribute.Portable) (hplace : ∀ b ∈ children, b.InPlace)
    (hchildren : Portable σ (fun here => raiseAll d (.alone text) here children)
      fun here => raiseAll d (σ.source text) here (σ.blueprints children)) :
    Portable σ (fun here => raise d (.alone text) here (.element {} startTag children endTag))
      fun here => raise d (σ.source text) here
        (σ.blueprint (.element {} startTag children endTag)) := by
  intro here a _
  simp only [Shift.blueprint, raise, Placement.resolve_default]
  refine InStep.bind (inStep_slice startTag) fun token _ hslice => ?_
  obtain ⟨-, rfl⟩ := slice_eq_ok.1 hslice
  refine InStep.bind (inStep_lift (StartTag.read_shift σ text hread token)) fun tag _ htag => ?_
  obtain ⟨-, rfl⟩ := lift_eq_ok.1 htag
  refine InStep.bind (inStep_namespaceIn here.parent) fun ns _ hns => ?_
  obtain ⟨-, rfl⟩ := namespaceIn_eq_ok.1 hns
  refine InStep.bind (inStep_add here token _ _) fun id _ hadd => ?_
  obtain ⟨rfl, rfl⟩ := add_eq_ok.1 hadd
  refine InStep.bind (hchildren.inside here a _) fun kids _ hkids => ?_
  refine InStep.bind (Shift.position_under σ here _ ▸ inStep_settle _ kids)
    fun displaced _ hsettle => ?_
  obtain ⟨-, rfl, -⟩ := exists_row_of_children
    (adds_raiseAll fun b hb => adds_raise (hplace b hb)) hkids hsettle
  refine InStep.bind (inStep_mapM_slice endTag) fun closer _ _ => ?_
  refine InStep.bind (inStep_close d here _ _ tag closer) fun _ _ _ => ?_
  exact InStep.bind (inStep_adopt_nil here) fun _ _ _ => inStep_pure rfl

/-- **A blueprint that asks for no place of its own becomes the same nodes**, moved. -/
theorem raise_shift (hread : d.readAttribute.Portable) {b : Blueprint} (h : b.InPlace) :
    Portable σ (fun here => raise d (.alone text) here b)
      fun here => raise d (σ.source text) here (σ.blueprint b) := by
  induction h with
  | leaf span kind =>
    intro here a _
    simp only [Shift.blueprint, raise, Placement.resolve_default]
    exact InStep.bind (inStep_slice span) fun token _ _ => inStep_leaf here token kind
  | block span name inside ih => exact portable_block inside (portable_raiseAll inside ih)
  | element startTag endTag inside ih =>
    exact portable_element hread inside (portable_raiseAll inside ih)
  | group span inside ih =>
    intro here a hparent
    simp only [Shift.blueprint, raise, Placement.resolve_default]
    refine InStep.bind (inStep_mapM_slice span) fun _ _ hspan => ?_
    obtain ⟨-, rfl⟩ := mapM_slice_eq_ok.1 hspan
    exact portable_raiseAll inside ih hparent
  | fault error =>
    intro here a _
    simp only [Shift.blueprint, raise]
    rfl

end Blueprint

end Markup
