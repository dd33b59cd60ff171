import Markup.Proofs.Blueprint.Nesting
import Markup.Proofs.Source.Token

/-!
# Proofs/Blueprint/Element — an element of a row is what a blueprint said

What holds of **all elements that blueprints ask for** (`Blueprint.AllElements`) holds of the
elements of the row that they become: each is the start tag of one of them, and has children or an
end tag only if that does (`Row.exists_of_element`); and each end tag that closes something is the
one that the element was given with (`Row.exists_endTagOf`).
-/

namespace Markup

/-- **Something holds of all elements in a blueprint**: of their start tags, their children and
their end tags. -/
inductive Blueprint.AllElements (p : Span → List Blueprint → Option Span → Prop) : Blueprint → Prop
  | leaf (place : Placement) (span : Span) (kind : Leaf) : AllElements p (.leaf place span kind)
  | block {place : Placement} {span : Span} {name : String} {children : List Blueprint}
      (inside : ∀ b ∈ children, AllElements p b) : AllElements p (.block place span name children)
  | element {place : Placement} {startTag : Span} {endTag : Option Span} {children : List Blueprint}
      (here : p startTag children endTag) (inside : ∀ b ∈ children, AllElements p b) :
      AllElements p (.element place startTag children endTag)
  | group {place : Placement} {span : Option Span} {items : List Blueprint}
      (inside : ∀ b ∈ items, AllElements p b) : AllElements p (.group place span items)
  | fault (error : Error) : AllElements p (.fault error)

/-- **An element is what a blueprint says**, read from the token of its start tag. -/
structure Element.BuiltOf (d : Dialect) (source : Source) (token : Token)
    (children : List Blueprint) (endTag : Option Span) (e : Element) : Prop where
  read : StartTag.read d.readAttribute source token = .ok ⟨e.name, e.attributes, e.selfClosing⟩
  children : children = [] → e.children = []
  endTag : e.endTag = none ↔ endTag = none

variable {d : Dialect} {source : Source} {here : Position} {ns inside : Namespace} {start : Nat}
  {p : Span → List Blueprint → Option Span → Prop}

theorem Trunk.children_allElements {inner closers : List Node} {kids : List NodeId} {b : Blueprint}
    {children : List Blueprint} {node : Node}
    (h : Trunk d source here ns start inner kids b children inside node closers)
    (hb : b.AllElements p) : ∀ b ∈ children, b.AllElements p := by
  cases h with
  | block => cases hb with | block hinside => exact hinside
  | element => cases hb with | element _ hinside => exact hinside

/-- Nothing that closes a node is an element. -/
theorem Trunk.data_closer_ne {inner closers : List Node} {kids : List NodeId} {b : Blueprint}
    {children : List Blueprint} {node n : Node}
    (h : Trunk d source here ns start inner kids b children inside node closers) (hn : n ∈ closers)
    (e : Element) : n.data ≠ .element e := by
  cases h with
  | block => exact absurd hn List.not_mem_nil
  | element _ _ closing => cases closing <;> simp_all [Position.node]

/-- **Every element of a row is what one of its blueprints says.** -/
theorem Row.exists_of_element {bs : List Blueprint} {nodes : List Node} {tops : List NodeId}
    (h : Row d source here ns start bs nodes tops) (hall : ∀ b ∈ bs, b.AllElements p) {n : Node}
    (hn : n ∈ nodes) {e : Element} (he : n.data = .element e) :
    ∃ startTag children endTag, p startTag children endTag ∧
      source.slice startTag = .ok n.token ∧ e.BuiltOf d source n.token children endTag := by
  induction h with
  | nil => exact absurd hn List.not_mem_nil
  | @leaf _ _ _ _ _ kind _ _ _ slice rest ih =>
    rw [List.forall_mem_cons] at hall
    rcases List.mem_cons.1 hn with rfl | hlater
    · cases kind <;> simp [Leaf.node, Position.node] at he
    · exact ih hall.2 hlater
  | @trunk here ns _ start b children bs node inner closers nodes kids tops grows content rest
      ihContent ihRest =>
    rw [List.forall_mem_cons] at hall
    rw [List.mem_cons, List.mem_append, List.mem_append] at hn
    rcases hn with rfl | (hinner | hcloser) | hlater
    · cases grows with
      | block => simp [Position.node] at he
      | @element startTag token tag endTag children link implied closers slice read closing =>
        cases hall.1 with
        | element hhere =>
          obtain rfl := NodeData.element.inj he
          refine ⟨startTag, children, endTag, hhere, slice, ⟨read, ?_, ?_⟩⟩
          · rintro rfl
            cases content
            rfl
          · cases closing <;> simp [Dialect.elementOf]
    · exact ihContent (grows.children_allElements hall.1) hinner
    · exact absurd he (grows.data_closer_ne hcloser e)
    · exact ihRest hall.2 hlater
  | group content rest ihContent ihRest =>
    rw [List.forall_mem_cons] at hall
    rcases List.mem_append.1 hn with hfirst | hlater
    · cases hall.1 with
      | group hitems => exact ihContent hitems hfirst
    · exact ihRest hall.2 hlater

/-- **A node is the end tag of an element** that one of the blueprints asked for with it. -/
inductive Node.EndTagOf (d : Dialect) (source : Source)
    (p : Span → List Blueprint → Option Span → Prop) (n m : Node) : Prop
  | intro {e : Element} {startTag span : Span} {children : List Blueprint}
      (element : m.data = .element e) (asked : p startTag children (some span))
      (startSlice : source.slice startTag = .ok m.token)
      (read : StartTag.read d.readAttribute source m.token =
        .ok ⟨e.name, e.attributes, e.selfClosing⟩)
      (slice : source.slice span = .ok n.token)
      (data : n.data = .endTag (String.ofList (endTagName n.token.raw.toList)) (some m.id))

/-- **What closes an element is its end tag**, if it is one at all. -/
theorem Trunk.endTagOf {inner closers : List Node} {kids : List NodeId} {b : Blueprint}
    {children : List Blueprint} {node n : Node}
    (h : Trunk d source here ns start inner kids b children inside node closers)
    (hb : b.AllElements p) (hn : n ∈ closers) (hpair : n.pair?.isSome = true) :
    n.EndTagOf d source p node := by
  cases h with
  | block => exact absurd hn List.not_mem_nil
  | element slice read closing =>
    cases hb with
    | element asked =>
      cases closing with
      | endTag endSlice =>
        obtain rfl := List.mem_singleton.1 hn
        exact .intro rfl asked slice read endSlice rfl
      | ghost =>
        obtain rfl := List.mem_singleton.1 hn
        exact absurd hpair Bool.false_ne_true
      | nothing => exact absurd hn List.not_mem_nil

/-- **Every end tag of a row that closes something** is that of an element of the row. -/
theorem Row.exists_endTagOf {bs : List Blueprint} {nodes : List Node} {tops : List NodeId}
    (h : Row d source here ns start bs nodes tops) (hall : ∀ b ∈ bs, b.AllElements p) {n : Node}
    (hn : n ∈ nodes) (hpair : n.pair?.isSome = true) : ∃ m ∈ nodes, n.EndTagOf d source p m := by
  induction h with
  | nil => exact absurd hn List.not_mem_nil
  | @leaf _ _ _ _ _ kind _ _ _ slice rest ih =>
    rw [List.forall_mem_cons] at hall
    rcases List.mem_cons.1 hn with rfl | hlater
    · cases kind <;> exact absurd hpair Bool.false_ne_true
    · obtain ⟨m, hm, hend⟩ := ih hall.2 hlater
      exact ⟨m, List.mem_cons_of_mem _ hm, hend⟩
  | @trunk here ns _ start b children bs node inner closers nodes kids tops grows content rest
      ihContent ihRest =>
    rw [List.forall_mem_cons] at hall
    rw [List.mem_cons, List.mem_append, List.mem_append] at hn
    rcases hn with rfl | (hinner | hcloser) | hlater
    · cases grows <;> exact absurd hpair Bool.false_ne_true
    · obtain ⟨m, hm, hend⟩ := ihContent (grows.children_allElements hall.1) hinner
      exact ⟨m, by simp [hm], hend⟩
    · exact ⟨node, List.mem_cons_self, grows.endTagOf hall.1 hcloser hpair⟩
    · obtain ⟨m, hm, hend⟩ := ihRest hall.2 hlater
      exact ⟨m, by simp [hm], hend⟩
  | group content rest ihContent ihRest =>
    rw [List.forall_mem_cons] at hall
    rcases List.mem_append.1 hn with hfirst | hlater
    · cases hall.1 with
      | group hitems =>
        obtain ⟨m, hm, hend⟩ := ihContent hitems hfirst
        exact ⟨m, List.mem_append_left _ hm, hend⟩
    · obtain ⟨m, hm, hend⟩ := ihRest hall.2 hlater
      exact ⟨m, List.mem_append_right _ hm, hend⟩

/-- The end tag that a blueprint gives to an element **ends elements of the name that is read of the
start tag**, in a sense of the dialect. -/
def EndedByName (d : Dialect) (ends : String → List Char → Prop) (source : Source)
    (startTag : Span) (_ : List Blueprint) (endTag : Option Span) : Prop :=
  ∀ token tag, source.slice startTag = .ok token →
    StartTag.read d.readAttribute source token = .ok tag → ∀ span, endTag = some span →
      ∃ raw, Text.slice? span.start span.stop source.text = some raw ∧ ends tag.name raw

/-- **An end tag of a row that closes something** closes an element for whose name it is. -/
theorem Row.ends_of_pair {ends : String → List Char → Prop} {bs : List Blueprint}
    {nodes : List Node} {tops : List NodeId} (h : Row d source here ns 0 bs nodes tops)
    (hall : ∀ b ∈ bs, b.AllElements (EndedByName d ends source)) {n : Node} (hn : n ∈ nodes)
    {name : String} {id : NodeId} (hdata : n.data = .endTag name (some id)) :
    ∃ m e, nodes[id]? = some m ∧ m.data = .element e ∧ ends e.name n.token.raw.toList ∧
      name = String.ofList (endTagName n.token.raw.toList) := by
  obtain ⟨m, hm, hend⟩ := h.exists_endTagOf hall hn (by rw [Node.pair?, hdata]; rfl)
  obtain ⟨he, hends, startSlice, hread, hslice, hn⟩ := hend
  obtain ⟨rfl, hid⟩ := NodeData.endTag.inj (hdata.symm.trans hn)
  obtain rfl := Option.some.inj hid
  obtain ⟨raw, hraw, hends⟩ := hends _ _ startSlice hread _ rfl
  obtain rfl := Option.some.inj ((Source.slice?_of_slice hslice).symm.trans hraw)
  have hget := h.getElem?_id [] [] rfl hm
  rw [List.nil_append, List.append_nil] at hget
  exact ⟨m, _, hget, he, hends, rfl⟩

end Markup
