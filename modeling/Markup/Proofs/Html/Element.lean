import Markup.Proofs.Blueprint.Element
import Markup.Proofs.Html.Dialect
import Markup.Proofs.Html.Growth

/-!
# Proofs/Html/Element — the elements of an HTML document and their start tags

Every element of the trees of a text begins with a start tag that is written there, so the splitter
reads it without a rest where it is in step (`splitsAt_of_within`).  In a document the element
**has neither children nor an end tag if the reader took the tag for one that closes itself**
(`selfClosing_of_mem`).
-/

namespace Markup.Html

variable {source : Source}

/-- **A tree of a row**, at any depth. -/
inductive Within (trees : List Tree) : Tree → Prop
  | root {t : Tree} (mem : t ∈ trees) : Within trees t
  | inside {name : String} {span : Span} {startTagEnd : Nat} {endTag : Option Span}
      {children : List Tree} {t : Tree}
      (outer : Within trees (.element name span startTagEnd endTag children))
      (mem : t ∈ children) : Within trees t

theorem Within.wellFormed {text : List Char} {trees : List Tree} {t : Tree}
    (hgood : ∀ t ∈ trees, t.WellFormed text) (h : Within trees t) : t.WellFormed text := by
  induction h with
  | root mem => exact hgood _ mem
  | inside outer mem ih =>
    cases ih with
    | element startTag written closed row inside => exact inside _ mem

/-- The name and the start tag of a tree that is an element. -/
def Tree.startTag? : Tree → Option (String × Span)
  | .element name span startTagEnd _ _ => some (name, ⟨span.start, startTagEnd⟩)
  | _ => none

/-- **The start tag of every element is split without a rest**, if it ends for the splitter. -/
theorem splitsAt_of_within {front : Bool} {trees : List Tree}
    (htrees : Tree.ofText config front source.text = .ok trees) {t : Tree} (h : Within trees t)
    {name : String} {span : Span} (htag : t.startTag? = some (name, span)) :
    StartTag.SplitsAt dialect Quote.html InStep source span name := by
  cases h.wellFormed (Tree.forest_of_ofText htrees).all with
  | element startTag written =>
    obtain ⟨rfl, rfl⟩ := Prod.mk.inj (Option.some.inj htag)
    obtain ⟨hslice, hwritten⟩ := written
    obtain ⟨token, htoken, rfl⟩ := Source.exists_slice hslice
    exact ⟨token, htoken, hwritten.endsFor, hwritten.splitsWhole htoken rfl⟩
  | _ => exact absurd htag (by simp [Tree.startTag?])

/-! ## Documents -/

/-- What a blueprint of an element says of its start tag. -/
def ClosedAtOnce (source : Source) (startTag : Span) (children : List Blueprint)
    (endTag : Option Span) : Prop :=
  ∃ name raw, StartTagAt source.text startTag name raw ∧
    ((TagRule.ofName name).isVoid = true ∨ isSelfClosing raw = true →
      endTag = none ∧ children = [])

theorem allElements_leafBlueprint {p : Span → List Blueprint → Option Span → Prop} (kind : Mark)
    (span : Span) : (leafBlueprint source kind span).AllElements p := by
  cases kind with
  | frontMatter => exact .block (by simp)
  | cdata => exact .block (by simp)
  | _ => exact .leaf ..

/-- **What holds of the elements of a well-formed tree holds of those of its blueprint**, where the
trees inside have a property of their own. -/
theorem Tree.WellFormed.allElements_of {p : Span → List Blueprint → Option Span → Prop}
    {q : Tree → Prop} {t : Tree} (h : t.WellFormed source.text) (hq : t.Every q)
    (helement : ∀ name span startTagEnd endTag children,
      (Tree.element name span startTagEnd endTag children).WellFormed source.text →
        q (.element name span startTagEnd endTag children) →
          p ⟨span.start, startTagEnd⟩ (children.map (Tree.blueprint source)) endTag) :
    (t.blueprint source).AllElements p := by
  induction h with
  | leaf kind span =>
    rw [Tree.blueprint]
    exact allElements_leafBlueprint kind span
  | stray span =>
    rw [Tree.blueprint]
    exact .leaf ..
  | @element name span startTagEnd content endTag raw children startTag written closed row inside
      closes ih =>
    obtain ⟨here, hinside⟩ := hq
    rw [Tree.blueprint, Tree.blueprints_eq_map]
    have hchildren := List.forall_mem_map.2 fun t ht => ih t ht (hinside t ht)
    exact .group (List.forall_mem_singleton.2
      (.element (helement _ _ _ _ _ (.element startTag written closed row inside closes) here)
        hchildren))

/-- **The blueprint of a well-formed tree has its elements closed at once where their tags are.** -/
theorem Tree.WellFormed.allElements {t : Tree} (h : t.WellFormed source.text) :
    (t.blueprint source).AllElements (ClosedAtOnce source) := by
  refine h.allElements_of h.every fun name span startTagEnd endTag children hgood _ => ?_
  cases hgood with
  | element startTag written closed =>
    refine ⟨name, _, written, fun hclosed => ?_⟩
    obtain ⟨hend, hnone⟩ := closed hclosed
    exact ⟨hend, by rw [hnone, List.map_nil]⟩

/-- **An element of a document is built of a start tag** with which it is closed at once, if its
reader took it for one that is. -/
theorem exists_built_of_mem {text : String} {options : Options} {doc : Document}
    (hparse : Document.parse dialect text options = .ok doc) {n : Node} (hn : n ∈ doc.nodes)
    {e : Element} (he : n.data = .element e) :
    ∃ name span children endTag, IsStartTag n.token.raw.toList name ∧
      ((TagRule.ofName name).isVoid = true ∨ isSelfClosing n.token.raw.toList = true →
        endTag = none ∧ children = []) ∧
      (Source.ofString text options.base).slice span = .ok n.token ∧
        e.BuiltOf dialect (Source.ofString text options.base) n.token children endTag := by
  obtain ⟨reading, tops, hread, hrow⟩ :=
    Document.row_of_parse (fun reading hread => (covers_of_read hread).inPlace) hparse
  obtain ⟨trees, htrees, hreading⟩ := Except.bind_eq_ok.1 hread
  have hgood := (Tree.forest_of_ofText htrees).all
  cases hreading
  rw [Tree.blueprints_eq_map] at hrow
  have hall := List.forall_mem_map.2 fun t ht => (hgood t ht).allElements
  obtain ⟨startTag, children, endTag, ⟨name, raw, ⟨hslice, htag⟩, hclosed⟩, htoken, hbuilt⟩ :=
    hrow.exists_of_element hall (Array.mem_toList_iff.2 hn) he
  obtain rfl : n.token.raw.toList = raw :=
    Option.some.inj ((Source.slice?_of_slice htoken).symm.trans hslice)
  exact ⟨name, startTag, children, endTag, htag, hclosed, htoken, hbuilt⟩

/-- The text of an element is a start tag with its name. -/
theorem isStartTag_of_mem {text : String} {options : Options} {doc : Document}
    (hparse : Document.parse dialect text options = .ok doc) {n : Node} (hn : n ∈ doc.nodes)
    {e : Element} (he : n.data = .element e) : IsStartTag n.token.raw.toList e.name := by
  obtain ⟨name, span, children, endTag, htag, -, -, hbuilt⟩ := exists_built_of_mem hparse hn he
  have hname : e.name = name := htag.name_of_read hbuilt.read
  exact hname ▸ htag

/-- **An element of a document whose start tag its reader took for self-closing has neither children
nor an end tag**; the tag ends in a slash exactly if the element closes itself or its last attribute
ends in one, if the reader and the splitter are in step. -/
theorem selfClosing_of_mem {text : String} {options : Options} {doc : Document}
    (hparse : Document.parse dialect text options = .ok doc) {n : Node} (hn : n ∈ doc.nodes)
    {e : Element} (he : n.data = .element e) :
    (isSelfClosing n.token.raw.toList = true → e.children = [] ∧ e.endTag = none) ∧
      (StartTag.EndsFor Quote.html n.token.raw.toList → isSelfClosing n.token.raw.toList =
        (e.selfClosing || StartTag.lastEndsInSlash e.attributes)) := by
  obtain ⟨name, span, children, endTag, htag, hclosed, htoken, hbuilt⟩ :=
    exists_built_of_mem hparse hn he
  refine ⟨fun hself => ?_, fun hends => ?_⟩
  · obtain ⟨hend, hchildren⟩ := hclosed (Or.inr hself)
    exact ⟨hbuilt.children hchildren, hbuilt.endTag.2 hend⟩
  · obtain ⟨tag, hread, -, hwhole⟩ := htag.splitsWhole htoken rfl hends
    obtain rfl := Except.ok.inj (hread.symm.trans hbuilt.read)
    exact hwhole.endsInSlash_dropLast

end Markup.Html
