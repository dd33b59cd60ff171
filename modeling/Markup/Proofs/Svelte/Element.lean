import Markup.Proofs.Blueprint.Element
import Markup.Proofs.Svelte.Growth
import Markup.Proofs.Svelte.StartTag

/-!
# Proofs/Svelte/Element — the elements of a template and their start tags

Every element of a template, in whatever block it stands, begins with a start tag that is written
there, so the splitter reads it without a rest where it is in step (`splitsAt_of_within`).  In a
document an element **has no end tag exactly if its reader took the tag for one that closes itself,
or it is void** (`selfClosing_of_mem`).
-/

namespace Markup.Svelte

variable {source : Source}

/-- **A tree of a template**, at any depth. -/
inductive Within (trees : List Tree) : Tree → Prop
  | root {t : Tree} (mem : t ∈ trees) : Within trees t
  | inside {t u : Tree} {part : Part} (outer : Within trees t) (shown : part ∈ t.parts)
      (mem : u ∈ part.body) : Within trees u

theorem Within.wellFormed {text : List Char} {trees : List Tree} {t : Tree}
    (hgood : ∀ t ∈ trees, t.WellFormed text) (h : Within trees t) : t.WellFormed text := by
  induction h with
  | root mem => exact hgood _ mem
  | inside outer shown mem ih => exact ih.of_mem_parts shown _ mem

/-- What holds of all trees of a template, inside and out, holds of each. -/
theorem Within.every {p : Tree → Prop} {trees : List Tree} {t : Tree} (h : Within trees t)
    (hall : ∀ t ∈ trees, t.Every p) : t.Every p := by
  induction h with
  | root mem => exact hall _ mem
  | inside outer shown mem ih =>
    obtain ⟨-, hinside⟩ := ih
    exact hinside _ shown _ mem

/-- **No tree of a template is empty.** -/
theorem Within.lt {text : List Char} {trees : List Tree} {start stop : Nat} {t : Tree}
    (hforest : Forest (Tree.WellFormed text) start stop trees) (h : Within trees t) :
    t.span.start < t.span.stop := by
  cases h with
  | root mem => exact hforest.tiled.lt_of_mem mem
  | inside outer shown mem => exact (outer.wellFormed hforest.all).lt_of_mem_parts shown _ mem

/-- The name and the start tag of a tree that is an element. -/
def Tree.startTag? : Tree → Option (String × Span)
  | .element name span startTagEnd _ _ => some (name, ⟨span.start, startTagEnd⟩)
  | _ => none

/-- **The start tag of every element is split without a rest**, if it ends for the splitter. -/
theorem splitsAt_of_within {trees : List Tree}
    (htrees : Tree.ofText config source.text = .ok trees) {t : Tree} (h : Within trees t)
    {name : String} {span : Span} (htag : t.startTag? = some (name, span)) :
    StartTag.SplitsAt dialect tagQuotes InStep source span name := by
  cases h.wellFormed (Tree.forest_of_ofText htrees).all with
  | element startTag written =>
    obtain ⟨rfl, rfl⟩ := Prod.mk.inj (Option.some.inj htag)
    obtain ⟨raw, hslice, hwritten⟩ := written
    obtain ⟨token, htoken, rfl⟩ := Source.exists_slice hslice
    exact ⟨token, htoken, hwritten.endsFor, hwritten.splitsWhole htoken rfl⟩
  | _ => exact absurd htag (by simp [Tree.startTag?])

/-! ## Documents -/

/-- What a blueprint of an element says of its start tag. -/
def EndedUnlessClosed (source : Source) (startTag : Span) (children : List Blueprint)
    (endTag : Option Span) : Prop :=
  ∃ name closes, StartTagAt source.text startTag name closes ∧
    (endTag = none ↔ closes = true ∨ isVoidName name = true) ∧ (endTag = none → children = [])

/-- The elements of sections are those of the trees in them. -/
theorem allElements_ofSection {p : Span → List Blueprint → Option Span → Prop} {role : String}
    {s : Section Tree} (h : ∀ t ∈ s.children, (t.blueprint source).AllElements p) :
    (Blueprint.ofSection role (plannedSection source s)).AllElements p := by
  rw [ofSection_planned, blueprints_eq_map]
  exact .block (List.forall_mem_map.2 h)

/-- **What holds of the elements of a well-formed tree holds of those of its blueprint**, where the
trees inside have a property of their own. -/
theorem Tree.WellFormed.allElements_of {p : Span → List Blueprint → Option Span → Prop}
    {q : Tree → Prop} {t : Tree} (h : t.WellFormed source.text) (hq : t.Every q)
    (helement : ∀ name span startTagEnd endTag children,
      (Tree.element name span startTagEnd endTag children).WellFormed source.text →
        q (.element name span startTagEnd endTag children) →
          p ⟨span.start, startTagEnd⟩ (children.map (Tree.blueprint source)) endTag) :
    (t.blueprint source).AllElements p := by
  induction h with
  | text | comment =>
    rw [Tree.blueprint]
    exact .leaf ..
  | mustache =>
    rw [Tree.blueprint]
    exact .block (by simp)
  | special written =>
    obtain ⟨header, htag, -⟩ := written
    rcases blueprint_special htag.lt with heq | ⟨e, -, heq⟩
    · rw [heq]
      exact .group (List.forall_mem_singleton.2 (.block (by simp)))
    · rw [heq]
      exact .group (List.forall_mem_singleton.2 (.fault e))
  | element startTag written closed empty row inside closes ih =>
    obtain ⟨here, hinside⟩ := hq
    rw [Tree.blueprint, blueprints_eq_map]
    have hchildren := List.forall_mem_map.2 fun t ht =>
      ih t ht (hinside _ (List.mem_singleton_self _) t ht)
    exact .group (List.forall_mem_singleton.2
      (.element (helement _ _ _ _ _ (.element startTag written closed empty row inside closes) here)
        hchildren))
  | @block kind head clauses content opens row inside written closes closer ih =>
    have hsections := hq.of_block
    rcases blueprint_block row written closes closer with ⟨-, heq⟩ | ⟨e, -, heq⟩
    · rw [heq, plannedVisits_eq_map, List.map_map]
      refine .group (List.forall_mem_append.2 ⟨?_, List.forall_mem_singleton.2 (.block (by simp))⟩)
      refine List.forall_mem_map.2 fun visit hvisit => allElements_ofSection fun t ht => ?_
      have hmem : visit.2 ∈ head :: clauses.map Prod.snd :=
        List.mem_map_of_mem (f := Prod.snd) hvisit
      exact ih visit.2 hmem t ht (hsections visit.2 hmem t ht)
    · rw [heq]
      exact .group (List.forall_mem_singleton.2 (.fault e))

/-- **The blueprint of a well-formed tree has an end tag for each element that is not closed.** -/
theorem Tree.WellFormed.allElements {t : Tree} (h : t.WellFormed source.text) :
    (t.blueprint source).AllElements (EndedUnlessClosed source) := by
  refine h.allElements_of h.every fun name span startTagEnd endTag children hgood _ => ?_
  cases hgood with
  | element startTag written closed empty =>
    exact ⟨name, _, written, closed, fun hend => by rw [empty hend, List.map_nil]⟩

/-- **An element of a document has no end tag exactly if it is void or its reader took its start tag
for self-closing**, and then no children; for the reader a tag closes itself if it ends in a slash
and has no blank before the bracket, where the slash is that of the element or one that its last
attribute ends in, if the reader and the splitter are in step. -/
theorem selfClosing_of_mem {text : String} {options : Options} {doc : Document}
    (hparse : Document.parse dialect text options = .ok doc) {n : Node} (hn : n ∈ doc.nodes)
    {e : Element} (he : n.data = .element e) :
    ∃ closes, IsStartTag n.token.raw.toList e.name closes ∧
      (e.endTag = none ↔ closes = true ∨ isVoidName e.name = true) ∧
      (e.endTag = none → e.children = []) ∧
      (StartTag.EndsFor tagQuotes n.token.raw.toList → (closes = true ↔
        (e.selfClosing || StartTag.lastEndsInSlash e.attributes) = true ∧
          ∀ c, n.token.raw.toList.dropLast.getLast? = some c → Text.isBlank c = false)) := by
  obtain ⟨reading, tops, hread, hrow⟩ :=
    Document.row_of_parse (fun reading hread => (covers_of_read options hread).inPlace) hparse
  obtain ⟨trees, htrees, hreading⟩ := Except.bind_eq_ok.1 hread
  have hgood := (Tree.forest_of_ofText htrees).all
  cases hreading
  rw [blueprints_eq_map] at hrow
  have hall := List.forall_mem_map.2 fun t ht => (hgood t ht).allElements
  obtain ⟨startTag, children, endTag, ⟨name, closes, ⟨raw, hslice, htag⟩, hended, hempty⟩, htoken,
    hbuilt⟩ := hrow.exists_of_element hall (Array.mem_toList_iff.2 hn) he
  obtain rfl : n.token.raw.toList = raw :=
    Option.some.inj ((Source.slice?_of_slice htoken).symm.trans hslice)
  obtain rfl : e.name = name := htag.name_of_read hbuilt.read
  refine ⟨closes, htag, hbuilt.endTag.trans hended, fun hend => ?_, fun hends => ?_⟩
  · exact hbuilt.children (hempty (hbuilt.endTag.1 hend))
  · obtain ⟨tag, hread, -, hwhole⟩ := htag.splitsWhole htoken rfl hends
    obtain rfl := Except.ok.inj (hread.symm.trans hbuilt.read)
    rw [htag.selfClosing_iff, StartTag.getLast?_eq_slash_iff, hwhole.endsInSlash_dropLast]

end Markup.Svelte
