import Markup.Html.Dialect
import Markup.Proofs.Document.Lossless
import Markup.Proofs.Html.Tree

/-!
# Proofs/Html/Dialect — HTML loses nothing of its source

The trees of a text cover it (`Tree.forest_of_ofText`) and **their blueprints keep their ranges**,
so every document that is parsed as HTML is its source again.
-/

namespace Markup.Html

open Blueprint (Covers)

variable {source : Source}

theorem covers_leafBlueprint {kind : Mark} {span : Span} (h : span.start < span.stop) :
    Covers span.start span.stop [leafBlueprint source kind span] := by
  cases kind with
  | frontMatter => exact Covers.block h Covers.nil Covers.nil
  | cdata => exact Covers.block h Covers.nil Covers.nil
  | _ => exact Covers.leaf h Covers.nil

theorem Tree.blueprints_eq_map (trees : List Tree) :
    Tree.blueprints source trees = trees.map (Tree.blueprint source) := by
  induction trees with
  | nil => rw [Tree.blueprints, List.map_nil]
  | cons t trees ih => rw [Tree.blueprints, List.map_cons, ih]

/-- **The blueprint of a well-formed tree covers what the tree does.** -/
theorem Tree.WellFormed.covers {t : Tree} (h : t.WellFormed source.text)
    (hlt : t.span.start < t.span.stop) :
    Covers t.span.start t.span.stop [t.blueprint source] := by
  induction h with
  | leaf kind span =>
    rw [Tree.blueprint]
    exact covers_leafBlueprint hlt
  | stray span =>
    rw [Tree.blueprint]
    exact Covers.leaf hlt Covers.nil
  | element startTag written closed row inside closes ih =>
    rw [Tree.blueprint, Tree.blueprints_eq_map]
    have hchildren := Covers.of_tiled row ih
    exact Covers.group (Covers.element startTag hchildren closes Covers.nil) Covers.nil

/-- **The blueprints of an HTML source cover it.** -/
theorem covers_of_read {options : Options} {reading : Reading}
    (h : read source options = .ok reading) :
    Covers 0 (Text.byteSize source.text) reading.roots := by
  obtain ⟨trees, htrees, hreading⟩ := Except.bind_eq_ok.1 h
  cases hreading
  have hforest := Tree.forest_of_ofText htrees
  rw [Tree.blueprints_eq_map]
  exact Covers.of_tiled hforest.tiled fun t ht hlt => (hforest.all t ht).covers hlt

/-- **A document that is parsed as HTML is its source**, whatever the options are: its tokens begin
at the base, follow each other and end with the source, and the empty ones are ghosts. -/
theorem lossless_of_parse_html {text : String} {options : Options} {doc : Document}
    (h : Document.parse dialect text options = .ok doc) :
    doc.Lossless text options.offsetOffset := by
  refine Document.lossless_of_covers (fun reading hread => ?_) h
  rw [← Text.byteSize_toList]
  exact covers_of_read hread

/-- Front matter, omitted end tags, a stray one, opaque text and a comment that is left open. -/
def mixedPage : String := "---\nk: 1\n---\n<p>ä<p a='1'>b</i><script>x</script><!-- c"

theorem lossless_mixedPage : ∃ doc,
    Document.parse dialect mixedPage { ignoreFrontMatter := true, offsetOffset := 7 } = .ok doc ∧
      doc.Lossless mixedPage 7 := by
  have hok : (Document.parse dialect mixedPage
      { ignoreFrontMatter := true, offsetOffset := 7 }).isOk = true := by decide +kernel
  obtain ⟨doc, hparse⟩ := Except.exists_of_isOk hok
  exact ⟨doc, hparse, lossless_of_parse_html hparse⟩

end Markup.Html
