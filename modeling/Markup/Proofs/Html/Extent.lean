import Markup.Proofs.Html.Refusal

/-!
# Proofs/Html/Extent — what is in an HTML tree lies side by side

Whatever the dialect sets, a text is read **in no more steps than it has characters**
(`length_le_of_documentLexemes`) and its trees cover it without a gap: `Tree.Covered` says so of one
tree, `Within.covered` of all at any depth.  The one fault of a text is the tag that it ends in
(`Tree.covered_of_ofText`).
-/

namespace Markup.Html

variable {config : Config}

/-! ## The end of reading -/

/-- **A document has no more lexemes than characters.** -/
theorem length_le_of_documentLexemes {front : Bool} {cs : List Char} {ls : List Lexeme}
    (h : documentLexemes config front cs = .ok ls) : ls.length ≤ cs.length := by
  have hproper := proper_of_documentLexemes h
  rw [← (flatMap_text_of_documentLexemes h).1]
  clear h
  induction ls with
  | nil => exact Nat.le_refl _
  | cons l ls ih =>
    obtain ⟨hl, hls⟩ := List.forall_mem_cons.1 hproper
    have hpos := List.length_pos_iff.2 hl.text_ne_nil
    have hrest := ih hls
    rw [List.flatMap_cons, List.length_append, List.length_cons]
    omega

/-! ## Covered trees -/

/-- **A tree whose parts lie side by side**: it is not empty, and inside an element the children run
from the start tag to the end tag, with which the element ends, or to the end of the element if it
has none. -/
def Tree.Covered : Tree → Prop
  | .leaf _ span | .stray span => span.start < span.stop
  | .element _ span startTagEnd endTag children =>
    span.start < startTagEnd ∧ startTagEnd ≤ span.stop ∧
      ∃ content, Tiled startTagEnd content children ∧ Closes content span.stop endTag

/-- A well-formed tree is covered unless it is empty… -/
theorem Tree.WellFormed.covered {source : List Char} {t : Tree} (h : t.WellFormed source)
    (hlt : t.span.start < t.span.stop) : t.Covered := by
  cases h with
  | leaf | stray => exact hlt
  | element startTag written closed row inside closes =>
    exact ⟨startTag, Nat.le_trans row.le closes.le, _, row, closes⟩

/-- …and no tree of a row is, at any depth. -/
theorem Within.lt {source : List Char} {trees : List Tree} {start stop : Nat} {t : Tree}
    (hforest : Forest (Tree.WellFormed source) start stop trees) (h : Within trees t) :
    t.span.start < t.span.stop := by
  cases h with
  | root mem => exact hforest.tiled.lt_of_mem mem
  | inside outer mem =>
    cases outer.wellFormed hforest.all with
    | element startTag written closed row => exact row.lt_of_mem mem

theorem Within.covered {source : List Char} {trees : List Tree} {start stop : Nat} {t : Tree}
    (hforest : Forest (Tree.WellFormed source) start stop trees) (h : Within trees t) :
    t.Covered :=
  (h.wellFormed hforest.all).covered (h.lt hforest)

/-- **Reading ends, and what is read covers the text**, for every dialect: each step takes a
character, the roots run from the beginning of the text to its end, and what is in them lies side by
side at any depth; but for a text that ends in a tag, which is refused from there on. -/
theorem Tree.covered_of_ofText (config : Config) (front : Bool) (text : List Char) :
    (∃ ls, documentLexemes config front text = .ok ls ∧ ls.length ≤ text.length ∧
      ofText config front text = .ok (ofLexemes config ls) ∧
        Tiled 0 (Text.byteSize text) (ofLexemes config ls) ∧
          ∀ t, Within (ofLexemes config ls) t → t.Covered) ∨
    ∃ before unread, text = before ++ unread ∧ EndsInTag config unread ∧
      ofText config front text =
        .error ⟨"Unexpected end of file in tag", ⟨Text.byteSize before, Text.byteSize text⟩⟩ := by
  cases hls : documentLexemes config front text with
  | ok ls =>
    have htrees : ofText config front text = .ok (ofLexemes config ls) := by rw [ofText, hls]
    have hforest := forest_of_ofText htrees
    exact Or.inl ⟨ls, rfl, length_le_of_documentLexemes hls, htrees, hforest.tiled,
      fun t ht => ht.covered hforest⟩
  | error unread =>
    have hrefused : ∃ r, ofText config front text = .error r := by
      rw [ofText, hls]
      exact ⟨_, rfl⟩
    obtain ⟨r, hr⟩ := hrefused
    obtain ⟨before, unread, happ, htag, rfl⟩ := endsInTag_of_ofText hr
    exact Or.inr ⟨before, unread, happ, htag, hr⟩

-- The end tag of `p` begins at once, that of `q` with a letter of two bytes.
example : (Tree.ofText { ignored := [⟨"p", "<p", ""⟩, ⟨"q", "<q", "é"⟩] } true
    "---\n---\n<p>a><Q>bé>c".toList).toOption.map (List.map Tree.span) =
      some [⟨0, 8⟩, ⟨8, 13⟩, ⟨13, 20⟩, ⟨20, 21⟩] := by
  decide +kernel

end Markup.Html
