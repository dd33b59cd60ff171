import Markup.Proofs.Blueprint.Refusal
import Markup.Proofs.Html.Element

/-!
# Proofs/Html/Refusal — HTML names no place that is none of its text

A text is refused **from a tag on that is left open**, so the rest that is pointed at is what the
text ends with (`Tree.endsInTag_of_ofText`).  All offsets in its trees are boundaries, for each is
where a lexeme begins or ends (`Tree.every_cut`), and that makes their blueprints sound.
-/

namespace Markup.Html

variable {config : Config} {cs unread : List Char} {source : List Char}

/-! ## Texts that are refused -/

/-- **A tag that is left open to the end of the text**: a start tag or an end tag, or the text that
ends the opaque content of an element, and no bracket that ends it. -/
inductive EndsInTag (config : Config) (cs : List Char) : Prop
  | startTag (opens : opening cs = .startTag) (endless : readTag? (cs.take 1) (cs.drop 1) = none)
  | endTag (opens : opening cs = .endTag) (endless : readTag? (cs.take 2) (cs.drop 2) = none)
  | rawEnd {name closing : String} (closes : rawTextEnd? config name = some closing)
      (nonempty : cs ≠ []) (begins : Text.startsWithIgnoreCase closing.toList cs = true)
      (endless : tagTail? .plain (cs.drop closing.toList.length) = none)

/-- An end tag of opaque content that is left open is what the text ends with… -/
theorem endless_of_rawContent {closing : List Char}
    (h : rawContent closing cs = .error unread) :
    unread <:+ cs ∧ unread ≠ [] ∧ Text.startsWithIgnoreCase closing unread = true ∧
      tagTail? .plain (unread.drop closing.length) = none := by
  rw [rawContent] at h
  split at h
  · cases h
  · cases h
  · next content c after hcut =>
    split at h
    · next hendless =>
      cases h
      exact ⟨⟨content, Text.append_of_cutWhere hcut⟩, List.cons_ne_nil c after,
        Text.find_of_cutWhere hcut, hendless⟩
    · cases h

/-- …and so is any tag. -/
theorem Lexeme.endsInTag_of_next (h : next config cs = .error unread) :
    unread <:+ cs ∧ EndsInTag config unread := by
  rw [next] at h
  split at h
  · cases h
  · next hopening =>
    split at h
    · next hendless =>
      cases h
      exact ⟨List.suffix_rfl, .startTag hopening hendless⟩
    · next tag htag =>
      rw [ofStartTag] at h
      split at h
      · cases h
      · split at h
        · cases h
        · next hclosing =>
          obtain ⟨happ, -⟩ := append_of_readTag? htag
          rw [List.take_append_drop] at happ
          obtain ⟨hsuffix, hne, hbegins, hendless⟩ :=
            endless_of_rawContent (Except.map_eq_error.1 h)
          exact ⟨hsuffix.trans ⟨tag.raw, happ⟩, .rawEnd hclosing hne hbegins hendless⟩
  · next hopening =>
    split at h
    · next hendless =>
      cases h
      exact ⟨List.suffix_rfl, .endTag hopening hendless⟩
    · cases h
  · cases h

/-- **What the lexemes of a text leave unread is what the text ends with**, a tag. -/
theorem endsInTag_of_lexemes (h : lexemes config cs = .error unread) :
    unread <:+ cs ∧ EndsInTag config unread := by
  induction hlength : cs.length using Nat.strongRecOn generalizing cs with
  | ind n ih =>
    subst hlength
    cases cs with
    | nil =>
      rw [lexemes] at h
      cases h
    | cons c cs =>
      rw [lexemes] at h
      split at h
      · next hnext =>
        cases h
        exact Lexeme.endsInTag_of_next hnext
      · next lexeme rest hnext =>
        have hlt := Lexeme.length_lt_of_next hnext (List.cons_ne_nil c cs)
        have hrest : rest <:+ c :: cs := ⟨lexeme.text, (Lexeme.append_of_next hnext).1⟩
        exact (ih rest.length hlt (Except.map_eq_error.1 h) rfl).imp_left (·.trans hrest)

theorem endsInTag_of_documentLexemes {front : Bool}
    (h : documentLexemes config front cs = .error unread) :
    unread <:+ cs ∧ EndsInTag config unread := by
  rw [documentLexemes] at h
  split at h
  · exact endsInTag_of_lexemes h
  · next as bs hfront =>
    have hbs : bs <:+ cs := by
      cases front with
      | false => simp at hfront
      | true => exact ⟨as, (append_of_frontMatter? hfront).1⟩
    exact (endsInTag_of_lexemes (Except.map_eq_error.1 h)).imp_left (·.trans hbs)

/-- **A text is refused for the tag that it ends in**, from there to its end… -/
theorem Tree.endsInTag_of_ofText {front : Bool} {r : Rejection}
    (h : Tree.ofText config front cs = .error r) :
    ∃ before unread, cs = before ++ unread ∧ EndsInTag config unread ∧
      r = ⟨"Unexpected end of file in tag", ⟨Text.byteSize before, Text.byteSize cs⟩⟩ := by
  rw [Tree.ofText] at h
  split at h
  · cases h
  · next unread hunread =>
    cases h
    obtain ⟨⟨before, rfl⟩, htag⟩ := endsInTag_of_documentLexemes hunread
    exact ⟨before, unread, rfl, htag, by rw [Text.byteSize_append, Nat.add_sub_cancel]⟩

/-- …so a rejection points at a range of the text. -/
theorem pointsInto_of_ofText {front : Bool} {r : Rejection}
    (h : Tree.ofText config front cs = .error r) : r.PointsInto cs := by
  obtain ⟨before, unread, rfl, -, rfl⟩ := Tree.endsInTag_of_ofText h
  refine ⟨unread, Text.slice?_eq_some_iff.2 ⟨before, [], by simp, rfl, ?_⟩⟩
  exact (Text.byteSize_append before unread).symm

/-! ## Trees -/

/-- The offsets that a tree names. -/
def Tree.cuts : Tree → List Nat
  | .leaf _ span | .stray span => [span.start, span.stop]
  | .element _ span startTagEnd endTag _ =>
    [span.start, span.stop, startTagEnd] ++ endTag.toList.flatMap fun tag => [tag.start, tag.stop]

/-- **All offsets that a tree names are boundaries.** -/
def Tree.Cut (source : List Char) (t : Tree) : Prop :=
  ∀ n ∈ t.cuts, Text.isBoundary n source = true

theorem Tree.Cut.span {t : Tree} (h : t.Cut source) :
    Text.isBoundary t.span.start source = true ∧ Text.isBoundary t.span.stop source = true := by
  cases t with
  | leaf | stray => simpa [Cut, cuts, Tree.span] using h
  | element =>
    simp only [Cut, cuts, List.cons_append, List.forall_mem_cons] at h
    exact ⟨h.1, h.2.1⟩

/-- An element that is open begins with a tag between boundaries. -/
def OpensAtCut (source : List Char) (_ : String) (startTag : Span) : Prop :=
  Text.isBoundary startTag.start source = true ∧ Text.isBoundary startTag.stop source = true

/-- What is inside an open element ends at a boundary. -/
theorem OpenElement.Holds.isBoundary_contentEnd {e : OpenElement}
    (h : e.Holds (Tree.Cut source) (OpensAtCut source)) :
    Text.isBoundary e.contentEnd source = true := by
  obtain ⟨name, startTag, children⟩ := e
  cases children with
  | nil => exact h.1.2
  | cons last others =>
    obtain ⟨hlast, -⟩ := h.2 last List.mem_cons_self
    exact hlast.span.2

theorem closable_cut : Closable (Tree.Cut source) (OpensAtCut source) := by
  intro e h
  have hstop := h.isBoundary_contentEnd
  obtain ⟨hstart, hheader⟩ := h.1
  simp [OpenElement.close, Tree.Cut, Tree.cuts, hstart, hheader, hstop]

/-- **Whatever a lexeme adds is cut where the lexeme begins or ends**, or one of its parts. -/
theorem Lexeme.adds_cut {lexeme : Lexeme} {offset : Nat} {rest : List Char}
    (h : Text.dropBytes? offset source = some (lexeme.text ++ rest)) :
    lexeme.Adds (Tree.Cut source) (OpensAtCut source) config offset := by
  have hstart : Text.isBoundary offset source = true :=
    (Text.isRange_of_dropBytes? h).isBoundary.1
  have hends : Text.isBoundary (offset + Text.byteSize lexeme.text) source = true :=
    (Text.isRange_of_dropBytes? h).isBoundary.2
  cases lexeme with
  | mark kind raw =>
    have hstop : Text.isBoundary (offset + Text.byteSize raw) source = true := hends
    simp [Adds, Tree.Cut, Tree.cuts, hstart, hstop]
  | closedTag name raw =>
    have hstop : Text.isBoundary (offset + Text.byteSize raw) source = true := hends
    simp [Adds, Tree.Cut, Tree.cuts, hstart, hstop]
  | openTag name raw => exact ⟨hstart, hends⟩
  | endTag name raw =>
    have hstop : Text.isBoundary (offset + Text.byteSize raw) source = true := hends
    refine ⟨by simp [Tree.Cut, Tree.cuts, hstart, hstop], fun e he _ => ?_⟩
    obtain ⟨hopened, hheader⟩ := he.1
    simp [OpenElement.close, Tree.Cut, Tree.cuts, hopened, hheader, hstart, hstop]
  | rawElement name startTag content closing =>
    rw [text, List.append_assoc, List.append_assoc] at h
    have hcontent := Text.dropBytes?_of_append h
    have hheader := (Text.isRange_of_dropBytes? h).isBoundary.2
    have htext := (Text.isRange_of_dropBytes? hcontent).isBoundary.2
    refine Growth.every_rawElement ?_ (by simp [Tree.Cut, Tree.cuts, hheader, htext])
    cases closing with
    | none => simp [Growth.rawElement, Tree.Cut, Tree.cuts, hstart, hheader, htext]
    | some endTag =>
      have hstop : Text.isBoundary (offset + Text.byteSize startTag + Text.byteSize content +
          Text.byteSize endTag) source = true :=
        (Text.isRange_of_dropBytes? (Text.dropBytes?_of_append hcontent)).isBoundary.2
      simp [Growth.rawElement, Tree.Cut, Tree.cuts, hstart, hheader, htext, hstop]

/-- **All offsets in the trees of a text are boundaries.** -/
theorem Tree.every_cut {front : Bool} {trees : List Tree}
    (h : Tree.ofText config front source = .ok trees) : ∀ t ∈ trees, t.Every (Tree.Cut source) :=
  Tree.every_of_ofText closable_cut
    (fun _ _ hmatter => Lexeme.adds_cut
      (Text.dropBytes?_eq_some_iff.2 ⟨[], (append_of_frontMatter? hmatter).1.symm, rfl⟩))
    (fun _ _ _ _ hnext hrest => Lexeme.adds_cut ((Lexeme.append_of_next hnext).1 ▸ hrest)) h

/-! ## Blueprints -/

/-- A start tag begins with a bracket. -/
theorem IsStartTag.exists_cons {raw : List Char} {name : String} (h : IsStartTag raw name) :
    ∃ inner, raw = '<' :: inner := by
  obtain ⟨-⟩ := h
  exact ⟨_, rfl⟩

/-- **The blueprint of a tree is sound** if its offsets are boundaries. -/
theorem Tree.WellFormed.sound {source : Source} {t : Tree} (h : t.WellFormed source.text)
    (hcut : t.Every (Tree.Cut source.text)) (hlt : t.span.start < t.span.stop) :
    (t.blueprint source).Sound dialect source := by
  induction h with
  | leaf kind span =>
    obtain ⟨here, -⟩ := hcut
    have hrange := Text.isRange_of_isBoundary here.span.1 here.span.2 (Nat.le_of_lt hlt)
    rw [Tree.blueprint]
    cases kind with
    | frontMatter => exact .block hrange (by simp)
    | cdata => exact .block hrange (by simp)
    | _ => exact .leaf hrange
  | stray span =>
    obtain ⟨here, -⟩ := hcut
    rw [Tree.blueprint]
    exact .leaf (Text.isRange_of_isBoundary here.span.1 here.span.2 (Nat.le_of_lt hlt))
  | @element name span startTagEnd content endTag raw children startTag written closed row inside
      closes ih =>
    obtain ⟨here, hinside⟩ := hcut
    obtain ⟨hslice, htag⟩ := written
    rw [Tree.blueprint, Tree.blueprints_eq_map]
    have hwhole := Text.isRange_of_isBoundary here.span.1 here.span.2 (Nat.le_of_lt hlt)
    obtain ⟨inner, rfl⟩ := htag.exists_cons
    refine .single hwhole (.of_startTag (Attribute.covers_read {}) hslice ?_ ?_)
    · exact List.forall_mem_map.2 fun t ht => ih t ht (hinside t ht) (row.lt_of_mem ht)
    · rintro tag rfl
      obtain ⟨rfl, hle⟩ := closes
      have hcuts : ∀ n ∈ [content, span.stop], Text.isBoundary n source.text = true :=
        fun n hn => here n (List.mem_append_right _ (by simpa using hn))
      simp only [List.forall_mem_cons] at hcuts
      exact Text.isRange_of_isBoundary hcuts.1 hcuts.2.1 (Nat.le_of_lt hle)

/-- **What is read of a text is sound**… -/
theorem sound_of_read {source : Source} {options : Options} {reading : Reading}
    (h : read source options = .ok reading) :
    ∀ b ∈ reading.roots, b.Sound dialect source := by
  obtain ⟨trees, htrees, hreading⟩ := Except.bind_eq_ok.1 h
  have hforest := Tree.forest_of_ofText htrees
  have hcut := Tree.every_cut htrees
  cases hreading
  rw [Tree.blueprints_eq_map]
  exact List.forall_mem_map.2 fun t ht =>
    (hforest.all t ht).sound (hcut t ht) (hforest.tiled.lt_of_mem ht)

/-- …and a text that is not read is refused at a range of it. -/
theorem pointsInto_of_read {source : Source} {options : Options} {r : Rejection}
    (h : read source options = .error r) : r.PointsInto source.text := by
  obtain htrees | ⟨trees, -, hreading⟩ := Except.bind_eq_error.1 h
  · exact pointsInto_of_ofText htrees
  · cases hreading

end Markup.Html
