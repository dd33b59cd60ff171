import Markup.Proofs.Html.Element
import Markup.Proofs.Html.Growth
import Markup.Proofs.Text.Search

/-!
# Proofs/Html/EndTag — end tags and the names of what they close

An end tag closes an element **of its name**, in any case of the letters, where it is sought among
the open elements.  The end of opaque content is sought without a look at what follows the name, so
there the end tag's name only **begins with that of the element** (`Ends`).  Every element of a text
is ended so (`Tree.every_ended`), and so are those of the blueprints.
-/

namespace Markup.Html

/-- **The text of an end tag ends elements of this name**: the names are the same, or the element
has opaque content and the tag's name begins with that of the element. -/
def Ends (name : String) (raw : List Char) : Prop :=
  config.namesMatch name (String.ofList (endTagName raw)) = true ∨
    (TagRule.ofName name).isRawText = true ∧
      Text.startsWithIgnoreCase name.toList (endTagName raw) = true

/-- A range of the text is an end tag for elements of this name. -/
def EndTagAt (source : List Char) (span : Span) (name : String) : Prop :=
  ∃ raw, Text.slice? span.start span.stop source = some raw ∧ Ends name raw

/-- If an element has an end tag, that is one for its name. -/
def Tree.Ended (source : List Char) : Tree → Prop
  | .element name _ _ (some endTag) _ => EndTagAt source endTag name
  | _ => True

/-! ## End tags that are read -/

namespace Lexeme

variable {cs rest : List Char}

theorem exists_cons_of_opening (h : opening cs = .endTag) : ∃ inner, cs = '<' :: '/' :: inner := by
  have htag : ∀ inner, tagOpening inner = .endTag → ∃ others, inner = '/' :: others := by
    intro inner hinner
    unfold tagOpening at hinner
    split at hinner
    · exact ⟨_, rfl⟩
    · split at hinner <;> exact absurd hinner (by decide)
    · exact absurd hinner (by decide)
  unfold opening at h
  iterate 4 split at h; · cases h
  split at h
  · obtain ⟨others, rfl⟩ := htag _ h
    exact ⟨others, rfl⟩
  · exact absurd h (by decide)

/-- **The name that an end tag is read with is the one in its text.** -/
theorem endTagName_of_next {name : String} {raw : List Char}
    (h : next config cs = .ok (.endTag name raw, rest)) : endTagName raw = name.toList := by
  cases begins_of_next h with
  | startTag opens read starts => exact absurd rfl ((ofStartTag_ne starts).2 name raw)
  | endTag opens read =>
    obtain ⟨inner, rfl⟩ := exists_cons_of_opening opens
    obtain ⟨tail, hraw, word, behind, -⟩ := exists_tail_of_readTag? read
    rw [hraw, String.toList_ofList]
    exact StartTag.takeWhile_eq_name word behind

/-- **Behind opaque content stands an end tag**, up to the bracket that ends it. -/
theorem exists_of_rawContent {closing content endTag : List Char}
    (h : rawContent closing cs = .ok (content, some endTag, rest)) :
    ∃ written tail, endTag = written ++ tail ∧ Text.equalIgnoreCase closing written = true := by
  rw [rawContent] at h
  split at h
  · cases h
  · cases h
  · next hcut =>
    split at h
    · cases h
    · cases h
      have hstarts : Text.startsWithIgnoreCase closing _ = true := Text.find_of_cutWhere hcut
      exact ⟨_, _, rfl, hstarts⟩

/-- Names that differ by case have the same rule. -/
theorem ofName_congr {a b : String} (h : Text.equalIgnoreCase a.toList b.toList = true) :
    TagRule.ofName a = TagRule.ofName b := by
  rw [TagRule.ofName, TagRule.ofName, lowerName, lowerName, beq_iff_eq.1 h]

/-- The text that closes the element of a name begins as its end tag does. -/
theorem closing_element {kind name : String}
    (h : Text.equalIgnoreCase kind.toList name.toList = true) :
    Text.equalIgnoreCase ('<' :: '/' :: name.toList)
      (IgnoredTag.element kind).closing.toList = true := by
  rw [IgnoredTag.element, String.toList_append]
  exact beq_iff_eq.2 (congrArg ('<' :: '/' :: ·) (beq_iff_eq.1 h).symm)

/-- **What ends opaque content is the beginning of its element's end tag.** -/
theorem closing_of_rawTextEnd? {name closing : String}
    (h : rawTextEnd? config name = some closing) :
    (TagRule.ofName name).isRawText = true ∧
      Text.equalIgnoreCase ('<' :: '/' :: name.toList) closing.toList = true := by
  rw [rawTextEnd?] at h
  split at h
  · next hlisted =>
    obtain ⟨tag, hfind, rfl⟩ := Option.map_eq_some_iff.1 (hlisted.trans h)
    have hmem : tag = .element "script" ∨ tag = .element "style" := by
      simpa [config] using List.mem_of_find?_eq_some hfind
    have htest := List.find?_some hfind
    rcases hmem with rfl | rfl
    · obtain ⟨hname, -⟩ := Bool.and_eq_true_iff.1 htest
      exact ⟨ofName_congr hname ▸ by decide, closing_element hname⟩
    · obtain ⟨hname, -⟩ := Bool.and_eq_true_iff.1 htest
      exact ⟨ofName_congr hname ▸ by decide, closing_element hname⟩
  · split at h
    · next hraw =>
      obtain rfl := Option.some.inj h
      rw [String.toList_append]
      exact ⟨hraw, beq_self_eq_true _⟩
    · cases h

/-- **The end tag behind opaque content is one for its element.** -/
theorem ends_of_rawContent {name closing : String} {content endTag : List Char}
    (hname : ∀ c ∈ name.toList, Text.isNameEnd c = false)
    (hclosing : rawTextEnd? config name = some closing)
    (h : rawContent closing.toList cs = .ok (content, some endTag, rest)) : Ends name endTag := by
  obtain ⟨hraw, hequal⟩ := closing_of_rawTextEnd? hclosing
  obtain ⟨written, tail, rfl, hwritten⟩ := exists_of_rawContent h
  have hwhole : Text.equalIgnoreCase ('<' :: '/' :: name.toList) written = true :=
    beq_iff_eq.2 ((beq_iff_eq.1 hequal).trans (beq_iff_eq.1 hwritten))
  obtain ⟨inner, rfl, hinner⟩ := Text.exists_of_equalIgnoreCase_cons (by decide) hwhole
  obtain ⟨written, rfl, hequal⟩ := Text.exists_of_equalIgnoreCase_cons (by decide) hinner
  have hword := Text.isNameEnd_of_equalIgnoreCase hequal hname
  refine Or.inr ⟨hraw, ?_⟩
  have hnamed : endTagName ('<' :: '/' :: written ++ tail) =
      written ++ tail.takeWhile fun c => !Text.isNameEnd c :=
    List.takeWhile_append_of_pos (by simpa using hword)
  rw [hnamed]
  exact Text.startsWithIgnoreCase_append hequal

/-! ## Elements that are ended -/

/-- **Whatever a lexeme of a document adds, its end tag is one for its element.** -/
theorem adds_of_next {source : List Char} {lexeme : Lexeme} {offset : Nat}
    (h : next config cs = .ok (lexeme, rest)) (hrest : Text.dropBytes? offset source = some cs) :
    lexeme.Adds (Tree.Ended source) (fun _ _ => True) config offset := by
  rw [← (append_of_next h).1] at hrest
  cases lexeme with
  | mark | closedTag | openTag => trivial
  | endTag name raw =>
    refine ⟨trivial, fun e _ hmatch => ⟨raw, Text.slice?_of_dropBytes? hrest, Or.inl ?_⟩⟩
    rwa [endTagName_of_next h, String.ofList_toList]
  | rawElement name startTag content closing =>
    obtain ⟨htag, word, inner, hword, hcontent⟩ := rawElement_of_next h
    refine Growth.every_rawElement ?_ trivial
    cases closing with
    | none => trivial
    | some endTag =>
      rw [text, List.append_assoc] at hrest
      have hend := Text.slice?_of_dropBytes? (Text.dropBytes?_of_append hrest)
      rw [Text.byteSize_append, ← Nat.add_assoc] at hend
      exact ⟨endTag, hend, ends_of_rawContent htag.isNameEnd_of_mem hword hcontent⟩

end Lexeme

/-- **Every element of a text is ended by an end tag for its name**, if by any. -/
theorem Tree.every_ended {front : Bool} {source : List Char} {trees : List Tree}
    (h : Tree.ofText config front source = .ok trees) :
    ∀ t ∈ trees, t.Every (Tree.Ended source) := by
  have hclose : Closable (Tree.Ended source) fun _ _ => True := fun _ _ => trivial
  exact Tree.every_of_ofText hclose (fun _ _ _ => trivial)
    (fun _ _ _ _ hnext hrest => Lexeme.adds_of_next hnext hrest) h

/-! ## Documents -/

/-- **The blueprint of a tree has its elements ended by their names where they are so in the
tree.** -/
theorem Tree.WellFormed.endedByName {source : Source} {t : Tree} (h : t.WellFormed source.text)
    (hended : t.Every (Tree.Ended source.text)) :
    (t.blueprint source).AllElements (EndedByName dialect Ends source) := by
  refine h.allElements_of hended fun name span startTagEnd endTag children hgood hhere => ?_
  rintro token tag htoken hread span rfl
  cases hgood with
  | element _ written =>
    obtain ⟨hstart, htag⟩ := written
    obtain rfl := Option.some.inj ((Source.slice?_of_slice htoken).symm.trans hstart)
    rwa [htag.name_of_read hread]

/-- **An end tag of a document that closes something** closes an element for whose name it is. -/
theorem ends_of_parse {text : String} {options : Options} {doc : Document}
    (hparse : Document.parse dialect text options = .ok doc) {n : Node} (hn : n ∈ doc.nodes)
    {name : String} {id : NodeId} (hdata : n.data = .endTag name (some id)) :
    ∃ m e, doc.nodes.toList[id]? = some m ∧ m.data = .element e ∧ Ends e.name n.token.raw.toList ∧
      name = String.ofList (endTagName n.token.raw.toList) := by
  obtain ⟨reading, tops, hread, hrow⟩ :=
    Document.row_of_parse (fun reading hread => (covers_of_read hread).inPlace) hparse
  obtain ⟨trees, htrees, hreading⟩ := Except.bind_eq_ok.1 hread
  have hgood := (Tree.forest_of_ofText htrees).all
  have hended := Tree.every_ended htrees
  cases hreading
  rw [Tree.blueprints_eq_map] at hrow
  have hall := List.forall_mem_map.2 fun t ht => (hgood t ht).endedByName (hended t ht)
  exact hrow.ends_of_pair hall (Array.mem_toList_iff.2 hn) hdata

end Markup.Html
