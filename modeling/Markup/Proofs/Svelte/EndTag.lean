import Markup.Proofs.Svelte.Element
import Markup.Proofs.Svelte.Growth

/-!
# Proofs/Svelte/EndTag — end tags and the names of what they close

In a template an end tag is read **for the element that is open**, behind markup and behind opaque
content alike, and is refused unless it has that very name (`isEndTag_of_config`).  So every
element of a template has its own name in its end tag (`Tree.every_ended`).
-/

namespace Markup.Svelte

/-- A range of the text is an end tag of this name. -/
def EndTagAt (source : List Char) (span : Span) (name : String) : Prop :=
  ∃ raw, Text.slice? span.start span.stop source = some raw ∧ IsEndTag raw name

/-- If an element has an end tag, that has its name. -/
def Tree.Ended (source : List Char) : Tree → Prop
  | .element name _ _ (some endTag) _ => EndTagAt source endTag name
  | _ => True

/-! ## End tags that are read -/

section

variable {name : String} {startTag : Span} {offset : Nat} {cs rest : List Char}

/-- The name of an end tag is what the builder takes it for. -/
theorem IsEndTag.endTagName_eq {raw : List Char} (h : IsEndTag raw name) :
    endTagName raw = name.toList := by
  cases h with
  | @intro name blanks word blank =>
    rw [String.toList_ofList, endTagName, List.append_assoc]
    refine StartTag.takeWhile_eq_name word ?_
    cases blanks with
    | nil => rfl
    | cons c blanks => exact Text.isNameEnd_of_isBlank (blank c List.mem_cons_self)

/-- **An end tag that is read has the name of the element…** -/
theorem isEndTag_of_config {raw : List Char}
    (h : endTag config name startTag offset cs = .ok (raw, rest)) : IsEndTag raw name := by
  obtain ⟨closing, htag, hmatch⟩ := isEndTag_of_endTag h
  obtain rfl : closing = name := beq_iff_eq.1 hmatch
  exact htag

/-- …and so has one behind opaque content. -/
theorem isEndTag_of_rawContent {closing : String} {content raw : List Char}
    (h : rawContent config name closing startTag cs = .ok ((content, raw), rest)) :
    IsEndTag raw name := by
  rw [rawContent] at h
  split at h
  · cases h
  · obtain ⟨⟨raw', rest'⟩, hend, h⟩ := Except.bind_eq_ok.1 h
    cases h
    exact isEndTag_of_config hend

end

namespace Lexeme

variable {context : Context} {offset : Nat} {cs rest : List Char} {lexeme : Lexeme}

/-- **Whatever a lexeme adds, its end tag has the name of its element.** -/
theorem ended_of_next {source : List Char}
    (h : next config context offset cs = .ok (lexeme, rest))
    (hrest : Text.dropBytes? offset source = some cs) :
    lexeme.Adds (Tree.Ended source) context offset := by
  rw [← (append_of_next h).1] at hrest
  rw [next] at h
  split at h
  · obtain ⟨name, startTag, raw, rfl, hend, rfl⟩ | ⟨_, _, _, rfl, hblock⟩ := boundary_eq_ok h
    · rintro _ _ _ ⟨⟩
      exact ⟨raw, Text.slice?_of_dropBytes? hrest, isEndTag_of_config hend⟩
    · obtain ⟨_, -, -, ⟨_, _, -, -, -, rfl⟩ | ⟨_, -, -, rfl⟩⟩ := blockTag_eq_ok hblock
      · trivial
      · rintro _ _ _ ⟨⟩
  · obtain ⟨_, -, h⟩ := Except.bind_eq_ok.1 h
    cases h
    trivial
  · obtain ⟨tail, -, ⟨-, -, rfl⟩ | ⟨-, ⟨-, rfl⟩ | ⟨_, _, content, endTag, rfl, hcontent⟩⟩⟩ :=
      startTag_eq_ok h
    · exact trivial
    · exact trivial
    · refine Growth.every_rawElement ?_ trivial
      rw [raw, List.append_assoc, List.append_assoc, ← List.append_assoc _ content] at hrest
      have hend := Text.slice?_of_dropBytes? (Text.dropBytes?_of_append hrest)
      rw [Text.byteSize_append, ← Nat.add_assoc] at hend
      exact ⟨endTag, hend, isEndTag_of_rawContent hcontent⟩
  · obtain ⟨_, -, -, ⟨_, _, -, -, rfl⟩ | ⟨_, _, -, -, rfl⟩ | ⟨-, rfl⟩⟩ := mustache_eq_ok h
    all_goals trivial
  · cases h
    trivial

end Lexeme

/-- **Every element of a template has its own name in its end tag**, if it has one. -/
theorem Tree.every_ended {source : List Char} {trees : List Tree}
    (h : Tree.ofText config source = .ok trees) : ∀ t ∈ trees, t.Every (Tree.Ended source) :=
  Tree.every_of_ofText (fun _ _ _ => trivial)
    (fun _ _ _ _ _ hnext hrest => Lexeme.ended_of_next hnext hrest) h

/-! ## Documents -/

/-- **The blueprint of a tree has its elements ended by their names where they are so in the
tree.** -/
theorem Tree.WellFormed.endedByName {source : Source} {t : Tree} (h : t.WellFormed source.text)
    (hended : t.Every (Tree.Ended source.text)) : (t.blueprint source).AllElements
      (EndedByName dialect (fun name raw => endTagName raw = name.toList) source) := by
  refine h.allElements_of hended fun name span startTagEnd endTag children hgood hhere => ?_
  rintro token tag htoken hread span rfl
  cases hgood with
  | element _ written =>
    obtain ⟨raw, hstart, htag⟩ := written
    obtain rfl := Option.some.inj ((Source.slice?_of_slice htoken).symm.trans hstart)
    obtain ⟨ending, hslice, hends⟩ := hhere
    rw [htag.name_of_read hread]
    exact ⟨ending, hslice, hends.endTagName_eq⟩

/-- **An end tag of a document that closes something** has the name of the element. -/
theorem name_of_parse {text : String} {options : Options} {doc : Document}
    (hparse : Document.parse dialect text options = .ok doc) {n : Node} (hn : n ∈ doc.nodes)
    {name : String} {id : NodeId} (hdata : n.data = .endTag name (some id)) :
    ∃ m e, doc.nodes.toList[id]? = some m ∧ m.data = .element e ∧ e.name = name := by
  obtain ⟨reading, tops, hread, hrow⟩ :=
    Document.row_of_parse (fun reading hread => (covers_of_read options hread).inPlace) hparse
  obtain ⟨trees, htrees, hreading⟩ := Except.bind_eq_ok.1 hread
  have hgood := (Tree.forest_of_ofText htrees).all
  have hended := Tree.every_ended htrees
  cases hreading
  rw [blueprints_eq_map] at hrow
  have hall := List.forall_mem_map.2 fun t ht => (hgood t ht).endedByName (hended t ht)
  obtain ⟨m, e, hm, he, hends, rfl⟩ := hrow.ends_of_pair hall (Array.mem_toList_iff.2 hn) hdata
  exact ⟨m, e, hm, he, by rw [hends, String.ofList_toList]⟩

end Markup.Svelte
