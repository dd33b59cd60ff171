import Markup.Proofs.Svelte.Inside
import Markup.Proofs.Svelte.Runs

/-!
# Proofs/Svelte/Enclosed — what an element may enclose, by its name

An element that is not void encloses **any template** (`Tree.ofText_enclose_template`), except for
the two opaque names: the element of such a name encloses a text that is not read
(`Tree.ofText_enclose_opaque`).  In any other case of its letters an opaque name opens a text too,
but that ends where the name itself does, which is not its end tag: **its element is never closed**
(`Tree.exists_error_of_spelling`).
-/

namespace Markup.Svelte

open Html (IsTagName)

variable {name content : List Char} {trees : List Tree}

/-- The element of a name around a text, as it is written. -/
def enclose (name content : List Char) : List Char :=
  writeStartTag name [] ++ (content ++ Html.endTag name)

/-- **The element of a name around a text**, if these trees are inside and the text begins with its
start tag. -/
def Tree.enclosing (name content : List Char) (children : List Tree) : Tree :=
  let inside := Text.byteSize (writeStartTag name [])
  let close := inside + Text.byteSize content
  let stop := close + Text.byteSize (Html.endTag name)
  .element (String.ofList name) ⟨0, stop⟩ inside (some ⟨close, stop⟩) children

theorem isWritten_nil : ∀ a ∈ ([] : List Written), IsWritten a :=
  fun _ ha => absurd ha List.not_mem_nil

/-- A text that is read as one tree. -/
theorem Tree.ofText_eq_singleton {text : List Char} {tree : Tree} {stop : Nat}
    (h : Growth.run config {} text = Growth.run config (Growing.addUpTo {} tree stop) []) :
    ofText config text = .ok [tree] := by
  rw [ofText, h, Growth.run]
  rfl

/-- **An element that may hold markup encloses any template**, and its trees are inside. -/
theorem Tree.ofText_enclose_template (hname : IsTagName name)
    (hopen : isVoidName (String.ofList name) = false)
    (hmarkup : Html.lowerName (String.ofList name) ∉ opaqueNames)
    (h : ofText config content = .ok trees) :
    ofText config (enclose name content) = .ok [enclosing name content
      (trees.map (movedBy (Text.byteSize (writeStartTag name []))))] := by
  let inside := Text.byteSize (writeStartTag name [])
  have hcontent : ∀ host : Growth, host.offset = inside →
      host.run config (content ++ (Html.endTag name ++ [])) =
        Growth.run config
          (host.addAll (trees.map (movedBy inside)) (inside + Text.byteSize content))
            (Html.endTag name ++ []) := by
    intro host hoffset
    rw [Growth.run_of_ofText h (.of_boundary rfl), hoffset]
  have helement := Growth.run_element (g := {}) hname hopen (rawTextEnd?_eq_none hmarkup)
    isWritten_nil [] rfl (Nat.zero_add _).symm hcontent
  rw [List.append_nil] at helement
  exact ofText_eq_singleton helement

/-- Nothing grows by a text that does not begin with a lexeme. -/
theorem Growth.run_of_next_error {g : Growth} {cs : List Char} {rejection : Rejection}
    (h : Lexeme.next config g.context g.offset cs = .error rejection) (hcs : cs ≠ []) :
    g.run config cs = .error rejection := by
  obtain ⟨c, cs, rfl⟩ := List.exists_cons_of_ne_nil hcs
  rw [run]
  split
  · next herror =>
    cases herror.symm.trans h
    rfl
  · next hok => cases hok.symm.trans h

/-! ## Opaque names -/

/-- **No other spelling has an end tag** in opaque content, for that goes on to the end tag of the
name itself. -/
theorem exists_error_of_rawContent {word : String} (hword : word ∈ opaqueNames)
    (h : name.map Char.toLower = word.toList) (hne : String.ofList name ≠ word) (span : Span)
    (cs : List Char) : ∃ rejection,
      rawContent config (String.ofList name) ("</" ++ word) span cs = .error rejection := by
  have hnames : ∀ word ∈ opaqueNames, IsTagName word.toList := by decide +kernel
  have hclosing : ("</" ++ word).toList = '<' :: '/' :: word.toList := String.toList_append
  rw [rawContent, hclosing]
  split
  · exact ⟨_, rfl⟩
  · next before found hcut =>
    obtain ⟨after, rfl⟩ := List.isPrefixOf_iff_prefix.1 (Text.find_of_cutWhere hcut)
    -- What stands there begins with the word and would have to be the name, which is as long.
    have hleading : leadingName (word.toList ++ after) = word.toList ++ leadingName after :=
      List.takeWhile_append_of_pos fun c hc => by simp [(hnames word hword).word c hc]
    have hlength := congrArg List.length h
    rw [List.length_map] at hlength
    have hmismatch : config.namesMatch (String.ofList (leadingName (word.toList ++ after)))
        (String.ofList name) = false := by
      refine beq_false_of_ne fun hequal => hne ?_
      rw [hleading, String.ofList_inj] at hequal
      have hnone : leadingName after = [] := by
        rw [← hequal, List.length_append] at hlength
        exact List.length_eq_zero_iff.1 (by omega)
      rw [← hequal, hnone, List.append_nil, String.ofList_toList]
    have hend : ∃ rejection, endTag config (String.ofList name) span
        (span.stop + Text.byteSize before) ('<' :: '/' :: (word.toList ++ after)) =
          .error rejection := by
      simp only [endTag, hmismatch, Bool.false_eq_true, if_false]
      exact ⟨_, rfl⟩
    obtain ⟨rejection, hend⟩ := hend
    exact ⟨rejection, by simp only [List.cons_append, hend, bind, Except.bind]⟩

/-- An opaque name is void in no case. -/
theorem isVoidName_of_lowerName {word : String} (hword : word ∈ opaqueNames)
    (h : name.map Char.toLower = word.toList) : isVoidName (String.ofList name) = false := by
  have hall : ∀ word ∈ opaqueNames,
      ((Html.TagRule.rules.lookup word).getD {}).isVoid = false := by decide +kernel
  have hlower : Html.lowerName (String.ofList name) = word := by
    rw [Html.lowerName, String.toList_ofList, h, String.ofList_toList]
  rw [isVoidName, Html.TagRule.ofName, hlower, hall word hword, Bool.false_and]

/-- **The start tag of an opaque name in any case** is read with its content. -/
theorem Lexeme.next_opaque {word : String} (hname : IsTagName name) (hword : word ∈ opaqueNames)
    (h : name.map Char.toLower = word.toList) (rest : List Char) :
    next config .top 0 (writeStartTag name [] ++ rest) = do
      let ((content, endTag), rest) ← rawContent config (String.ofList name) ("</" ++ word)
        ⟨0, 0 + Text.byteSize (writeStartTag name [])⟩ rest
      return (.rawElement (String.ofList name) (writeStartTag name []) content endTag, rest) := by
  rw [next_writeStartTag hname isWritten_nil, isVoidName_of_lowerName hword h,
    if_neg Bool.false_ne_true, rawTextEnd?_of_lowerName hword h]

/-- **No text begins with another spelling of an opaque name**, whatever follows the start tag. -/
theorem Tree.exists_error_of_spelling (hname : IsTagName name)
    (hlisted : Html.lowerName (String.ofList name) ∈ opaqueNames)
    (hspelling : String.ofList name ∉ opaqueNames) (rest : List Char) :
    ∃ rejection, ofText config (writeStartTag name [] ++ rest) = .error rejection := by
  have hsmall : name.map Char.toLower = (Html.lowerName (String.ofList name)).toList := by
    rw [Html.lowerName, String.toList_ofList, String.toList_ofList]
  have hne : String.ofList name ≠ Html.lowerName (String.ofList name) := fun hequal =>
    hspelling (hequal ▸ hlisted)
  obtain ⟨rejection, hcontent⟩ := exists_error_of_rawContent hlisted hsmall hne
    ⟨0, 0 + Text.byteSize (writeStartTag name [])⟩ rest
  have hnext := Lexeme.next_opaque hname hlisted hsmall rest
  simp only [hcontent, bind, Except.bind] at hnext
  exact ⟨rejection, Growth.run_of_next_error (g := {}) hnext (List.cons_ne_nil _ _)⟩

/-- **Opaque content is read up to the first end tag.** -/
theorem rawContent_written (hname : IsTagName name) (hlisted : String.ofList name ∈ opaqueNames)
    (hcontent : ¬ '<' :: '/' :: name <:+: content) (span : Span) (rest : List Char) :
    rawContent config (String.ofList name) ("</" ++ String.ofList name) span
      (content ++ (Html.endTag name ++ rest)) = .ok ((content, Html.endTag name), rest) := by
  have hword : '<' ∉ '/' :: name := by
    have hall : ∀ word ∈ opaqueNames, '<' ∉ '/' :: word.toList := by decide +kernel
    simpa using hall _ hlisted
  have hclosing : ("</" ++ String.ofList name).toList = '<' :: '/' :: name := by
    simp
  have hfound : Text.cut ('<' :: '/' :: name) (content ++ ('<' :: '/' :: name ++ '>' :: rest)) =
      some (content, '<' :: '/' :: name ++ '>' :: rest) :=
    Text.cut_of_not_infix hword hcontent
  have hwritten : Html.endTag name ++ rest = '<' :: '/' :: name ++ '>' :: rest := by
    simp [Html.endTag]
  rw [rawContent, hclosing, hwritten, hfound, ← hwritten]
  simp only [endTag_written hname, bind, Except.bind, pure, Except.pure]

/-- **The element of an opaque name encloses a text that is not read**, up to the first end tag. -/
theorem Tree.ofText_enclose_opaque (hname : IsTagName name)
    (hlisted : String.ofList name ∈ opaqueNames) (hcontent : ¬ '<' :: '/' :: name <:+: content) :
    let inside := Text.byteSize (writeStartTag name [])
    ofText config (enclose name content) = .ok [enclosing name content
      (if content.isEmpty then [] else [.text ⟨inside, inside + Text.byteSize content⟩])] := by
  intro inside
  have hsmall : name.map Char.toLower = (String.ofList name).toList := by
    have hall : ∀ word ∈ opaqueNames, word.toList.map Char.toLower = word.toList := by
      decide +kernel
    simpa using hall _ hlisted
  have hnext := Lexeme.next_opaque hname hlisted hsmall (content ++ (Html.endTag name ++ []))
  simp only [rawContent_written hname hlisted hcontent, bind, Except.bind, pure, Except.pure]
    at hnext
  have hrun := Growth.run_of_next (g := {}) hnext (List.cons_ne_nil _ _)
  have htree : Growth.rawElement 0 (String.ofList name) (writeStartTag name []) content
      (Html.endTag name) = enclosing name content (if content.isEmpty then [] else
        [.text ⟨inside, inside + Text.byteSize content⟩]) := by
    simp only [Growth.rawElement, enclosing, Nat.zero_add, inside]
  rw [List.append_nil] at hrun
  rw [← htree]
  exact ofText_eq_singleton hrun

/-! ## Elements by their names -/

/-- **An element is told by its name as it is written**: its content is a template of its own if the
name is not opaque, and a text if it is exactly so; another spelling of an opaque name does not open
an element. -/
theorem Tree.ofText_enclose (hname : IsTagName name)
    (hopen : isVoidName (String.ofList name) = false) :
    let inside := Text.byteSize (writeStartTag name [])
    (Html.lowerName (String.ofList name) ∉ opaqueNames → ∀ content trees,
      ofText config content = .ok trees → ofText config (enclose name content) =
        .ok [enclosing name content (trees.map (movedBy inside))]) ∧
    (String.ofList name ∈ opaqueNames → ∀ content, ¬ '<' :: '/' :: name <:+: content →
      ofText config (enclose name content) = .ok [enclosing name content
        (if content.isEmpty then [] else [.text ⟨inside, inside + Text.byteSize content⟩])]) ∧
    (Html.lowerName (String.ofList name) ∈ opaqueNames → String.ofList name ∉ opaqueNames →
      ∀ rest, ∃ rejection, ofText config (writeStartTag name [] ++ rest) = .error rejection) :=
  ⟨fun hmarkup _ _ => ofText_enclose_template hname hopen hmarkup,
    fun hlisted _ => ofText_enclose_opaque hname hlisted,
    fun hlisted hspelling => exists_error_of_spelling hname hlisted hspelling⟩

/-- The template `{#if a}b{/if}<br>`. -/
def conditionalBreak : List Char := "\x7b#if a\x7db\x7b/if\x7d<br>".toList

/-- The names of a component, of an opaque element and of neither. -/
theorem Tree.ofText_enclose_names :
    (IsTagName "Br".toList ∧ isVoidName "Br" = false ∧ ∃ trees,
      ofText config conditionalBreak = .ok trees ∧
        ofText config (enclose "Br".toList conditionalBreak) =
          .ok [enclosing "Br".toList conditionalBreak (trees.map (movedBy 4))]) ∧
    (IsTagName "style".toList ∧ isVoidName "style" = false ∧
      ofText config (enclose "style".toList "a</p>".toList) =
        .ok [enclosing "style".toList "a</p>".toList [.text ⟨7, 12⟩]]) ∧
    IsTagName "sTyle".toList ∧ isVoidName "sTyle" = false ∧
      ∃ rejection, ofText config "<sTyle></sTyle>".toList = .error rejection := by
  have hbr : IsTagName "Br".toList := by decide
  have hstyle : IsTagName "style".toList := by decide
  have hspelling : IsTagName "sTyle".toList := by decide
  obtain ⟨trees, htrees⟩ := Except.exists_of_isOk
    (show (ofText config conditionalBreak).isOk = true by decide +kernel)
  refine ⟨⟨hbr, by decide +kernel, trees, htrees, ?_⟩, ⟨hstyle, by decide +kernel, ?_⟩, hspelling,
    by decide +kernel, ?_⟩
  · exact (ofText_enclose hbr (by decide +kernel)).1 (by decide +kernel) _ trees htrees
  · exact (ofText_enclose hstyle (by decide +kernel)).2.1 (by decide +kernel) _ (by decide +kernel)
  · exact (ofText_enclose hspelling (by decide +kernel)).2.2 (by decide +kernel)
      (by decide +kernel) "</sTyle>".toList

/-- **A component is not told by its name as it is written**: `Script` is neither opaque nor void,
and `a` is a template, but its element is refused. -/
theorem Tree.not_enclosed_capitalScript :
    IsTagName "Script".toList ∧ "Script" ∉ opaqueNames ∧ isVoidName "Script" = false ∧
      (ofText config "a".toList).isOk = true ∧
        (ofText config (enclose "Script".toList "a".toList)).isOk = false :=
  ⟨by decide, by decide, by decide +kernel, by decide +kernel, by decide +kernel⟩

end Markup.Svelte
