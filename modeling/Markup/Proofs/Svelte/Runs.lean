import Markup.Html.Tag
import Markup.Proofs.Document.Runs
import Markup.Proofs.Svelte.Growth
import Markup.Proofs.Svelte.Refusal
import Markup.Proofs.Svelte.Rendering

/-!
# Proofs/Svelte/Runs — the texts of a template

What ends a text of a template is what begins anything else there (`opening_eq_text_iff`): a brace,
a tag or a comment, as `BeginsMarkup` says.  So the texts in elements and blocks are plain, and
opaque content goes on to the end tag of its element (`Tree.Running`, kept by every lexeme in
`Growth.Running.step`).
-/

namespace Markup.Svelte

/-- **What markup begins with**: a brace, or a bracket before a letter, a slash or the rest of what
opens a comment. -/
inductive BeginsMarkup : List Char → Prop
  | brace (rest : List Char) : BeginsMarkup ('{' :: rest)
  | startTag {c : Char} (rest : List Char) (letter : Text.isLetter c = true) :
      BeginsMarkup ('<' :: c :: rest)
  | endTag (rest : List Char) : BeginsMarkup ('<' :: '/' :: rest)
  | comment (rest : List Char) : BeginsMarkup ('<' :: '!' :: '-' :: '-' :: rest)

/-- **Everything else is text.** -/
theorem opening_eq_text_iff {cs : List Char} : opening cs = .text ↔ ¬ BeginsMarkup cs := by
  constructor
  · rintro htext (rest | ⟨rest, hletter⟩ | rest | rest)
    · unfold opening at htext
      split at htext <;> simp_all
    · rw [opening_letter hletter] at htext
      cases htext
    · cases htext
    · cases htext
  · intro hno
    unfold opening
    split
    · exact absurd (.brace _) hno
    · exact absurd (.brace _) hno
    · exact absurd (.endTag _) hno
    · exact absurd (.brace _) hno
    · exact absurd (.comment _) hno
    · split
      · next hletter => exact absurd (.startTag _ hletter) hno
      · rfl
    · rfl

/-- **The texts in a tree are runs**: those that stand where markup is read are plain, and opaque
content is all that is in its element, up to the first end tag of its name. -/
inductive Tree.Running (source : List Char) : Tree → Prop
  | text {span : Span} (plain : PlainAt BeginsMarkup source span) : Running source (.text span)
  | comment (span : Span) : Running source (.comment span)
  | mustache (span : Span) : Running source (.mustache span)
  | special (tag : SpecialTag) (content : Section Tree) : Running source (.special tag content)
  | block (kind : Block) {head : Section Tree} {clauses : List (String × Section Tree)}
      (inside : ∀ s ∈ head :: clauses.map Prod.snd, ∀ t ∈ s.children, Running source t) :
      Running source (.block kind head clauses)
  | element {name : String} (span : Span) (startTagEnd : Nat) (endTag : Option Span)
      {children : List Tree} (markup : Html.lowerName name ∉ opaqueNames ∨ children = [])
      (inside : ∀ t ∈ children, Running source t) :
      Running source (.element name span startTagEnd endTag children)
  | content {name : String} (span : Span) (startTagEnd : Nat) (endTag : Option Span)
      {text : Span} {run rest : List Char} (raw : Html.lowerName name ∈ opaqueNames)
      (written : RunAt BeginsMarkup source text run rest)
      (first : ¬ '<' :: '/' :: (Html.lowerName name).toList <:+: run) :
      Running source (.element name span startTagEnd endTag [.text text])

variable {source cs rest : List Char}

/-! ## Lexemes -/

/-- **A run of text is plain.** -/
theorem plainAt_of_textRun {offset : Nat} (hne : cs ≠ []) (hopens : opening cs = .text)
    (hdrop : Text.dropBytes? offset source = some cs) :
    PlainAt BeginsMarkup source ⟨offset, offset + Text.byteSize (textRun cs).1⟩ := by
  have happ := (append_textRun cs).1
  obtain ⟨c, inner, rfl⟩ := List.exists_cons_of_ne_nil hne
  have hplain : ∀ {run rest : List Char}, textRun (c :: inner) = (c :: run, rest) →
      (rest = [] ∨ BeginsMarkup rest) → (∀ front back, run = front ++ back → back ≠ [] →
        ¬ BeginsMarkup (back ++ rest)) →
      PlainAt BeginsMarkup source ⟨offset, offset + Text.byteSize (textRun (c :: inner)).1⟩ := by
    intro run rest hrun hends hno
    rw [hrun] at happ ⊢
    refine ⟨c :: run, rest, ⟨happ.symm ▸ hdrop, rfl, hends⟩, fun front back heq hback => ?_⟩
    cases front with
    | nil =>
      obtain rfl := heq
      rw [happ]
      exact opening_eq_text_iff.1 hopens
    | cons d front => exact hno front back (List.cons.inj heq).2 hback
  cases hcut : Text.cutWhere (fun cs => opening cs != .text) inner with
  | none =>
    have hrun : textRun (c :: inner) = (c :: inner, []) := by rw [textRun, hcut]
    refine hplain hrun (Or.inl rfl) fun front back heq _ => ?_
    have hno := Text.test_of_cutWhere_eq_none hcut front back heq
    rw [List.append_nil]
    exact opening_eq_text_iff.1 (by simpa using hno)
  | some parts =>
    obtain ⟨run, rest⟩ := parts
    have hends := Text.find_of_cutWhere hcut
    refine hplain (by rw [textRun, hcut]) (Or.inr ?_) fun front back heq hback => ?_
    · by_contra hno
      rw [opening_eq_text_iff.2 hno] at hends
      cases hends
    · have hno := Text.test_of_cutWhere hcut front back heq hback
      exact opening_eq_text_iff.1 (by simpa using hno)

/-- **Opaque content goes on to the first end tag of its name.** -/
theorem beginsMarkup_of_rawContent {name closing : String} {startTag : Span}
    {content endTag : List Char} (hclosing : config.rawTextEnd? name = some closing)
    (h : rawContent config name closing startTag cs = .ok ((content, endTag), rest)) :
    BeginsMarkup (endTag ++ rest) ∧
      ¬ '<' :: '/' :: (Html.lowerName name).toList <:+: content := by
  obtain ⟨-, rfl⟩ := rawTextEnd?_eq_some hclosing
  have hword : ("</" ++ Html.lowerName name).toList =
      '<' :: '/' :: (Html.lowerName name).toList := String.toList_append
  rw [rawContent, hword] at h
  split at h
  · cases h
  · next hcut =>
    obtain ⟨⟨raw, after⟩, hend, h⟩ := Except.bind_eq_ok.1 h
    cases h
    obtain ⟨others, hothers⟩ := List.isPrefixOf_iff_prefix.1 (Text.find_of_cutWhere hcut)
    rw [(append_of_endTag hend).1, ← hothers]
    exact ⟨.endTag _, Text.not_infix_of_cut (List.cons_ne_nil _ _) hcut⟩

/-- An element with opaque content has an opaque name, and its content goes on to the end tag… -/
theorem opaque_of_startTag {offset : Nat} {name : String} {raw content endTag : List Char}
    (h : startTag config offset cs = .ok (.rawElement name raw content endTag, rest)) :
    Html.lowerName name ∈ opaqueNames ∧ BeginsMarkup (endTag ++ rest) ∧
      ¬ '<' :: '/' :: (Html.lowerName name).toList <:+: content := by
  simp only [startTag] at h
  split at h
  · cases h
  · cases h
  · cases h
  · split at h
    · cases h
    · split at h
      · cases h
      · next hclosing =>
        obtain ⟨⟨⟨_, _⟩, _⟩, hcontent, h⟩ := Except.bind_eq_ok.1 h
        cases h
        exact ⟨(rawTextEnd?_eq_some hclosing).1, beginsMarkup_of_rawContent hclosing hcontent⟩

/-- …and one that is opened has none. -/
theorem not_opaque_of_startTag {offset : Nat} {name : String} {raw : List Char}
    (h : startTag config offset cs = .ok (.openTag name raw, rest)) :
    Html.lowerName name ∉ opaqueNames := by
  simp only [startTag] at h
  split at h
  · cases h
  · cases h
  · cases h
  · split at h
    · cases h
    · split at h
      · next hmarkup =>
        cases h
        exact not_opaque_of_rawTextEnd? hmarkup
      · obtain ⟨⟨⟨_, _⟩, _⟩, -, h⟩ := Except.bind_eq_ok.1 h
        cases h

/-! ## Growing -/

namespace Growth

variable {g : Growth}

/-- Markup is read in what is open. -/
def ReadsMarkup (g : Growth) : Prop := ∀ l ∈ g.stack, ∀ name startTag,
  l.opener = .element name startTag → Html.lowerName name ∉ opaqueNames

theorem ReadsMarkup.add (h : g.ReadsMarkup) (t : Tree) : (g.add t).ReadsMarkup := by
  obtain ⟨offset, roots, stack⟩ := g
  cases stack with
  | nil => exact h
  | cons l outer =>
    obtain ⟨hl, houter⟩ := List.forall_mem_cons.1 h
    exact List.forall_mem_cons.2 ⟨hl, houter⟩

theorem ReadsMarkup.beginClause (h : g.ReadsMarkup) (name : String) (header : Span) :
    (g.beginClause name header).ReadsMarkup := by
  obtain ⟨offset, roots, stack⟩ := g
  cases stack with
  | nil => exact h
  | cons l outer =>
    obtain ⟨hl, houter⟩ := List.forall_mem_cons.1 h
    refine List.forall_mem_cons.2 ⟨?_, houter⟩
    obtain ⟨opener, children⟩ := l
    cases opener with
    | element => exact hl
    | block | clause => exact nofun

/-- **The texts in what is finished are runs**, and markup is read in what is open. -/
structure Running (source : List Char) (g : Growth) : Prop where
  finished : g.Finished (Tree.Running source)
  markup : g.ReadsMarkup

theorem Running.add (h : g.Running source) {t : Tree} (ht : t.Running source) :
    (g.add t).Running source :=
  ⟨h.finished.add ht, h.markup.add t⟩

theorem Running.enter (h : g.Running source) {opener : Opener} (hopener : opener.sections = [])
    (hmarkup : ∀ name startTag, opener = .element name startTag →
      Html.lowerName name ∉ opaqueNames) : (g.enter opener).Running source :=
  ⟨h.finished.enter hopener, List.forall_mem_cons.2 ⟨hmarkup, h.markup⟩⟩

theorem Running.beginClause (h : g.Running source) (name : String) (header : Span) :
    (g.beginClause name header).Running source :=
  ⟨h.finished.beginClause name header, h.markup.beginClause name header⟩

/-- **What is closed is running** when all that is in it is. -/
theorem Running.closeTop (h : g.Running source) (tag : Span) :
    (g.closeTop tag).Running source := by
  obtain ⟨offset, roots, stack⟩ := g
  cases stack with
  | nil => exact h
  | cons l outer =>
    obtain ⟨hl, houter⟩ := List.forall_mem_cons.1 h.finished.opened
    obtain ⟨hmarkup, hothers⟩ := List.forall_mem_cons.1 h.markup
    have hinner : Running source ⟨offset, roots, outer⟩ := ⟨⟨h.finished.roots, houter⟩, hothers⟩
    exact hinner.add (hl.close tag
      (fun name startTag hopener hinside =>
        .element _ _ _ (Or.inl (hmarkup name startTag hopener)) hinside) fun _ _ _ _ => .block _)

/-- **Growing by what a text begins with keeps the texts running.** -/
theorem Running.step (h : g.Running source) {lexeme : Lexeme}
    (hnext : Lexeme.next config g.context g.offset cs = .ok (lexeme, rest)) (hne : cs ≠ [])
    (hdrop : Text.dropBytes? g.offset source = some cs) : (g.step lexeme).Running source := by
  have hgrown : ∀ {grown : Growth}, grown.Running source → ∀ offset,
      Growth.Running source { grown with offset := offset } := fun h _ =>
    ⟨h.finished.upTo _, h.markup⟩
  have happ := (Lexeme.append_of_next hnext).1
  rw [Lexeme.next] at hnext
  split at hnext
  · obtain ⟨_, _, raw, -, -, rfl⟩ | ⟨_, _, _, -, hblock⟩ := boundary_eq_ok hnext
    · exact hgrown (h.closeTop _) _
    · obtain ⟨_, -, -, ⟨_, _, -, -, -, rfl⟩ | ⟨_, -, -, rfl⟩⟩ := blockTag_eq_ok hblock
      · exact hgrown (h.beginClause _ _) _
      · exact hgrown (h.closeTop _) _
  · obtain ⟨_, -, hnext⟩ := Except.bind_eq_ok.1 hnext
    cases hnext
    exact hgrown (h.add (.comment _)) _
  · obtain ⟨tail, -, ⟨-, -, rfl⟩ | ⟨-, ⟨-, rfl⟩ | ⟨_, _, content, endTag, rfl, -⟩⟩⟩ :=
      startTag_eq_ok hnext
    · exact hgrown (h.add (.element _ _ _ (Or.inr rfl) (by simp))) _
    · refine hgrown (h.enter rfl ?_) _
      rintro _ _ ⟨⟩
      exact not_opaque_of_startTag hnext
    · refine hgrown (h.add ?_) _
      obtain ⟨hname, hends, hfirst⟩ := opaque_of_startTag hnext
      rw [← happ, Lexeme.raw, List.append_assoc, List.append_assoc] at hdrop
      have hinside := Text.dropBytes?_of_append hdrop
      rw [Growth.rawElement]
      split
      · exact .element _ _ _ (Or.inr rfl) (by simp)
      · exact .content _ _ _ hname ⟨hinside, rfl, Or.inr hends⟩ hfirst
  · obtain ⟨_, -, -, ⟨_, _, -, -, rfl⟩ | ⟨_, _, -, -, rfl⟩ | ⟨-, rfl⟩⟩ := mustache_eq_ok hnext
    · exact hgrown (h.enter rfl (by rintro _ _ ⟨⟩)) _
    · exact hgrown (h.add (.special _ _)) _
    · exact hgrown (h.add (.mustache _)) _
  · next hopens =>
    cases hnext
    exact hgrown (h.add (.text (plainAt_of_textRun hne hopens hdrop))) _

end Growth

/-- **All texts in the trees of a template are runs.** -/
theorem Tree.running_of_ofText {trees : List Tree} (h : Tree.ofText config source = .ok trees) :
    ∀ t ∈ trees, t.Running source := by
  have hstart : Growth.Running source {} := ⟨Growing.Holds.start, nofun⟩
  obtain ⟨last, hruns, -, hfinish⟩ := Tree.exists_of_ofText (Growth.Running source)
    (fun _ _ _ _ hg hne hrest hnext => hg.step hnext hne hrest) hstart h
  rw [← Growth.roots_of_finish hfinish]
  exact fun t ht => hruns.finished.roots t (List.mem_reverse.1 ht)

/-! ## Documents -/

/-- The start tag of an element with opaque content, and the run that this is. -/
def ContentOf (source : List Char) (startTag text : Span) : Prop :=
  ∃ name closes, StartTagAt source startTag name closes ∧ Html.lowerName name ∈ opaqueNames ∧
    ∃ run rest, RunAt BeginsMarkup source text run rest

/-- **The texts of a blueprint are the runs of its tree.** -/
theorem Tree.WellFormed.texts {source : Source} {t : Tree} (h : t.WellFormed source.text)
    (hruns : t.Running source.text) :
    (t.blueprint source).Texts (PlainAt BeginsMarkup source.text) (ContentOf source.text) := by
  induction h with
  | text span =>
    rw [Tree.blueprint]
    cases hruns with
    | text plain => exact .text _ plain
  | comment =>
    rw [Tree.blueprint]
    exact .leaf _ _ (by simp)
  | mustache =>
    rw [Tree.blueprint]
    exact .block (by simp)
  | special written =>
    obtain ⟨header, htag, -⟩ := written
    rcases blueprint_special htag.lt with heq | ⟨e, -, heq⟩
    · rw [heq]
      exact .group (List.forall_mem_singleton.2 (.block (by simp)))
    · rw [heq]
      exact .group (List.forall_mem_singleton.2 (.fault e))
  | element startTag written closed empty row inside closes ih =>
    rw [Tree.blueprint, blueprints_eq_map]
    refine .group (List.forall_mem_singleton.2 ?_)
    cases hruns with
    | element _ _ _ _ hinside =>
      exact .element (List.forall_mem_map.2 fun t ht => ih t ht (hinside t ht))
    | content _ _ _ hname hrun =>
      rw [List.map_cons, List.map_nil, Tree.blueprint]
      exact .content ⟨_, _, written, hname, _, _, hrun⟩
  | @block kind head clauses content opens row inside written closes closer ih =>
    cases hruns with
    | block _ hinside =>
      rcases blueprint_block row written closes closer with ⟨-, heq⟩ | ⟨e, -, heq⟩
      · rw [heq, plannedVisits_eq_map, List.map_map]
        refine .group (List.forall_mem_append.2 ⟨List.forall_mem_map.2 fun visit hvisit => ?_,
          List.forall_mem_singleton.2 (.block (by simp))⟩)
        have hmem : visit.2 ∈ head :: clauses.map Prod.snd :=
          List.mem_map_of_mem (f := Prod.snd) hvisit
        rw [Function.comp_apply, ofSection_planned, blueprints_eq_map]
        exact .block (List.forall_mem_map.2 fun t ht =>
          ih visit.2 hmem t ht (hinside visit.2 hmem t ht))
      · rw [heq]
        exact .group (List.forall_mem_singleton.2 (.fault e))

/-- **The texts of a template's document are runs.** -/
theorem runs_of_parse {text : String} {options : Options} {doc : Document}
    (hparse : Document.parse dialect text options = .ok doc) :
    doc.Runs BeginsMarkup (fun name => Html.lowerName name ∈ opaqueNames) := by
  obtain ⟨reading, tops, hread, hrow⟩ :=
    Document.row_of_parse (fun reading hread => (covers_of_read options hread).inPlace) hparse
  have htile := hrow.tokensTile (covers_of_read options hread)
  obtain ⟨trees, htrees, hreading⟩ := Except.bind_eq_ok.1 hread
  have hgood := (Tree.forest_of_ofText htrees).all
  have hruns := Tree.running_of_ofText htrees
  cases hreading
  rw [blueprints_eq_map] at hrow
  have hall := List.forall_mem_map.2 fun t ht => (hgood t ht).texts (hruns t ht)
  refine Document.runs_of_row hrow htile hall ?_
  rintro startTag span token tag ⟨name, closes, ⟨raw, hslice, htag⟩, hname, hrun⟩ htoken hread
  obtain rfl := Option.some.inj ((Source.slice?_of_slice htoken).symm.trans hslice)
  exact ⟨htag.name_of_read hread ▸ hname, hrun⟩

end Markup.Svelte
