import Markup.Proofs.Document.Runs
import Markup.Proofs.Html.Rereading

/-!
# Proofs/Html/Runs — the texts of an HTML document

A text is read up to the first place where `isMarkup` holds, and what follows is told by `opening`:
the two agree (`opening_eq_text_iff`), and markup begins as `BeginsMarkup` says.  So what stands
where markup is read is plain, and opaque content goes on to the end tag of its element
(`Tree.Running`, kept by every lexeme in `Growth.Finished.step`).
-/

namespace Markup.Html

/-- **What markup begins with**: a bracket before a letter, an exclamation or question mark, or a
slash and a letter. -/
inductive BeginsMarkup : List Char → Prop
  | startTag {c : Char} (rest : List Char) (letter : Text.isLetter c = true) :
      BeginsMarkup ('<' :: c :: rest)
  | endTag {c : Char} (rest : List Char) (letter : Text.isLetter c = true) :
      BeginsMarkup ('<' :: '/' :: c :: rest)
  | declaration (rest : List Char) : BeginsMarkup ('<' :: '!' :: rest)
  | instruction (rest : List Char) : BeginsMarkup ('<' :: '?' :: rest)

/-- **That is where a run of text ends.** -/
theorem isMarkup_iff {cs : List Char} : isMarkup cs = true ↔ BeginsMarkup cs := by
  constructor
  · intro h
    unfold isMarkup at h
    split at h
    · next inner =>
      simp only [Bool.or_eq_true, beq_iff_eq, bne_iff_ne] at h
      rcases h with (hmark | hmark) | htag
      · obtain ⟨rest, rfl⟩ := List.head?_eq_some_iff.1 hmark
        exact .declaration rest
      · obtain ⟨rest, rfl⟩ := List.head?_eq_some_iff.1 hmark
        exact .instruction rest
      · unfold tagOpening at htag
        split at htag
        · split at htag
          · next hletter => exact .endTag _ hletter
          · exact absurd rfl htag
        · split at htag
          · next hletter => exact .startTag _ hletter
          · exact absurd rfl htag
        · exact absurd rfl htag
    · cases h
  · rintro (⟨rest, hletter⟩ | ⟨rest, hletter⟩ | rest | rest)
    · simp [isMarkup, tagOpening_letter hletter]
    · simp [isMarkup, tagOpening_slash hletter]
    · rfl
    · rfl

/-- What ends a run of text is markup or nothing. -/
theorem endsText_iff {cs : List Char} : EndsText cs ↔ cs = [] ∨ BeginsMarkup cs :=
  or_congr_right isMarkup_iff

/-- **The texts in a tree are runs**: those that stand where markup is read are plain, and opaque
content is all that is in its element. -/
inductive Tree.Running (source : List Char) : Tree → Prop
  | leaf {kind : Mark} {span : Span} (plain : kind = .text → PlainAt BeginsMarkup source span) :
      Running source (.leaf kind span)
  | stray (span : Span) : Running source (.stray span)
  | element (name : String) (span : Span) (startTagEnd : Nat) (endTag : Option Span)
      {children : List Tree} (inside : ∀ t ∈ children, Running source t) :
      Running source (.element name span startTagEnd endTag children)
  | content {name : String} (span : Span) (startTagEnd : Nat) (endTag : Option Span)
      {text : Span} {run rest : List Char} (raw : (TagRule.ofName name).isRawText = true)
      (run : RunAt BeginsMarkup source text run rest) :
      Running source (.element name span startTagEnd endTag [.leaf .text text])

variable {source cs rest : List Char}

/-! ## Lexemes -/

/-- **A run of text is plain.** -/
theorem plainAt_of_textRun {offset : Nat} (hne : cs ≠ []) (hopens : opening cs = .text)
    (hdrop : Text.dropBytes? offset source = some cs) :
    PlainAt BeginsMarkup source ⟨offset, offset + Text.byteSize (textRun cs).1⟩ := by
  have happ := append_textRun cs
  obtain ⟨c, run, rest, hrun, hends, hno⟩ := exists_of_textRun hne hopens
  rw [hrun] at happ ⊢
  refine ⟨c :: run, rest, ⟨happ.symm ▸ hdrop, rfl, endsText_iff.1 hends⟩, ?_⟩
  intro front back heq hback hmarkup
  have hhere := isMarkup_iff.2 hmarkup
  rw [isMarkup_append hback hends, hno front back heq hback] at hhere
  exact absurd hhere Bool.false_ne_true

/-- **Opaque content goes on to its end tag**, or to the end. -/
theorem endsText_of_rawContent {name closing : String} {content : List Char}
    {endTag : Option (List Char)} (hname : IsTagName name.toList)
    (hclosing : rawTextEnd? config name = some closing)
    (h : rawContent closing.toList cs = .ok (content, endTag, rest)) :
    EndsText (endTag.getD [] ++ rest) := by
  cases endTag with
  | none =>
    rw [rawContent] at h
    split at h
    · cases h
      exact Or.inl rfl
    · cases h
      exact Or.inl rfl
    · split at h <;> cases h
  | some endTag =>
    obtain ⟨-, hequal⟩ := Lexeme.closing_of_rawTextEnd? hclosing
    obtain ⟨written, tail, rfl, hwritten⟩ := Lexeme.exists_of_rawContent h
    have hwhole : Text.equalIgnoreCase ('<' :: '/' :: name.toList) written = true :=
      beq_iff_eq.2 ((beq_iff_eq.1 hequal).trans (beq_iff_eq.1 hwritten))
    obtain ⟨inner, rfl, hinner⟩ := Text.exists_of_equalIgnoreCase_cons (by decide) hwhole
    obtain ⟨word, rfl, hword⟩ := Text.exists_of_equalIgnoreCase_cons (by decide) hinner
    obtain ⟨c, others, hcons, hletter⟩ := hname.exists_cons
    rw [hcons] at hword
    have hmap := (beq_iff_eq.1 hword).symm
    rw [List.map_cons] at hmap
    obtain ⟨d, more, rfl, hlower, -⟩ := List.map_eq_cons_iff.1 hmap
    exact Or.inr (isMarkup_iff.2 (.endTag _ (Text.isLetter_of_toLower_eq hlower.symm hletter)))

/-! ## Growing -/

/-- Something holds of all trees that are finished in an open element. -/
def OpenElement.Finished (p : Tree → Prop) (e : OpenElement) : Prop := ∀ t ∈ e.children, p t

/-- **Something holds of all trees that are finished**, but not of what is inside them. -/
def Growth.Finished (p : Tree → Prop) (g : Growth) : Prop := g.Holds p (OpenElement.Finished p)

theorem OpenElement.Finished.take {p : Tree → Prop} (t : Tree) (e : OpenElement) (ht : p t)
    (he : e.Finished p) : (Holder.take [t] e : OpenElement).Finished p :=
  List.forall_mem_cons.2 ⟨ht, he⟩

namespace Growth

variable {g : Growth}

theorem Finished.add {p : Tree → Prop} (h : g.Finished p) {t : Tree} (ht : p t) :
    (g.add t).Finished p :=
  Growing.Holds.add h ht OpenElement.Finished.take

/-- An element is running when what is in it is. -/
theorem Finished.closeTop (h : g.Finished (Tree.Running source)) (endTag : Option Span) :
    (g.closeTop endTag).Finished (Tree.Running source) :=
  Growing.Holds.closeTop h
    (fun _ _ he => .element _ _ _ _ fun t ht => he t (List.mem_reverse.1 ht))
    OpenElement.Finished.take

theorem Finished.closeMany (h : g.Finished (Tree.Running source)) (n : Nat) :
    (closeMany n g).Finished (Tree.Running source) :=
  closeMany_keeps (fun h => h.closeTop none) n h

/-- **Growing by what a text begins with keeps the texts running.** -/
theorem Finished.step (h : g.Finished (Tree.Running source)) {l : Lexeme}
    (hnext : Lexeme.next config cs = .ok (l, rest)) (hne : cs ≠ [])
    (hdrop : Text.dropBytes? g.offset source = some cs) :
    (g.step config l).Finished (Tree.Running source) := by
  have himply : ∀ name, (g.imply name).Finished (Tree.Running source) := fun _ => h.closeMany _
  have hgrown : ∀ {grown : Growth}, grown.Finished (Tree.Running source) → ∀ offset,
      Growth.Finished (Tree.Running source) { grown with offset := offset } := fun h => h.upTo
  have hproper := Lexeme.proper_of_next hnext hne
  have happ := (Lexeme.append_of_next hnext).1
  cases l with
  | mark kind raw =>
    refine hgrown (h.add (.leaf fun hkind => ?_)) _
    subst hkind
    cases Lexeme.begins_of_next hnext with
    | mark opens => exact absurd (ending?_of_opening opens) (by simp [Mark.ending?])
    | startTag _ _ starts => exact absurd rfl ((Lexeme.ofStartTag_ne starts).1 _ _)
    | text opens => exact plainAt_of_textRun hne opens hdrop
  | closedTag name raw => exact hgrown ((himply name).add (.element _ _ _ _ (by simp))) _
  | openTag name raw => exact hgrown ((himply name).enter (l := ⟨name, _, []⟩) nofun) _
  | rawElement name startTag content endTag =>
    refine hgrown ((himply name).add ?_) _
    obtain ⟨htag, -⟩ := hproper
    obtain ⟨-, word, inner, hword, hcontent⟩ := Lexeme.rawElement_of_next hnext
    have hends := endsText_of_rawContent htag.isTagName hword hcontent
    rw [← happ, Lexeme.text, List.append_assoc, List.append_assoc] at hdrop
    have hinside := Text.dropBytes?_of_append hdrop
    rw [Growth.rawElement]
    split
    · exact .element _ _ _ _ (by simp)
    · exact .content _ _ _ (Lexeme.closing_of_rawTextEnd? hword).1
        ⟨List.append_assoc .. ▸ hinside, rfl, endsText_iff.1 hends⟩
  | endTag name raw =>
    have hclosed : (g.closeNamed config name ⟨g.offset, g.offset + Text.byteSize raw⟩).Finished
        (Tree.Running source) := by
      rw [Growth.closeNamed]
      split
      · exact h.add (.stray _)
      · exact (h.closeMany _).closeTop _
    exact hgrown hclosed _

end Growth

/-- **All texts in the trees of a text are runs.** -/
theorem Tree.running_of_ofText {front : Bool} {trees : List Tree}
    (h : Tree.ofText config front source = .ok trees) : ∀ t ∈ trees, t.Running source := by
  have hstart : Growth.Finished (Tree.Running source) {} := Growing.Holds.start
  have hmatter : ∀ span, Tree.Running source (.leaf .frontMatter span) := fun _ => .leaf nofun
  obtain ⟨last, hruns, -, rfl⟩ := Tree.exists_of_ofText
    (Growth.Finished (Tree.Running source)) (fun _ _ _ => (hstart.add (hmatter _)).upTo _)
    (fun _ _ _ _ hg hne hrest hnext => hg.step hnext hne hrest) hstart h
  exact fun t ht => (hruns.closeMany _).roots t (List.mem_reverse.1 ht)

/-! ## Documents -/

/-- The start tag of an element with opaque content, and the run that this is. -/
def ContentOf (source : List Char) (startTag text : Span) : Prop :=
  ∃ name raw, StartTagAt source startTag name raw ∧ (TagRule.ofName name).isRawText = true ∧
    ∃ run rest, RunAt BeginsMarkup source text run rest

/-- **The texts of a blueprint are the runs of its tree.** -/
theorem Tree.WellFormed.texts {source : Source} {t : Tree} (h : t.WellFormed source.text)
    (hruns : t.Running source.text) :
    (t.blueprint source).Texts (PlainAt BeginsMarkup source.text) (ContentOf source.text) := by
  induction h with
  | leaf kind span =>
    rw [Tree.blueprint]
    cases hruns with
    | leaf plain =>
      cases kind with
      | text => exact .text _ (plain rfl)
      | frontMatter | cdata => exact .block (by simp)
      | _ => exact .leaf _ _ (by simp)
  | stray span =>
    rw [Tree.blueprint]
    exact .leaf _ _ (by simp)
  | element startTag written closed row inside closes ih =>
    rw [Tree.blueprint, Tree.blueprints_eq_map]
    refine .group (List.forall_mem_singleton.2 ?_)
    cases hruns with
    | element _ _ _ _ hinside =>
      exact .element (List.forall_mem_map.2 fun t ht => ih t ht (hinside t ht))
    | content _ _ _ hraw hrun =>
      rw [List.map_cons, List.map_nil, Tree.blueprint]
      exact .content ⟨_, _, written, hraw, _, _, hrun⟩

/-- **The texts of an HTML document are runs.** -/
theorem runs_of_parse {text : String} {options : Options} {doc : Document}
    (hparse : Document.parse dialect text options = .ok doc) :
    doc.Runs BeginsMarkup (fun name => lowerName name ∈ opaqueNames) := by
  obtain ⟨reading, tops, hread, hrow⟩ :=
    Document.row_of_parse (fun reading hread => (covers_of_read hread).inPlace) hparse
  have htile := hrow.tokensTile (covers_of_read hread)
  obtain ⟨trees, htrees, hreading⟩ := Except.bind_eq_ok.1 hread
  have hgood := (Tree.forest_of_ofText htrees).all
  have hruns := Tree.running_of_ofText htrees
  cases hreading
  rw [Tree.blueprints_eq_map] at hrow
  have hall := List.forall_mem_map.2 fun t ht => (hgood t ht).texts (hruns t ht)
  refine Document.runs_of_row hrow htile hall ?_
  rintro startTag span token tag ⟨name, raw, ⟨hslice, htag⟩, hraw, hrun⟩ htoken hread
  obtain rfl := Option.some.inj ((Source.slice?_of_slice htoken).symm.trans hslice)
  exact ⟨htag.name_of_read hread ▸ lowerName_mem_of_isRawText hraw, hrun⟩

end Markup.Html
