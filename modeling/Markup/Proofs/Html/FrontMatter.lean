import Markup.Proofs.Blueprint.Block
import Markup.Proofs.Html.Leading
import Markup.Proofs.Text.Lines

/-!
# Proofs/Html/FrontMatter — what a text opens with between lines of dashes

`FrontMatter` says of the lines of a text where its front matter ends: **at the first line that
closes it**.  What is recognized ends at the first line that begins with three dashes, or is none
if that line goes on (`frontMatter?_eq_some_iff`), so the two agree where no line in between begins
so.  Where there is none the text is read from its start, and nothing in the document is front
matter (`data_ne_frontMatter`).
-/

namespace Markup.Html

variable {cs front rest opener l : List Char} {inner as bs : List (List Char)}

/-- What the lines around front matter begin with. -/
def dashes : List Char := ['-', '-', '-']

/-- A line that front matter begins with. -/
def opensFrontMatter (line : List Char) : Bool :=
  line == dashes ++ ['\n'] || line == dashes ++ ['\r', '\n']

/-- A line that it ends with: only white space follows the dashes. -/
def closesFrontMatter (line : List Char) : Bool :=
  dashes.isPrefixOf line && (line.drop dashes.length).all Text.isSpace

/-- **The front matter of a text**: its first line, the inner ones, of which none closes it, and the
one that does. -/
def FrontMatter (cs : List Char) (inner : List (List Char)) (front rest : List Char) : Prop :=
  ∃ opener closer others, Text.lines cs = opener :: (inner ++ closer :: others) ∧
    opensFrontMatter opener = true ∧ (∀ l ∈ inner, closesFrontMatter l = false) ∧
      closesFrontMatter closer = true ∧ front = opener ++ (inner.flatten ++ closer) ∧
        rest = others.flatten

/-! ## What is recognized -/

/-- Behind a line that opens front matter the dashes are sought. -/
theorem frontMatter?_of_opener (hlines : Text.lines cs = opener :: as)
    (hopens : opensFrontMatter opener = true) :
    ∃ blank rest, '\n' ∉ blank ∧ opener = dashes ++ (blank ++ ['\n']) ∧ Text.lines rest = as ∧
      frontMatter? cs = match Text.cut ('\n' :: dashes) (blank ++ '\n' :: rest) with
        | none => none
        | some (inner, close) =>
          let line := Text.splitLine (close.drop 4)
          if line.1.all Text.isSpace then
            some ('-' :: '-' :: '-' :: inner ++ close.take 4 ++ line.1, line.2)
          else none := by
  obtain ⟨blank, hblank, hopener, hbreak⟩ : ∃ blank, '\n' ∉ blank ∧
      opener = dashes ++ (blank ++ ['\n']) ∧ ∀ rest, ['\n'].isPrefixOf (blank ++ '\n' :: rest) ∨
        ['\r', '\n'].isPrefixOf (blank ++ '\n' :: rest) := by
    rcases Bool.or_eq_true_iff.1 hopens with h | h
    · exact ⟨[], List.not_mem_nil, beq_iff_eq.1 h, fun _ => Or.inl rfl⟩
    · exact ⟨['\r'], by decide, beq_iff_eq.1 h, fun _ => Or.inr rfl⟩
  obtain ⟨first, rest, -, hfirst, rfl, hrest⟩ | ⟨hnone, -, -⟩ := Text.lines_eq_cons hlines
  · refine ⟨blank, rest, hblank, hopener, hrest, ?_⟩
    have hcs : first ++ '\n' :: rest = '-' :: '-' :: '-' :: (blank ++ '\n' :: rest) := by
      rw [← List.singleton_append, ← List.append_assoc, ← hfirst, hopener]
      simp [dashes]
    rw [hcs, frontMatter?, if_pos (hbreak rest)]
    rfl
  · exact absurd (by simp [hopener]) hnone

/-- **What is recognized ends with the first line that begins with dashes**, if that closes it… -/
theorem frontMatter?_of_lines (hlines : Text.lines cs = opener :: (as ++ l :: bs))
    (hopens : opensFrontMatter opener = true) (has : ∀ a ∈ as, dashes.isPrefixOf a = false)
    (hl : dashes.isPrefixOf l = true) :
    frontMatter? cs = if closesFrontMatter l then some (opener ++ (as.flatten ++ l), bs.flatten)
      else none := by
  obtain ⟨blank, rest, hblank, rfl, hrest, heq⟩ := frontMatter?_of_opener hlines hopens
  obtain ⟨before, hbefore, hcut⟩ := Text.cut_of_lines (by decide) hrest has hl hblank
  obtain ⟨tail, rfl⟩ := List.isPrefixOf_iff_prefix.1 hl
  have hline : Text.splitLine (tail ++ bs.flatten) = (tail, bs.flatten) :=
    Text.splitLine_of_lines (by decide) (Text.lines_flatten hrest)
  have hcloses : closesFrontMatter (dashes ++ tail) = tail.all Text.isSpace := by
    rw [closesFrontMatter, hl, Bool.true_and, List.drop_left]
  have hfront : dashes ++ (before ++ ('\n' :: dashes ++ tail)) =
      dashes ++ (blank ++ ['\n']) ++ (as.flatten ++ (dashes ++ tail)) := by
    have hbreak : before ++ ('\n' :: dashes ++ tail) = before ++ ['\n'] ++ (dashes ++ tail) := by
      simp
    rw [hbreak, hbefore]
    simp
  rw [heq, hcut, hcloses, ← hfront]
  simp only [dashes, List.flatten_cons, List.cons_append, List.nil_append, List.drop_succ_cons,
    List.drop_zero, List.take_succ_cons, List.take_zero, List.append_assoc, hline]

/-- …and nothing is recognized where no line begins so. -/
theorem frontMatter?_eq_none_of_lines (hlines : Text.lines cs = opener :: as)
    (has : ∀ a ∈ as, dashes.isPrefixOf a = false) (hopens : opensFrontMatter opener = true) :
    frontMatter? cs = none := by
  obtain ⟨blank, rest, hblank, -, rfl, heq⟩ := frontMatter?_of_opener hlines hopens
  rw [heq, Text.cut_eq_none_of_lines (by decide) (by decide) has hblank]

/-- What opens with front matter does so with a line. -/
theorem exists_opener (h : frontMatter? cs ≠ none) :
    ∃ opener others, Text.lines cs = opener :: others ∧ opensFrontMatter opener = true := by
  have hopener : ∀ (blank rest : List Char), '\n' ∉ blank →
      Text.lines ('-' :: '-' :: '-' :: (blank ++ '\n' :: rest)) =
        (dashes ++ blank ++ ['\n']) :: Text.lines rest := by
    intro blank rest hblank
    have hinner : '\n' ∉ dashes ++ blank := by simp [dashes, hblank]
    exact Text.lines_append hinner rest
  unfold frontMatter? at h
  split at h
  · next body =>
    split at h
    · next hbreak =>
      rcases hbreak with hfeed | hreturn
      · obtain ⟨rest, rfl⟩ := List.isPrefixOf_iff_prefix.1 hfeed
        exact ⟨_, _, hopener [] rest (by decide), by decide⟩
      · obtain ⟨rest, rfl⟩ := List.isPrefixOf_iff_prefix.1 hreturn
        exact ⟨_, _, hopener ['\r'] rest (by decide), by decide⟩
    · exact absurd rfl h
  · exact absurd rfl h

/-- **What is recognized is the front matter**, if no inner line begins with dashes. -/
theorem frontMatter?_eq_some_iff : frontMatter? cs = some (front, rest) ↔
    ∃ inner, FrontMatter cs inner front rest ∧ ∀ l ∈ inner, dashes.isPrefixOf l = false := by
  constructor
  · intro h
    obtain ⟨opener, others, hlines, hopens⟩ := exists_opener (h ▸ Option.some_ne_none _)
    cases hfind : others.find? dashes.isPrefixOf with
    | none =>
      have hnone : ∀ a ∈ others, dashes.isPrefixOf a = false := fun a ha =>
        Bool.eq_false_iff.2 (List.find?_eq_none.1 hfind a ha)
      rw [frontMatter?_eq_none_of_lines hlines hnone hopens] at h
      cases h
    | some l =>
      obtain ⟨hl, as, bs, rfl, hbefore⟩ := List.find?_eq_some_iff_append.1 hfind
      have has : ∀ a ∈ as, dashes.isPrefixOf a = false := by simpa using hbefore
      rw [frontMatter?_of_lines hlines hopens has hl] at h
      split at h
      · next hcloses =>
        cases h
        refine ⟨as, ⟨opener, l, bs, hlines, hopens, fun a ha => ?_, hcloses, rfl, rfl⟩, has⟩
        rw [closesFrontMatter, has a ha, Bool.false_and]
      · cases h
  · rintro ⟨inner, ⟨opener, closer, others, hlines, hopens, -, hcloses, rfl, rfl⟩, hinner⟩
    rw [frontMatter?_of_lines hlines hopens hinner (Bool.and_eq_true_iff.1 hcloses).1, hcloses,
      if_pos rfl]

/-! ## Documents without front matter -/

variable {trees : List Tree} {source : Source}

/-- A tree that is not front matter itself. -/
def Tree.IsMarkup (t : Tree) : Prop := ∀ span, t ≠ .leaf .frontMatter span

/-- **What follows front matter holds none**, nor does a text that does not open with it. -/
theorem Tree.every_isMarkup (h : frontMatter? cs = none) {withFrontMatter : Bool}
    (htrees : ofText config withFrontMatter cs = .ok trees) :
    ∀ t ∈ trees, t.Every Tree.IsMarkup := by
  have hclose : Closable Tree.IsMarkup fun _ _ => True := fun _ _ _ => by
    simp [OpenElement.close]
  have hnone : ∀ raw rest, frontMatter? cs ≠ some (raw, rest) := by simp [h]
  refine Tree.every_of_ofText hclose (fun raw rest hmatter => absurd hmatter (hnone raw rest))
    (fun offset before l after hnext _ => ?_) htrees
  cases l with
  | mark kind raw =>
    rintro span heq
    cases heq
    exact Lexeme.ne_frontMatter_of_next hnext
  | openTag => trivial
  | closedTag => exact fun _ => by simp
  | endTag => exact ⟨fun _ => by simp, fun _ _ _ _ => by simp [OpenElement.close]⟩
  | rawElement =>
    exact Growth.every_rawElement (fun _ => by simp [Growth.rawElement]) fun _ => by simp

/-- A mark that is not front matter is no block of it… -/
theorem allBlocks_leafBlueprint {kind : Mark} (h : kind ≠ .frontMatter) (span : Span) :
    (leafBlueprint source kind span).AllBlocks (· ≠ "#front-matter") := by
  cases kind with
  | frontMatter => exact absurd rfl h
  | cdata => exact .block (by decide) (List.forall_mem_nil _)
  | _ => exact .leaf ..

/-- …so **no blueprint of such trees asks for one**. -/
theorem Tree.Every.allBlocks {t : Tree} (h : t.Every Tree.IsMarkup) :
    (t.blueprint source).AllBlocks (· ≠ "#front-matter") := by
  induction h with
  | @intro t here inside ih =>
    cases t with
    | leaf kind span =>
      rw [Tree.blueprint]
      exact allBlocks_leafBlueprint (fun hkind => here span (hkind ▸ rfl)) span
    | stray span =>
      rw [Tree.blueprint]
      exact .leaf ..
    | element name span startTagEnd endTag children =>
      rw [Tree.blueprint, Tree.blueprints_eq_map]
      exact .group (List.forall_mem_singleton.2 (.element (List.forall_mem_map.2 ih)))

/-- **Nothing is front matter in the document of a text without it.** -/
theorem data_ne_frontMatter {text : String} {options : Options} {doc : Document}
    (hnone : frontMatter? text.toList = none) (h : Document.parse dialect text options = .ok doc) :
    ∀ n ∈ doc.nodes, ∀ children, n.data ≠ .block "#front-matter" children := by
  obtain ⟨reading, tops, hread, hrow⟩ :=
    Document.row_of_parse (fun reading hread => (covers_of_read hread).inPlace) h
  obtain ⟨trees, htrees, hreading⟩ := Except.bind_eq_ok.1 hread
  cases hreading
  have hall := Tree.every_isMarkup hnone htrees
  intro n hn children hdata
  have hblocks : ∀ b ∈ Tree.blueprints (Source.ofString text options.base) trees,
      b.AllBlocks (· ≠ "#front-matter") := by
    rw [Tree.blueprints_eq_map]
    exact List.forall_mem_map.2 fun t ht => (hall t ht).allBlocks
  exact hrow.name_of_block hblocks (Array.mem_toList_iff.2 hn) hdata rfl

/-! ## Front matter of documents -/

/-- **Behind front matter a text is read as it would be on its own…** -/
theorem Tree.ofText_frontMatter (h : frontMatter? cs = some (front, rest)) :
    ofText config true cs = behindMark .frontMatter front (ofText config false rest) := by
  obtain ⟨rfl, -⟩ := append_of_frontMatter? h
  refine ofText_of_mark ?_
  rw [documentLexemes, if_pos rfl, h]

/-- …and without it all of the text is. -/
theorem Tree.ofText_of_frontMatter?_eq_none (h : frontMatter? cs = none) :
    ofText config true cs = ofText config false cs := by
  rw [ofText, ofText, documentLexemes, documentLexemes, if_pos rfl, h]
  rfl

/-- **Front matter ends at the first line that closes it**, if no line in between begins with
dashes: then it is the first node, and what follows it is parsed; otherwise there is none. -/
theorem parse_frontMatter (cs : List Char) :
    (∀ inner front rest, FrontMatter cs inner front rest →
      (∀ l ∈ inner, dashes.isPrefixOf l = false) →
        Tree.ofText config true cs =
          Tree.behindMark .frontMatter front (Tree.ofText config false rest) ∧
        (∀ page : Page, page.WellFormed → rest = page.render → ∀ options : Options,
          options.ignoreFrontMatter = true →
            ∃ doc, Document.parse dialect (String.ofList cs) options = .ok doc) ∧
        ∀ options doc, options.ignoreFrontMatter = true →
          Document.parse dialect (String.ofList cs) options = .ok doc →
            ∃ n, doc.nodes[0]? = some n ∧ n.data = .block "#front-matter" [] ∧
              n.token.raw.toList = front ∧ n.token.startOffset = options.offsetOffset ∧
              n.token.endOffset = options.offsetOffset + Text.byteSize front) ∧
    ((∀ inner front rest, FrontMatter cs inner front rest →
      ∃ l ∈ inner, dashes.isPrefixOf l = true) →
        Tree.ofText config true cs = Tree.ofText config false cs ∧
        ∀ options doc, Document.parse dialect (String.ofList cs) options = .ok doc →
          ∀ n ∈ doc.nodes, ∀ children, n.data ≠ .block "#front-matter" children) := by
  refine ⟨fun inner front rest hfront hinner => ?_, fun hnone => ?_⟩
  · have hsplit := frontMatter?_eq_some_iff.2 ⟨inner, hfront, hinner⟩
    have htrees := Tree.ofText_frontMatter hsplit
    obtain ⟨rfl, hne⟩ := append_of_frontMatter? hsplit
    refine ⟨htrees, ?_, fun options doc hoption hparse => ?_⟩
    · rintro page hpage rfl options hoption
      exact exists_parse_of_mark hpage (hoption ▸ htrees)
    · have hlead := leadsWith_of_parse hparse
      have hparts : splitFront options.ignoreFrontMatter (front ++ rest) = (front, rest) :=
        splitFront_of_some (by rw [hoption, if_pos rfl, hsplit])
      rw [String.toList_ofList, hparts] at hlead
      obtain ⟨ls, here, start, nodes, tops, -, -, ⟨hnil, -⟩ | ⟨-, n, hnodes, hshown⟩⟩ :=
        hlead.exists_row
      · exact absurd hnil hne
      · exact ⟨n, by rw [← Array.getElem?_toList, hnodes]; rfl, hshown.data, hshown.raw_eq,
          hshown.startOffset, hshown.endOffset⟩
  · have hsplit : frontMatter? cs = none := by
      refine Option.eq_none_iff_forall_ne_some.2 fun parts hparts => ?_
      obtain ⟨inner, hfront, hinner⟩ := frontMatter?_eq_some_iff.1 hparts
      obtain ⟨l, hl, hdashes⟩ := hnone _ _ _ hfront
      exact absurd (hinner l hl) (by simp [hdashes])
    refine ⟨Tree.ofText_of_frontMatter?_eq_none hsplit, fun options doc hparse => ?_⟩
    exact data_ne_frontMatter (by rwa [String.toList_ofList]) hparse

/-- Front matter with an inner line of two dashes, before a paragraph… -/
def twoDashes : List Char := "---\na: 1\n--x\n--- \n<p>a</p>".toList

/-- …and a text with no line that closes it. -/
def unclosedDashes : List Char := "---\na: 1\n--".toList

theorem parse_frontMatter_dashes :
    (∃ doc n, Document.parse dialect (String.ofList twoDashes) { ignoreFrontMatter := true } =
      .ok doc ∧ doc.nodes[0]? = some n ∧ n.data = .block "#front-matter" [] ∧
        n.token.raw.toList = "---\na: 1\n--x\n--- \n".toList) ∧
    Tree.ofText config true unclosedDashes = Tree.ofText config false unclosedDashes := by
  have hfront : FrontMatter twoDashes ["a: 1\n".toList, "--x\n".toList]
      "---\na: 1\n--x\n--- \n".toList "<p>a</p>".toList :=
    ⟨"---\n".toList, "--- \n".toList, ["<p>a</p>".toList], by decide, by decide, by decide,
      by decide, by decide, by decide⟩
  obtain ⟨doc, hdoc⟩ := Except.exists_of_isOk (show (Document.parse dialect
    (String.ofList twoDashes) { ignoreFrontMatter := true }).isOk = true by decide +kernel)
  refine ⟨?_, ?_⟩
  · obtain ⟨-, -, hnode⟩ := (parse_frontMatter twoDashes).1 _ _ _ hfront (by decide)
    obtain ⟨n, hn, hdata, hraw, -⟩ := hnode _ doc rfl hdoc
    exact ⟨doc, n, hdoc, hn, hdata, hraw⟩
  · refine ((parse_frontMatter unclosedDashes).2 ?_).1
    rintro inner front rest ⟨opener, closer, others, hlines, -, -, hcloses, -⟩
    have hnone : ∀ l ∈ (Text.lines unclosedDashes).tail, closesFrontMatter l = false := by decide
    exact absurd hcloses (Bool.eq_false_iff.1 (hnone closer (hlines ▸ by simp)))

/-- Front matter with an inner line of three dashes and more. -/
def threeDashes : List Char := "---\n---x\n---\n<p>".toList

/-- **A line that begins with three dashes and goes on** hides the one that closes front matter. -/
theorem not_frontMatter_threeDashes :
    FrontMatter threeDashes ["---x\n".toList] "---\n---x\n---\n".toList "<p>".toList ∧ ∃ doc,
      Document.parse dialect (String.ofList threeDashes) { ignoreFrontMatter := true } = .ok doc ∧
        doc.nodes[0]?.map Node.data = some .text := by
  refine ⟨⟨"---\n".toList, "---\n".toList, ["<p>".toList], by decide, by decide, by decide,
    by decide, by decide, by decide⟩, ?_⟩
  exact Except.map_eq_ok.1 (show (Document.parse dialect (String.ofList threeDashes)
    { ignoreFrontMatter := true }).map (fun doc => doc.nodes[0]?.map Node.data) = _ by
      decide +kernel)

end Markup.Html
