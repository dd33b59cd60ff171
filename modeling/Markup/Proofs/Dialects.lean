import Markup.Proofs.Document.Namespace
import Markup.Proofs.Html.EndTag
import Markup.Proofs.Html.Refusal
import Markup.Proofs.Html.Runs
import Markup.Proofs.Svelte.EndTag
import Markup.Proofs.Svelte.Refusal
import Markup.Proofs.Svelte.Runs

/-!
# Proofs/Dialects — what holds of HTML and of templates alike

The blueprints of both dialects **ask for no place of their own**, so a document of either is the
row of its blueprints (`Document.row_of_parse`), and what is proved of rows holds of it.
-/

namespace Markup

variable {d : Dialect} {text : String} {o : Options} {doc : Document}

/-- **A document of either dialect is a row**, from the first place on. -/
theorem Document.row_of_dialect (hd : d = Html.dialect ∨ d = Svelte.dialect)
    (hparse : Document.parse d text o = .ok doc) :
    ∃ roots tops, Row d (Source.ofString text o.base) ⟨none, o.depth⟩ .html 0 roots
      doc.nodes.toList tops := by
  have hplace : ∀ reading, d.read (Source.ofString text o.base) o = .ok reading →
      ∀ b ∈ reading.roots, b.InPlace := by
    intro reading hread
    rcases hd with rfl | rfl
    · exact (Html.covers_of_read hread).inPlace
    · exact (Svelte.covers_of_read o hread).inPlace
  obtain ⟨reading, tops, -, hrow⟩ := Document.row_of_parse hplace hparse
  exact ⟨reading.roots, tops, hrow⟩

/-- **The nodes of a document are the tree that their links say**, in both dialects; in HTML the
close of an element is implied exactly if it has no end tag, does not close itself and is not
void. -/
theorem nested_of_parse (hd : d = Html.dialect ∨ d = Svelte.dialect)
    (hparse : Document.parse d text o = .ok doc) :
    Nested doc.nodes.toList o.depth ∧
      (d = Html.dialect → ∀ n ∈ doc.nodes, ∀ e, n.data = .element e →
        (e.isImpliedClose = true ↔ e.endTag = none ∧ e.selfClosing = false ∧
          (Html.TagRule.ofName e.name).isVoid = false)) := by
  obtain ⟨roots, tops, hrow⟩ := Document.row_of_dialect hd hparse
  refine ⟨nested_of_row hrow, ?_⟩
  rintro rfl n hn e he
  have hiff := hrow.isImpliedClose_iff (Array.mem_toList_iff.2 hn) he
  have htags : Html.dialect.config.endTags = .omittable := rfl
  rw [hiff]
  simp only [htags, true_and]
  rfl

theorem nested_mixedPage : ∃ doc,
    Document.parse Html.dialect Html.mixedPage { ignoreFrontMatter := true, depth := 3 } =
      .ok doc ∧ Nested doc.nodes.toList 3 ∧ ∀ n ∈ doc.nodes, ∀ e, n.data = .element e →
        (e.isImpliedClose = true ↔ e.endTag = none ∧ e.selfClosing = false ∧
          (Html.TagRule.ofName e.name).isVoid = false) := by
  have hok : (Document.parse Html.dialect Html.mixedPage
      { ignoreFrontMatter := true, depth := 3 }).isOk = true := by decide +kernel
  obtain ⟨doc, hparse⟩ := Except.exists_of_isOk hok
  obtain ⟨hnested, hiff⟩ := nested_of_parse (Or.inl rfl) hparse
  exact ⟨doc, hparse, hnested, hiff rfl⟩

/-! ## Namespaces -/

/-- **Namespaces are inherited exactly**: every node of a document of either dialect has the
namespace that the path of enclosing nodes gives, what closes an element has the element's, and a
stray end tag has the one of the place where it stands. -/
theorem namespaced_of_parse (hd : d = Html.dialect ∨ d = Svelte.dialect)
    (hparse : Document.parse d text o = .ok doc) : Namespaced doc.nodes.toList o.depth := by
  obtain ⟨roots, tops, hrow⟩ := Document.row_of_dialect hd hparse
  exact namespaced_of_row hrow

/-- Foreign content that is left and entered again, with stray end tags in and behind it. -/
def foreignPage : String :=
  "<SVG><foreignObject><p>a<math></x>b</math></foreignObject><math/></svg></y><svg><!--c-->"

/-- The same through a block. -/
def foreignTemplate : String :=
  "<svg>\x7b#if a\x7d<foreignobject>\x7bb\x7d<Math/></foreignobject>\x7b/if\x7d</svg>"

theorem namespaced_foreign :
    (∃ doc, Document.parse Html.dialect foreignPage { depth := 2 } = .ok doc ∧
      Namespaced doc.nodes.toList 2) ∧
    ∃ doc, Document.parse Svelte.dialect foreignTemplate {} = .ok doc ∧
      Namespaced doc.nodes.toList 0 := by
  have hpage : (Document.parse Html.dialect foreignPage { depth := 2 }).isOk = true := by
    decide +kernel
  have htemplate : (Document.parse Svelte.dialect foreignTemplate {}).isOk = true := by
    decide +kernel
  obtain ⟨page, hparse⟩ := Except.exists_of_isOk hpage
  obtain ⟨template, hparse'⟩ := Except.exists_of_isOk htemplate
  exact ⟨⟨page, hparse, namespaced_of_parse (Or.inl rfl) hparse⟩,
    ⟨template, hparse', namespaced_of_parse (Or.inr rfl) hparse'⟩⟩

/-! ## Texts -/

/-- **Texts are as long as they may be, and hold no markup**: none follows another with only ghosts
between them, and outside of the elements with opaque content markup begins in none, also not with
what follows it. -/
theorem textRuns_of_parse :
    (Document.parse Html.dialect text o = .ok doc →
      doc.Runs Html.BeginsMarkup fun name => Html.lowerName name ∈ Html.opaqueNames) ∧
    (Document.parse Svelte.dialect text o = .ok doc →
      doc.Runs Svelte.BeginsMarkup fun name => Html.lowerName name ∈ Svelte.opaqueNames) :=
  ⟨Html.runs_of_parse, Svelte.runs_of_parse⟩

/-- Brackets that begin nothing, before a closed and an implied end, and one in a script. -/
def bracketPage : String := "<ul><li>a < b<li>c<</ul><Script>d<e</script>"

/-- The same in a template, with braces in the script. -/
def bracketTemplate : String :=
  "\x7b#if a\x7d<i>b < c<</i>\x7bd\x7d\x7b/if\x7d<script>\x7be\x7d</script>"

theorem textRuns_brackets :
    (∃ doc, Document.parse Html.dialect bracketPage {} = .ok doc ∧
      doc.Runs Html.BeginsMarkup fun name => Html.lowerName name ∈ Html.opaqueNames) ∧
    ∃ doc, Document.parse Svelte.dialect bracketTemplate {} = .ok doc ∧
      doc.Runs Svelte.BeginsMarkup fun name => Html.lowerName name ∈ Svelte.opaqueNames := by
  have hpage : (Document.parse Html.dialect bracketPage {}).isOk = true := by decide +kernel
  have htemplate : (Document.parse Svelte.dialect bracketTemplate {}).isOk = true := by
    decide +kernel
  obtain ⟨page, hparse⟩ := Except.exists_of_isOk hpage
  obtain ⟨template, hparse'⟩ := Except.exists_of_isOk htemplate
  exact ⟨⟨page, hparse, textRuns_of_parse.1 hparse⟩,
    ⟨template, hparse', textRuns_of_parse.2 hparse'⟩⟩

/-! ## Start tags -/

/-- **The start tag of every element is split without a rest where it ends for the splitter**, and
it does if the splitter begins to skip wherever the reader does: then it is the name, the
attributes, blanks, slashes and one bracket. -/
theorem splitsAt_of_ofText (source : Source) :
    (∀ front trees, Html.Tree.ofText Html.config front source.text = .ok trees →
      ∀ t, Html.Within trees t → ∀ name span, t.startTag? = some (name, span) →
        StartTag.SplitsAt Html.dialect Quote.html Html.InStep source span name) ∧
      ∀ trees, Svelte.Tree.ofText Svelte.config source.text = .ok trees →
        ∀ t, Svelte.Within trees t → ∀ name span, t.startTag? = some (name, span) →
          StartTag.SplitsAt Svelte.dialect Svelte.tagQuotes Svelte.InStep source span name :=
  ⟨fun _ _ htrees _ ht _ _ htag => Html.splitsAt_of_within htrees ht htag,
    fun _ htrees _ ht _ _ htag => Svelte.splitsAt_of_within htrees ht htag⟩

/-- A bracket and a slash in quotes. -/
def quotedBracket : Source := Source.ofString "<a b=\"c>d\" / e='/'/>"

/-- A bracket and a brace in an expression, and a spread. -/
def bracketInBraces : Source := Source.ofString "<i f=\x7bg>'\x7d'\x7d \x7b...h\x7d/>"

theorem splitsWhole_skippedBrackets :
    (∃ token, quotedBracket.slice ⟨0, 20⟩ = .ok token ∧
      StartTag.SplitsWhole Html.dialect.readAttribute quotedBracket token "a") ∧
      ∃ token, bracketInBraces.slice ⟨0, 21⟩ = .ok token ∧
        StartTag.SplitsWhole Svelte.dialect.readAttribute bracketInBraces token "i" := by
  constructor
  · have hfound : (Html.Tree.ofText Html.config false quotedBracket.text).toOption.any
        (fun trees => trees.any fun t => t.startTag? == some ("a", ⟨0, 20⟩)) = true := by
      decide +kernel
    have hstep : (quotedBracket.slice ⟨0, 20⟩).toOption.any (fun token =>
        decide (Html.InStep token.raw.toList)) = true := by decide +kernel
    obtain ⟨trees, htrees, hany⟩ := exists_of_any hfound
    obtain ⟨t, ht, hstart⟩ := List.any_eq_true.1 hany
    obtain ⟨token, hslice, hin⟩ := exists_of_any hstep
    obtain ⟨token', hslice', hends, hsplits⟩ := (splitsAt_of_ofText quotedBracket).1 false trees
      htrees t (.root ht) "a" ⟨0, 20⟩ (beq_iff_eq.1 hstart)
    obtain rfl := Except.ok.inj (hslice.symm.trans hslice')
    exact ⟨token, hslice, hsplits (hends (of_decide_eq_true hin))⟩
  · have hfound : (Svelte.Tree.ofText Svelte.config bracketInBraces.text).toOption.any
        (fun trees => trees.any fun t => t.startTag? == some ("i", ⟨0, 21⟩)) = true := by
      decide +kernel
    have hstep : (bracketInBraces.slice ⟨0, 21⟩).toOption.any (fun token =>
        decide (Svelte.InStep token.raw.toList)) = true := by decide +kernel
    obtain ⟨trees, htrees, hany⟩ := exists_of_any hfound
    obtain ⟨t, ht, hstart⟩ := List.any_eq_true.1 hany
    obtain ⟨token, hslice, hin⟩ := exists_of_any hstep
    obtain ⟨token', hslice', hends, hsplits⟩ := (splitsAt_of_ofText bracketInBraces).2 trees
      htrees t (.root ht) "i" ⟨0, 21⟩ (beq_iff_eq.1 hstart)
    obtain rfl := Except.ok.inj (hslice.symm.trans hslice')
    exact ⟨token, hslice, hsplits (hends (of_decide_eq_true hin))⟩

/-- **A quote inside of a value that has none** lets the reader skip a bracket that ends the tag for
the splitter. -/
theorem not_whole_quoteInValue :
    let source := Source.ofString "<a b=c=\"d>e\">"
    ∃ trees t name span token tag, Html.Tree.ofText Html.config false source.text = .ok trees ∧
      Html.Within trees t ∧ t.startTag? = some (name, span) ∧ source.slice span = .ok token ∧
        StartTag.read Html.dialect.readAttribute source token = .ok tag ∧
          ¬tag.Whole source token := by
  intro source
  have hfound : (Html.Tree.ofText Html.config false source.text).toOption.any
      (fun trees => trees.any fun t => t.startTag? == some ("a", ⟨0, 13⟩)) = true := by
    decide +kernel
  have hread : (source.slice ⟨0, 13⟩).toOption.any (fun token =>
      (StartTag.read Html.dialect.readAttribute source token).toOption.any fun tag =>
        (StartTag.behindName token.raw.toList).count '>' == 2 &&
          (tag.attributes.flatMap fun a => a.token.raw.toList).count '>' == 0) = true := by
    decide +kernel
  obtain ⟨trees, htrees, hany⟩ := exists_of_any hfound
  obtain ⟨t, ht, hstart⟩ := List.any_eq_true.1 hany
  obtain ⟨token, hslice, hany⟩ := exists_of_any hread
  obtain ⟨tag, htag, hcounts⟩ := exists_of_any hany
  rw [Bool.and_eq_true, beq_iff_eq, beq_iff_eq] at hcounts
  refine ⟨trees, t, "a", ⟨0, 13⟩, token, tag, htrees, .root ht, beq_iff_eq.1 hstart, hslice, htag,
    ?_⟩
  rintro ⟨-, hfilled⟩
  have hcount := hfilled.count_bracket
  rw [hcounts.1, hcounts.2] at hcount
  exact absurd hcount (by decide)

/-- **The reader of start tags and the element agree on what closes itself**, but for a slash that
the last attribute ends in, if the tag ends for the splitter; a template's reader asks for the slash
right before the bracket.  What the reader takes for self-closing has neither children nor an end
tag, and in a template nothing else has none that is not void. -/
theorem selfClosing_of_parse (hparse : Document.parse d text o = .ok doc) {n : Node}
    (hn : n ∈ doc.nodes) {e : Element} (he : n.data = .element e) :
    (d = Html.dialect →
      (Html.isSelfClosing n.token.raw.toList = true → e.children = [] ∧ e.endTag = none) ∧
        (StartTag.EndsFor Quote.html n.token.raw.toList → Html.isSelfClosing n.token.raw.toList =
          (e.selfClosing || StartTag.lastEndsInSlash e.attributes))) ∧
      (d = Svelte.dialect → ∃ closes, Svelte.IsStartTag n.token.raw.toList e.name closes ∧
        (e.endTag = none ↔ closes = true ∨ Svelte.isVoidName e.name = true) ∧
        (e.endTag = none → e.children = []) ∧
        (StartTag.EndsFor Svelte.tagQuotes n.token.raw.toList → (closes = true ↔
          (e.selfClosing || StartTag.lastEndsInSlash e.attributes) = true ∧
            ∀ c, n.token.raw.toList.dropLast.getLast? = some c → Text.isBlank c = false))) := by
  constructor
  · rintro rfl
    exact Html.selfClosing_of_mem hparse hn he
  · rintro rfl
    exact Svelte.selfClosing_of_mem hparse hn he

/-- An element that passes a test, if the document of a text has one. -/
theorem exists_element_of_any (d : Dialect) (text : String) (p : Node → Element → Bool)
    (h : (Document.parse d text {}).toOption.any (fun doc => doc.nodes.toList.any fun n =>
      match n.data with
      | .element e => p n e
      | _ => false) = true) :
    ∃ doc n e, Document.parse d text {} = .ok doc ∧ n ∈ doc.nodes ∧ n.data = .element e ∧
      p n e = true := by
  obtain ⟨doc, hparse, hany⟩ := exists_of_any h
  obtain ⟨n, hn, htest⟩ := List.any_eq_true.1 hany
  split at htest
  · next e he => exact ⟨doc, n, e, hparse, Array.mem_toList_iff.1 hn, he, htest⟩
  · exact absurd htest Bool.false_ne_true

/-- An element with a value and a slash after it, which close it in both dialects. -/
def slashAfterValue : String := "<p><i b='/'c / /></p>"

theorem selfClosing_slashAfterValue :
    (∃ doc n e, Document.parse Html.dialect slashAfterValue {} = .ok doc ∧ n ∈ doc.nodes ∧
      n.data = .element e ∧ e.selfClosing = true ∧
        Html.isSelfClosing n.token.raw.toList = true ∧ e.children = [] ∧ e.endTag = none) ∧
      ∃ doc n e, Document.parse Svelte.dialect slashAfterValue {} = .ok doc ∧ n ∈ doc.nodes ∧
        n.data = .element e ∧ e.selfClosing = true ∧
          Svelte.IsStartTag n.token.raw.toList e.name true ∧ e.children = [] ∧ e.endTag = none := by
  constructor
  · obtain ⟨doc, n, e, hparse, hn, he, htest⟩ := exists_element_of_any Html.dialect slashAfterValue
      (fun n e => e.selfClosing && decide (StartTag.EndsFor Quote.html n.token.raw.toList))
      (by decide +kernel)
    rw [Bool.and_eq_true, decide_eq_true_eq] at htest
    obtain ⟨hclosed, hlaw⟩ := (selfClosing_of_parse hparse hn he).1 rfl
    have hself : Html.isSelfClosing n.token.raw.toList = true := by
      rw [hlaw htest.2, htest.1, Bool.true_or]
    exact ⟨doc, n, e, hparse, hn, he, htest.1, hself, hclosed hself⟩
  · obtain ⟨doc, n, e, hparse, hn, he, htest⟩ := exists_element_of_any Svelte.dialect
      slashAfterValue (fun n e => e.selfClosing &&
        decide (StartTag.EndsFor Svelte.tagQuotes n.token.raw.toList ∧
          n.token.raw.toList.dropLast.getLast? = some '/'))
      (by decide +kernel)
    rw [Bool.and_eq_true, decide_eq_true_eq] at htest
    obtain ⟨hself, hends, hlast⟩ := htest
    obtain ⟨closes, htag, hended, hempty, hlaw⟩ := (selfClosing_of_parse hparse hn he).2 rfl
    have hcloses : closes = true := (hlaw hends).2 ⟨by rw [hself, Bool.true_or], fun c hc => by
      obtain rfl := Option.some.inj (hlast.symm.trans hc)
      rfl⟩
    have hnone : e.endTag = none := hended.2 (Or.inl hcloses)
    exact ⟨doc, n, e, hparse, hn, he, hself, hcloses ▸ htag, hempty hnone, hnone⟩

/-- **A value without quotes that ends in a slash** closes the element for its reader, not for the
splitter. -/
theorem isSelfClosing_slashInValue :
    ∃ doc n e, Document.parse Html.dialect "<a href=/b/>x</a>" {} = .ok doc ∧ n ∈ doc.nodes ∧
      n.data = .element e ∧ (Html.TagRule.ofName e.name).isVoid = false ∧
        Html.isSelfClosing n.token.raw.toList = true ∧ e.selfClosing = false := by
  obtain ⟨doc, n, e, hparse, hn, he, htest⟩ := exists_element_of_any Html.dialect
    "<a href=/b/>x</a>" (fun n e => decide ((Html.TagRule.ofName e.name).isVoid = false ∧
      Html.isSelfClosing n.token.raw.toList = true ∧ e.selfClosing = false))
    (by decide +kernel)
  exact ⟨doc, n, e, hparse, hn, he, of_decide_eq_true htest⟩

/-! ## End tags -/

/-- **An end tag that closes something closes an element of its name**, as the dialect compares
names; but where an HTML element has opaque content, its end tag's name may go on after the name of
the element. -/
theorem pairedName_of_parse (hd : d = Html.dialect ∨ d = Svelte.dialect)
    (hparse : Document.parse d text o = .ok doc) {n : Node} (hn : n ∈ doc.nodes) {name : String}
    {id : NodeId} (hdata : n.data = .endTag name (some id)) :
    ∃ m e, doc.nodes[id]? = some m ∧ m.data = .element e ∧
      (d.config.namesMatch e.name name = true ∨
        d = Html.dialect ∧ (Html.TagRule.ofName e.name).isRawText = true ∧
          Text.startsWithIgnoreCase e.name.toList name.toList = true) := by
  rcases hd with rfl | rfl
  · obtain ⟨m, e, hm, he, hends, rfl⟩ := Html.ends_of_parse hparse hn hdata
    rw [Array.getElem?_toList] at hm
    refine ⟨m, e, hm, he, hends.imp_right fun hbegins => ⟨rfl, ?_⟩⟩
    rwa [String.toList_ofList]
  · obtain ⟨m, e, hm, he, rfl⟩ := Svelte.name_of_parse hparse hn hdata
    rw [Array.getElem?_toList] at hm
    exact ⟨m, e, hm, he, Or.inl (beq_self_eq_true _)⟩

/-- An end tag of this name, if the document of a text has one that closes something. -/
theorem exists_endTag_of_any (d : Dialect) (text name : String) (id : NodeId)
    (h : (Document.parse d text {}).toOption.any (fun doc =>
      doc.nodes.toList.any fun n => n.data == .endTag name (some id)) = true) :
    ∃ doc n, Document.parse d text {} = .ok doc ∧ n ∈ doc.nodes ∧
      n.data = .endTag name (some id) := by
  obtain ⟨doc, hparse, hany⟩ := exists_of_any h
  obtain ⟨n, hn, hdata⟩ := List.any_eq_true.1 hany
  exact ⟨doc, n, hparse, Array.mem_toList_iff.1 hn, beq_iff_eq.1 hdata⟩

theorem pairedName_titleCase : ∃ doc n m e,
    Document.parse Html.dialect "<Title>a</tiTLE>" {} = .ok doc ∧ n ∈ doc.nodes ∧
      n.data = .endTag "tiTLE" (some 0) ∧ doc.nodes[0]? = some m ∧ m.data = .element e ∧
        (Html.config.namesMatch e.name "tiTLE" = true ∨
          (Html.TagRule.ofName e.name).isRawText = true ∧
            Text.startsWithIgnoreCase e.name.toList "tiTLE".toList = true) := by
  obtain ⟨doc, n, hparse, hn, hdata⟩ := exists_endTag_of_any Html.dialect "<Title>a</tiTLE>" "tiTLE"
    0 (by decide +kernel)
  obtain ⟨m, e, hm, he, hname⟩ := pairedName_of_parse (Or.inl rfl) hparse hn hdata
  exact ⟨doc, n, m, e, hparse, hn, hdata, hm, he, hname.imp_right And.right⟩

/-- **An end tag of another name ends a script**, for that name begins with the script's. -/
theorem not_pairedName_scripty : ∃ doc n m e,
    Document.parse Html.dialect "<script>a</scripty>b</script>" {} = .ok doc ∧ n ∈ doc.nodes ∧
      n.data = .endTag "scripty" (some 0) ∧ doc.nodes[0]? = some m ∧ m.data = .element e ∧
        Html.config.namesMatch e.name "scripty" = false := by
  have hfound : (Document.parse Html.dialect "<script>a</scripty>b</script>" {}).toOption.any
      (fun doc => (doc.nodes.toList.any fun n => n.data == .endTag "scripty" (some 0)) &&
        doc.nodes[0]?.any fun m => match m.data with
          | .element e => !Html.config.namesMatch e.name "scripty"
          | _ => false) = true := by
    decide +kernel
  obtain ⟨doc, hparse, hboth⟩ := exists_of_any hfound
  obtain ⟨hany, hother⟩ := Bool.and_eq_true_iff.1 hboth
  obtain ⟨n, hn, hdata⟩ := List.any_eq_true.1 hany
  obtain ⟨m, hm, htest⟩ := (Option.any_eq_true _ _).1 hother
  split at htest
  · next e he =>
    exact ⟨doc, n, m, e, hparse, Array.mem_toList_iff.1 hn, beq_iff_eq.1 hdata, hm, he,
      by simpa using htest⟩
  · exact absurd htest Bool.false_ne_true

/-! ## Refusals -/

/-- **A text is parsed or refused at a place of it**, whatever the text and the options are: a parse
that fails does so for the text's own fault and with a slice of it as token, the reader of either
dialect points at ranges only, and all that is built of what it reads has ranges of the text, start
tags that are split or refused, and nodes that stay where they are built. -/
theorem located_of_parse (hd : d = Html.dialect ∨ d = Svelte.dialect) (text : String)
    (o : Options) :
    let source := Source.ofString text o.base
    (∀ e, Document.parse d text o = .error e → e.Located source) ∧
      (∀ r, d.read source o = .error r → r.PointsInto source.text) ∧
      ∀ reading, d.read source o = .ok reading →
        (∀ b ∈ reading.roots, b.Sound d source ∧ b.Stays d source) ∧
          Blueprint.Settled d source reading.roots := by
  intro source
  have hsound : ∀ reading, d.read source o = .ok reading →
      ∀ b ∈ reading.roots, b.Sound d source := by
    rcases hd with rfl | rfl
    · exact fun _ hread => Html.sound_of_read hread
    · exact fun _ hread => Svelte.sound_of_read o hread
  have hplace : ∀ reading, d.read source o = .ok reading → ∀ b ∈ reading.roots, b.InPlace := by
    intro reading hread
    rcases hd with rfl | rfl
    · exact (Html.covers_of_read hread).inPlace
    · exact (Svelte.covers_of_read o hread).inPlace
  refine ⟨fun e he => (Document.decides_of_sound hsound).located he, fun r hr => ?_,
    fun reading hread => ⟨fun b hb => ?_, ?_⟩⟩
  · rcases hd with rfl | rfl
    · exact Html.pointsInto_of_read hr
    · exact Svelte.pointsInto_of_read o hr
  · exact ⟨hsound reading hread b hb, (hplace reading hread b hb).stays⟩
  · exact Blueprint.settled_of_inPlace (hplace reading hread)

/-- The error of a text that is refused. -/
theorem exists_error_of_not_isOk (d : Dialect) (text : String)
    (h : (Document.parse d text {}).isOk = false) : ∃ e, Document.parse d text {} = .error e := by
  cases hparse : Document.parse d text {} with
  | ok doc =>
    rw [hparse] at h
    cases h
  | error e => exact ⟨e, rfl⟩

/-- A value that is left open behind characters of two bytes, and a block that is. -/
theorem located_leftOpen :
    (∃ e, Document.parse Html.dialect "é<p ü='" {} = .error e ∧
      e.Located (Source.ofString "é<p ü='")) ∧
    (∃ e, Document.parse Svelte.dialect "é\x7b#if ü\x7d</p>" {} = .error e ∧
      e.Located (Source.ofString "é\x7b#if ü\x7d</p>")) ∧
    ∃ reading, Svelte.dialect.read (Source.ofString Svelte.mixedTemplate) {} = .ok reading ∧
      ∀ b ∈ reading.roots, b.Sound Svelte.dialect (Source.ofString Svelte.mixedTemplate) := by
  have hread : (Svelte.dialect.read (Source.ofString Svelte.mixedTemplate) {}).isOk = true := by
    decide +kernel
  obtain ⟨e, he⟩ := exists_error_of_not_isOk Html.dialect "é<p ü='" (by decide +kernel)
  obtain ⟨e', he'⟩ :=
    exists_error_of_not_isOk Svelte.dialect "é\x7b#if ü\x7d</p>" (by decide +kernel)
  obtain ⟨reading, hreading⟩ := Except.exists_of_isOk hread
  exact ⟨⟨e, he, (located_of_parse (Or.inl rfl) _ {}).1 e he⟩,
    ⟨e', he', (located_of_parse (Or.inr rfl) _ {}).1 e' he'⟩,
    reading, hreading, fun b hb => (((located_of_parse (Or.inr rfl) _ {}).2.2 _ hreading).1 b hb).1⟩

end Markup
