import Markup.Proofs.Blueprint.Branches
import Markup.Proofs.Document.Rendering
import Markup.Proofs.Html.Beginning
import Markup.Proofs.Html.Dialect
import Markup.Proofs.Html.Refusal
import Markup.Proofs.Html.Rereading

/-!
# Proofs/Html/Leading — the nodes that a document begins with

A document is the row of the trees of its lexemes, so **its first node shows the first lexeme**
(`Lexeme.ShownBy`): a mark is one node, and the row of what follows goes on from the next place
(`exists_row_of_mark`); of any other lexeme the first node is its tag (`exists_first_of_row`).  So
a document begins with its front matter, if there is any, and then with what its text does
(`leadsWith_of_parse`).
-/

namespace Markup.Html

variable {source : Source} {here : Position} {ns : Namespace} {start shift : Nat}
  {nodes : List Node} {tops : List NodeId} {more : List Char}

/-- **What a mark is in a document.** -/
def Mark.data (raw : List Char) : Mark → NodeData
  | .text => .text
  | .comment => .comment false
  | .bogus => .comment true
  | .doctype => .doctype (doctypeOf raw)
  | .frontMatter => .block "#front-matter" []
  | .cdata => .block "#expression" []

/-- The text of the first node of a lexeme. -/
def Lexeme.head : Lexeme → List Char
  | .mark _ raw | .closedTag _ raw | .openTag _ raw | .endTag _ raw => raw
  | .rawElement _ startTag _ _ => startTag

/-- What a lexeme is in a document. -/
def Lexeme.Is (data : NodeData) : Lexeme → Prop
  | .mark kind raw => data = kind.data raw
  | .endTag _ raw => data = .endTag (String.ofList (endTagName raw)) none
  | .closedTag name _ | .openTag name _ | .rawElement name _ _ _ =>
    ∃ e, data = .element e ∧ e.name = name

/-- **A node shows a lexeme** that stands at an offset of the source. -/
structure Lexeme.ShownBy (source : Source) (offset : Nat) (lexeme : Lexeme) (n : Node) : Prop where
  slice : source.slice ⟨offset, offset + Text.byteSize lexeme.head⟩ = .ok n.token
  raw_eq : n.token.raw.toList = lexeme.head
  data : lexeme.Is n.data

/-- At the beginning of the source a node stands where that does. -/
theorem Lexeme.ShownBy.startOffset {lexeme : Lexeme} {n : Node} (h : lexeme.ShownBy source 0 n) :
    n.token.startOffset = source.base.offset :=
  (Source.startOffset_of_slice h.slice).trans (Nat.zero_add _)

theorem Lexeme.ShownBy.endOffset {lexeme : Lexeme} {n : Node} (h : lexeme.ShownBy source 0 n) :
    n.token.endOffset = source.base.offset + Text.byteSize lexeme.head := by
  rw [Source.endOffset_of_slice h.slice, Nat.zero_add, Nat.add_comm]

/-- The text of the first node is what the lexeme begins with. -/
theorem Lexeme.exists_text (lexeme : Lexeme) : ∃ inner, lexeme.text = lexeme.head ++ inner := by
  cases lexeme with
  | mark | closedTag | openTag | endTag => exact ⟨[], (List.append_nil _).symm⟩
  | rawElement => exact ⟨_, List.append_assoc _ _ _⟩

/-- The text at an offset is the text of its token. -/
theorem raw_of_slice {raw : List Char} {token : Token}
    (hdrop : Text.dropBytes? shift source.text = some (raw ++ more))
    (hslice : source.slice ⟨shift, shift + Text.byteSize raw⟩ = .ok token) :
    token.raw.toList = raw :=
  Option.some.inj ((Source.slice?_of_slice hslice).symm.trans (Text.slice?_of_dropBytes? hdrop))

/-- A mark at the beginning of a row is one node. -/
theorem exists_of_leafBlueprint {kind : Mark} {raw : List Char}
    (hdrop : Text.dropBytes? shift source.text = some (raw ++ more))
    (hrow : Row dialect source here ns start
      [leafBlueprint source kind ⟨shift, shift + Text.byteSize raw⟩] nodes tops) :
    ∃ n, nodes = [n] ∧ (Lexeme.mark kind raw).ShownBy source shift n := by
  have hshown : ∀ {n : Node},
      source.slice ⟨shift, shift + Text.byteSize raw⟩ = .ok n.token → n.data = kind.data raw →
        (Lexeme.mark kind raw).ShownBy source shift n :=
    fun hslice hdata => ⟨hslice, raw_of_slice hdrop hslice, hdata⟩
  cases kind with
  | text | comment | bogus =>
    obtain ⟨token, hslice, rfl, -⟩ := hrow.of_leaf
    exact ⟨_, rfl, hshown hslice rfl⟩
  | doctype =>
    obtain ⟨token, hslice, rfl, -⟩ := hrow.of_leaf
    refine ⟨_, rfl, hshown hslice ?_⟩
    have hraw := Text.slice?_of_dropBytes? hdrop
    simp only [hraw, Option.getD_some]
    rfl
  | frontMatter | cdata =>
    obtain ⟨token, inner, kids, hslice, hinner, rfl, -⟩ := hrow.of_block
    cases hinner
    exact ⟨_, rfl, hshown hslice rfl⟩

/-- **A mark is one node**, and what follows it is the row from the next place on. -/
theorem exists_of_mark {kind : Mark} {raw : List Char} {others : List Tree}
    (hdrop : Text.dropBytes? shift source.text = some (raw ++ more))
    (hrow : Row dialect source here ns start (Tree.blueprints source
      (.leaf kind ⟨shift, shift + Text.byteSize raw⟩ :: others)) nodes tops) :
    ∃ n rest restTops, nodes = n :: rest ∧ (Lexeme.mark kind raw).ShownBy source shift n ∧
      Row dialect source here ns (start + 1) (Tree.blueprints source others) rest restTops := by
  obtain ⟨first, firstTops, rest, restTops, hfirst, hrest, rfl, -⟩ := hrow.exists_of_cons
  obtain ⟨n, rfl, hshown⟩ := exists_of_leafBlueprint hdrop hfirst
  exact ⟨n, rest, restTops, rfl, hshown, hrest⟩

/-- The first node of an element is its start tag. -/
theorem exists_of_startTag {name : String} {raw : List Char} {t : Tree} {others : List Tree}
    (htag : t.startTag? = some (name, ⟨shift, shift + Text.byteSize raw⟩))
    (hstart : IsStartTag raw name)
    (hdrop : Text.dropBytes? shift source.text = some (raw ++ more))
    (hrow : Row dialect source here ns start (Tree.blueprints source (t :: others)) nodes tops) :
    ∃ n rest e, nodes = n :: rest ∧
      source.slice ⟨shift, shift + Text.byteSize raw⟩ = .ok n.token ∧ n.data = .element e ∧
        e.name = name := by
  obtain ⟨first, firstTops, rest, restTops, hfirst, -, rfl, -⟩ := hrow.exists_of_cons
  cases t with
  | leaf | stray => cases htag
  | element name' span startTagEnd endTag children =>
    obtain ⟨rfl, hspan⟩ := Prod.mk.inj (Option.some.inj htag)
    obtain ⟨token, tag, own, inside, link, implied, inner, kids, closers, hslice, hread, -, -, rfl,
      -⟩ := Row.of_element hfirst.of_group
    rw [hspan] at hslice
    have hraw : IsStartTag token.raw.toList name' := raw_of_slice hdrop hslice ▸ hstart
    exact ⟨_, _, _, List.cons_append, hslice, rfl, hraw.name_of_read hread⟩

/-- **The first node shows the first lexeme.** -/
theorem exists_shownBy {lexeme : Lexeme} {t : Tree} {others : List Tree} (hgrows : lexeme.Grows t)
    (hproper : lexeme.Proper)
    (hdrop : Text.dropBytes? shift source.text = some (lexeme.text ++ more))
    (hrow : Row dialect source here ns start
      (Tree.blueprints source ((t :: others).map (Tree.movedBy shift))) nodes tops) :
    ∃ n rest, nodes = n :: rest ∧ lexeme.ShownBy source shift n := by
  obtain ⟨inner, htext⟩ := lexeme.exists_text
  rw [htext, List.append_assoc] at hdrop
  have helement : ∀ {name : String} {raw : List Char},
      t.startTag? = some (name, ⟨0, Text.byteSize raw⟩) →
        (t.movedBy shift).startTag? = some (name, ⟨shift, shift + Text.byteSize raw⟩) := by
    intro name raw htag
    rw [Tree.startTag?_movedBy, htag, Option.map_some, Span.movedBy_of_zero]
  cases lexeme with
  | mark kind raw =>
    obtain rfl := hgrows
    rw [List.map_cons, Tree.movedBy, Span.movedBy_of_zero] at hrow
    obtain ⟨n, rest, -, rfl, hshown, -⟩ := exists_of_mark hdrop hrow
    exact ⟨n, rest, rfl, hshown⟩
  | endTag name raw =>
    obtain rfl := hgrows
    rw [List.map_cons, Tree.movedBy, Span.movedBy_of_zero] at hrow
    obtain ⟨first, firstTops, rest, restTops, hfirst, -, rfl, -⟩ := hrow.exists_of_cons
    obtain ⟨token, hslice, rfl, -⟩ := hfirst.of_leaf
    have hraw := raw_of_slice hdrop hslice
    exact ⟨_, _, rfl, hslice, hraw, congrArg (fun raw =>
      NodeData.endTag (String.ofList (endTagName raw)) none) hraw⟩
  | closedTag name raw =>
    obtain ⟨n, rest, e, rfl, hslice, hdata⟩ :=
      exists_of_startTag (helement hgrows) hproper hdrop hrow
    exact ⟨n, rest, rfl, hslice, raw_of_slice hdrop hslice, e, hdata⟩
  | openTag name raw =>
    obtain ⟨n, rest, e, rfl, hslice, hdata⟩ :=
      exists_of_startTag (helement hgrows) hproper.1 hdrop hrow
    exact ⟨n, rest, rfl, hslice, raw_of_slice hdrop hslice, e, hdata⟩
  | rawElement name startTag content closing =>
    obtain ⟨n, rest, e, rfl, hslice, hdata⟩ :=
      exists_of_startTag (helement hgrows) hproper.1 hdrop hrow
    exact ⟨n, rest, rfl, hslice, raw_of_slice hdrop hslice, e, hdata⟩

/-- **Behind a mark the row of what follows goes on.** -/
theorem exists_row_of_mark {kind : Mark} {raw : List Char} {ls : List Lexeme}
    (hdrop : Text.dropBytes? shift source.text = some (raw ++ more))
    (hrow : Row dialect source here ns start (Tree.blueprints source
      ((Tree.ofLexemes config (.mark kind raw :: ls)).map (Tree.movedBy shift))) nodes tops) :
    ∃ n rest restTops, nodes = n :: rest ∧ (Lexeme.mark kind raw).ShownBy source shift n ∧
      Row dialect source here ns (start + 1) (Tree.blueprints source
        ((Tree.ofLexemes config ls).map (Tree.movedBy (shift + Text.byteSize raw)))) rest
        restTops := by
  rw [Tree.ofLexemes_cons_mark, List.map_cons, Tree.map_movedBy_movedBy, Tree.movedBy,
    Span.movedBy_of_zero, Nat.add_comm (Text.byteSize raw)] at hrow
  exact exists_of_mark hdrop hrow

/-- **A row begins with the node of its first lexeme.** -/
theorem exists_first_of_row {cs behind : List Char} {lexeme : Lexeme} {ls : List Lexeme}
    (hnext : Lexeme.next config cs = .ok (lexeme, behind)) (hne : cs ≠ [])
    (hdrop : Text.dropBytes? shift source.text = some cs) (hls : lexemes config cs = .ok ls)
    (hrow : Row dialect source here ns start (Tree.blueprints source
      ((Tree.ofLexemes config ls).map (Tree.movedBy shift))) nodes tops) :
    ∃ n rest, nodes = n :: rest ∧ lexeme.ShownBy source shift n := by
  have hproper := Lexeme.proper_of_next hnext hne
  obtain ⟨c, cs, rfl⟩ := List.exists_cons_of_ne_nil hne
  obtain ⟨lexeme', _, others, hnext', -, rfl⟩ := lexemes_cons_eq_ok hls
  obtain ⟨rfl, rfl⟩ := Prod.mk.inj (Except.ok.inj (hnext.symm.trans hnext'))
  obtain ⟨t, trees, htrees, hgrows⟩ := Tree.exists_first config lexeme others
  rw [htrees] at hrow
  rw [← (Lexeme.append_of_next hnext).1] at hdrop
  exact exists_shownBy hgrows hproper hdrop hrow

/-! ## Documents -/

/-- The front matter that a text opens with, if it may, and what follows it. -/
def splitFront (withFrontMatter : Bool) (cs : List Char) : List Char × List Char :=
  (if withFrontMatter then frontMatter? cs else none).getD ([], cs)

theorem append_splitFront (withFrontMatter : Bool) (cs : List Char) :
    (splitFront withFrontMatter cs).1 ++ (splitFront withFrontMatter cs).2 = cs := by
  rw [splitFront]
  cases hsplit : (if withFrontMatter then frontMatter? cs else none) with
  | none => rfl
  | some parts =>
    split at hsplit
    · exact (append_of_frontMatter? hsplit).1
    · cases hsplit

variable {withFrontMatter : Bool} {cs front rest : List Char}

theorem splitFront_of_none (h : (if withFrontMatter then frontMatter? cs else none) = none) :
    splitFront withFrontMatter cs = ([], cs) := by
  rw [splitFront, h]
  rfl

theorem splitFront_of_some
    (h : (if withFrontMatter then frontMatter? cs else none) = some (front, rest)) :
    splitFront withFrontMatter cs = (front, rest) := by
  rw [splitFront, h]
  rfl

/-- What is read behind a mark at the beginning of a text. -/
def Tree.behindMark (kind : Mark) (raw : List Char) :
    Except Rejection (List Tree) → Except Rejection (List Tree)
  | .ok trees =>
    .ok (.leaf kind ⟨0, Text.byteSize raw⟩ :: trees.map (movedBy (Text.byteSize raw)))
  | .error r => .error { r with span := r.span.movedBy (Text.byteSize raw) }

/-- **Behind a mark a text is read as it would be on its own**, or refused as it would be. -/
theorem Tree.ofText_of_mark {config : Config} {kind : Mark} {raw : List Char}
    (h : documentLexemes config withFrontMatter (raw ++ rest) =
      (lexemes config rest).map (.mark kind raw :: ·)) :
    ofText config withFrontMatter (raw ++ rest) =
      behindMark kind raw (ofText config false rest) := by
  have halone : documentLexemes config false rest = lexemes config rest := rfl
  rw [ofText, ofText, h, halone]
  cases hls : lexemes config rest with
  | ok ls => exact congrArg Except.ok (ofLexemes_cons_mark kind raw ls)
  | error unread =>
    obtain ⟨⟨before, rfl⟩, -⟩ := endsInTag_of_lexemes hls
    have hwhole : Text.byteSize (raw ++ (before ++ unread)) =
        Text.byteSize (before ++ unread) + Text.byteSize raw := by
      rw [Text.byteSize_append, Nat.add_comm]
    have hle : Text.byteSize unread ≤ Text.byteSize (before ++ unread) := by
      rw [Text.byteSize_append]
      exact Nat.le_add_left _ _
    simp only [Except.map, behindMark, Span.movedBy, hwhole, Nat.sub_add_comm hle]

/-- The trees of a page that stands further on. -/
theorem Page.map_movedBy_trees (page : Page) (offset shift : Nat) :
    (page.trees offset).map (Tree.movedBy shift) = page.trees (offset + shift) := by
  have hright : ∀ a b : Nat, a + b + shift = a + shift + b := fun a b =>
    Nat.add_right_comm a b shift
  induction page generalizing offset with
  | blank => rfl
  | text raw rest ih | comment body rest ih | void name attributes rest ih =>
    simp [trees, ih, Tree.movedBy, Tree.allMovedBy, Span.movedBy, hright]
  | element name attributes children rest ihChildren ih =>
    simp [trees, ih, ihChildren, Tree.movedBy, Tree.allMovedBy_eq_map, Span.movedBy, hright]

/-- A mark can be built where its text stands. -/
theorem buildable_leafBlueprint {kind : Mark} {span : Span} {token : Token}
    (h : source.slice span = .ok token) :
    (leafBlueprint source kind span).Buildable dialect source := by
  cases kind with
  | text | comment | bogus | doctype => exact .leaf h
  | frontMatter | cdata => exact .block h (List.forall_mem_nil _)

/-- **A page is parsed behind a mark.** -/
theorem exists_parse_of_mark {kind : Mark} {raw : List Char} {page : Page} {options : Options}
    (hwell : page.WellFormed)
    (hread : Tree.ofText config options.ignoreFrontMatter (raw ++ page.render) =
      Tree.behindMark kind raw (Tree.ofText config false page.render)) :
    ∃ doc, Document.parse dialect (String.ofList (raw ++ page.render)) options = .ok doc := by
  let source := Source.ofString (String.ofList (raw ++ page.render)) options.base
  have htext : source.text = raw ++ page.render := String.toList_ofList
  have hslice : Text.slice? 0 (Text.byteSize (raw ++ page.render)) source.text =
      some (raw ++ page.render) := by
    rw [htext, Text.slice?_whole]
  obtain ⟨token, hraw, hpage⟩ := exists_textAt hslice
  rw [Page.ofText_render hwell, Tree.behindMark, Page.map_movedBy_trees, ← htext] at hread
  rw [← List.append_nil page.render] at hpage
  have hroots : ∃ isFragment, dialect.read source options = .ok ⟨Tree.blueprints source
      (.leaf kind ⟨0, Text.byteSize raw⟩ :: page.trees (0 + Text.byteSize raw)), isFragment⟩ :=
    ⟨_, Except.bind_eq_ok.2 ⟨_, hread, rfl⟩⟩
  obtain ⟨isFragment, hroots⟩ := hroots
  refine Document.exists_of_buildable hroots (List.forall_mem_cons.2 ⟨?_, ?_⟩)
  · exact buildable_leafBlueprint (Nat.zero_add (Text.byteSize raw) ▸ hraw.slice)
  · exact (Page.located hwell hpage).buildable

/-- What is read is never front matter. -/
theorem Lexeme.ne_frontMatter_of_next {config : Config} {cs rest raw : List Char} :
    next config cs ≠ .ok (.mark .frontMatter raw, rest) := by
  intro h
  have hbegins := begins_of_next h
  generalize hmark : Lexeme.mark .frontMatter raw = lexeme at hbegins
  cases hbegins with
  | mark opens =>
    cases hmark
    cases ending?_of_opening opens
  | startTag _ _ starts => exact (ofStartTag_ne starts).1 _ _ hmark.symm
  | endTag => cases hmark
  | text => cases hmark

/-- Where lexemes are read, there is no front matter. -/
theorem markupStart_of_lexemes {cs : List Char} {ls : List Lexeme}
    (h : lexemes config cs = .ok ls) : markupStart (Tree.ofLexemes config ls) = 0 := by
  cases ls with
  | nil => rfl
  | cons first others =>
    obtain ⟨t, more, htrees, hgrows⟩ := Tree.exists_first config first others
    rw [htrees]
    have hfirst : ∀ raw, first ≠ .mark .frontMatter raw := by
      rintro raw rfl
      cases cs with
      | nil => simp [lexemes] at h
      | cons c cs =>
        obtain ⟨_, _, _, hnext, -, heq⟩ := lexemes_cons_eq_ok h
        cases heq
        exact Lexeme.ne_frontMatter_of_next hnext
    cases first with
    | mark kind raw =>
      obtain rfl := hgrows
      cases kind with
      | frontMatter => exact absurd rfl (hfirst raw)
      | _ => rfl
    | endTag =>
      obtain rfl := hgrows
      rfl
    | closedTag | openTag | rawElement =>
      cases t with
      | leaf => cases hgrows
      | _ => rfl

/-- **A document begins as its text does**: with the front matter, if there is any, and then with
what its lexemes become, which stand behind that. -/
structure LeadsWith (source : Source) (front rest : List Char) (doc : Document) : Prop where
  exists_row : ∃ ls here start nodes tops, lexemes config rest = .ok ls ∧
    Row dialect source here .html start (Tree.blueprints source
      ((Tree.ofLexemes config ls).map (Tree.movedBy (Text.byteSize front)))) nodes tops ∧
    (front = [] ∧ doc.nodes.toList = nodes ∨ front ≠ [] ∧ ∃ n, doc.nodes.toList = n :: nodes ∧
      (Lexeme.mark .frontMatter front).ShownBy source 0 n)
  isFragment_eq : doc.isFragment = !isDocumentStart rest

/-- …where there is no front matter… -/
theorem LeadsWith.of_lexemes {doc : Document} {ls : List Lexeme}
    (hls : lexemes config source.text = .ok ls)
    (hrow : Row dialect source here .html start
      (Tree.blueprints source (Tree.ofLexemes config ls)) doc.nodes.toList tops)
    (hfragment : doc.isFragment = !isDocumentStart
      ((Text.dropBytes? (markupStart (Tree.ofLexemes config ls)) source.text).getD [])) :
    LeadsWith source [] source.text doc where
  exists_row := by
    refine ⟨ls, here, start, doc.nodes.toList, tops, hls, ?_, Or.inl ⟨rfl, rfl⟩⟩
    rwa [Text.byteSize_nil, Tree.map_movedBy_zero]
  isFragment_eq := by
    have hall : Text.dropBytes? 0 source.text = some source.text :=
      Text.dropBytes?_eq_some_iff.2 ⟨[], rfl, rfl⟩
    rw [hfragment, markupStart_of_lexemes hls, hall, Option.getD_some]

/-- …and behind it. -/
theorem LeadsWith.of_frontMatter {doc : Document} {ls : List Lexeme}
    (hls : lexemes config rest = .ok ls) (htext : source.text = front ++ rest) (hne : front ≠ [])
    (hrow : Row dialect source here .html start (Tree.blueprints source
      (Tree.ofLexemes config (.mark .frontMatter front :: ls))) doc.nodes.toList tops)
    (hfragment : doc.isFragment = !isDocumentStart ((Text.dropBytes?
      (markupStart (Tree.ofLexemes config (.mark .frontMatter front :: ls))) source.text).getD
        [])) :
    LeadsWith source front rest doc where
  exists_row := by
    have hall : Text.dropBytes? 0 source.text = some (front ++ rest) :=
      Text.dropBytes?_eq_some_iff.2 ⟨[], htext, rfl⟩
    rw [← Tree.map_movedBy_zero (Tree.ofLexemes config _)] at hrow
    obtain ⟨n, nodes, restTops, hnodes, hshown, hrest⟩ := exists_row_of_mark hall hrow
    rw [Nat.zero_add (Text.byteSize front)] at hrest
    exact ⟨ls, here, start + 1, nodes, restTops, hls, hrest, Or.inr ⟨hne, n, hnodes, hshown⟩⟩
  isFragment_eq := by
    have hdrop : Text.dropBytes? (Text.byteSize front) source.text = some rest :=
      Text.dropBytes?_eq_some_iff.2 ⟨front, htext, rfl⟩
    rw [hfragment, Tree.ofLexemes_cons_mark, markupStart, hdrop, Option.getD_some]

/-- **Every document does.** -/
theorem leadsWith_of_parse {text : String} {options : Options} {doc : Document}
    (h : Document.parse dialect text options = .ok doc) :
    LeadsWith (Source.ofString text options.base)
      (splitFront options.ignoreFrontMatter text.toList).1
      (splitFront options.ignoreFrontMatter text.toList).2 doc := by
  obtain ⟨reading, tops, hread, hrow⟩ :=
    Document.row_of_parse (fun reading hread => (covers_of_read hread).inPlace) h
  have hfragment := Document.isFragment_of_parse hread h
  obtain ⟨trees, htrees, hreading⟩ := Except.bind_eq_ok.1 hread
  cases hreading
  have htext : (Source.ofString text options.base).text = text.toList := rfl
  rw [Tree.ofText, htext] at htrees
  split at htrees
  · next ls hls =>
    cases htrees
    rw [documentLexemes] at hls
    cases hsplit : (if options.ignoreFrontMatter then frontMatter? text.toList else none) with
    | none =>
      simp only [hsplit] at hls
      rw [splitFront_of_none hsplit]
      exact .of_lexemes hls hrow hfragment
    | some parts =>
      obtain ⟨front, rest⟩ := parts
      simp only [hsplit] at hls
      obtain ⟨others, hothers, rfl⟩ := Except.map_eq_ok.1 hls
      have hfront : frontMatter? text.toList = some (front, rest) := by
        split at hsplit
        · exact hsplit
        · cases hsplit
      obtain ⟨happend, hne⟩ := append_of_frontMatter? hfront
      rw [splitFront_of_some hsplit]
      exact .of_frontMatter hothers happend.symm hne hrow hfragment
  · cases htrees

/-- **The first node behind the front matter shows the first lexeme there.** -/
theorem LeadsWith.exists_shownBy {front rest behind : List Char} {doc : Document} {lexeme : Lexeme}
    (h : LeadsWith source front rest doc) (htext : source.text = front ++ rest)
    (hne : rest ≠ []) (hnext : Lexeme.next config rest = .ok (lexeme, behind)) :
    ∃ n nodes, lexeme.ShownBy source (Text.byteSize front) n ∧
      (front = [] ∧ doc.nodes.toList = n :: nodes ∨
        front ≠ [] ∧ ∃ m, doc.nodes.toList = m :: n :: nodes ∧
          (Lexeme.mark .frontMatter front).ShownBy source 0 m) := by
  obtain ⟨ls, here, start, nodes, tops, hls, hrow, hnodes⟩ := h.exists_row
  have hdrop : Text.dropBytes? (Text.byteSize front) source.text = some rest :=
    Text.dropBytes?_eq_some_iff.2 ⟨front, htext, rfl⟩
  obtain ⟨n, nodes, rfl, hshown⟩ := exists_first_of_row hnext hne hdrop hls hrow
  exact ⟨n, nodes, hshown, hnodes⟩

end Markup.Html
