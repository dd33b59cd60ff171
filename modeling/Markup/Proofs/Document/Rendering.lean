import Markup.Proofs.Attribute.Locate
import Markup.Proofs.Blueprint.Buildable
import Markup.Proofs.Html.Dialect
import Markup.Proofs.Html.PageTree

/-!
# Proofs/Document/Rendering — a page that is written out is parsed back

`Page.Shown` says of a row of nodes that **it is a page**: one node for each part, in the order in
which the parts are written, with the links that the page's nesting asks for.  The trees of a page
can be built wherever its text stands (`Page.buildable`) and become a row that shows it
(`Page.shown_of_row`), so the document of a well-formed page is that page (`Page.exists_shown`).
-/

namespace Markup

/-- **An element is one node and the rows of its children and of what closes it.** -/
theorem Row.of_element {d : Dialect} {source : Source} {here : Position} {ns : Namespace}
    {start : Nat} {startTag : Span} {children : List Blueprint} {endTag : Option Span}
    {nodes : List Node} {tops : List NodeId}
    (h : Row d source here ns start [.element {} startTag children endTag] nodes tops) :
    ∃ token tag own inside link implied inner kids closers, source.slice startTag = .ok token ∧
      StartTag.read d.readAttribute source token = .ok tag ∧
      Closing d source here own start (start + 1 + inner.length) (endOf token inner) tag endTag link
        implied closers ∧
      Row d source (here.under start) inside (start + 1) children inner kids ∧
      nodes = here.node start token own (.element (d.elementOf tag kids link implied)) ::
        (inner ++ closers) ∧ tops = [start] := by
  cases h with
  | trunk grows content rest =>
    cases rest
    cases grows with
    | element slice read closing =>
      exact ⟨_, _, _, _, _, _, _, _, _, slice, read, closing, content, by rw [List.append_nil], rfl⟩

namespace Html

/-- **Where a node stands, and how it is written.** -/
structure Stands (n : Node) (here : Position) (id : NodeId) (raw : List Char) : Prop where
  id_eq : n.id = id
  parent_eq : n.parent = here.parent
  depth_eq : n.depth = here.depth
  raw_eq : n.token.raw.toList = raw

/-- A node at the top that closes nothing is the first root. -/
theorem Stands.map_id_filter {n : Node} {here : Position} {id : NodeId} {raw : List Char}
    (h : Stands n here id raw) (hhere : here.parent = none)
    (hkind : n.kind ≠ .endTag ∧ n.kind ≠ .ghost) (nodes : List Node) :
    ((n :: nodes).filter fun n =>
        n.parent.isNone && n.kind != .endTag && n.kind != .ghost).map Node.id =
      id :: (nodes.filter fun n =>
        n.parent.isNone && n.kind != .endTag && n.kind != .ghost).map Node.id := by
  rw [List.filter_cons_of_pos (by simp [h.parent_eq, hhere, hkind]), List.map_cons, h.id_eq]

/-- **An element as a page has it**, with the nodes that are its children and its end tag. -/
structure IsElement (e : Element) (name : List Char) (attributes : List Pair)
    (children : List NodeId) (endTag : Option NodeId) : Prop where
  name_eq : e.name = String.ofList name
  attributes_eq : e.attributes.map pair? = attributes.map some
  children_eq : e.children = children
  endTag_eq : e.endTag = endTag
  isImpliedClose_eq : e.isImpliedClose = false

/-- **A row of nodes is a page**: its nodes have the places from `start` on, and `tops` are those
that stand at the position of the page itself. -/
inductive Page.Shown : Position → Nat → Page → List Node → List NodeId → Prop
  | blank {here : Position} {start : Nat} : Shown here start blank [] []
  | text {here : Position} {start : Nat} {raw : List Char} {rest : Page} {n : Node}
      {nodes : List Node} {tops : List NodeId} (stands : Stands n here start raw)
      (data : n.data = .text) (beside : Shown here (start + 1) rest nodes tops) :
      Shown here start (text raw rest) (n :: nodes) (start :: tops)
  | comment {here : Position} {start : Nat} {body : List Char} {rest : Page} {n : Node}
      {nodes : List Node} {tops : List NodeId} (stands : Stands n here start (writeComment body))
      (data : n.data = .comment false) (beside : Shown here (start + 1) rest nodes tops) :
      Shown here start (comment body rest) (n :: nodes) (start :: tops)
  | void {here : Position} {start : Nat} {name : List Char} {attributes : List Pair} {rest : Page}
      {n : Node} {e : Element} {nodes : List Node} {tops : List NodeId}
      (stands : Stands n here start (startTag name attributes)) (data : n.data = .element e)
      (own : IsElement e name attributes [] none)
      (beside : Shown here (start + 1) rest nodes tops) :
      Shown here start (void name attributes rest) (n :: nodes) (start :: tops)
  | element {here : Position} {start : Nat} {name : List Char} {attributes : List Pair}
      {children rest : Page} {n closer : Node} {e : Element} {inner nodes : List Node}
      {kids tops : List NodeId}
      (stands : Stands n here start (startTag name attributes)) (data : n.data = .element e)
      (own : IsElement e name attributes kids (some closer.id))
      (content : Shown (here.under start) (start + 1) children inner kids)
      (closes : Stands closer here (start + 1 + inner.length) (endTag name))
      (pair : closer.data = .endTag (String.ofList name) (some start))
      (beside : Shown here (start + 1 + inner.length + 1) rest nodes tops) :
      Shown here start (element name attributes children rest) (n :: (inner ++ closer :: nodes))
        (start :: tops)

namespace Page

variable {page : Page} {here : Position} {start : Nat} {nodes : List Node} {tops : List NodeId}

/-! ## What a shown page says of its nodes -/

/-- **No element of a page is closed by anything but its end tag**, and no end tag is a stray. -/
theorem Shown.paired (h : page.Shown here start nodes tops) : ∀ n ∈ nodes,
    n.isGhost = false ∧ ∀ name pair, n.data = .endTag name pair → pair.isSome = true := by
  have hdata : ∀ {n : Node} {data : NodeData}, n.data = data →
      (∀ name, data ≠ .ghost name) → (∀ name, data ≠ .endTag name none) →
        n.isGhost = false ∧ ∀ name pair, n.data = .endTag name pair → pair.isSome = true := by
    rintro n _ rfl hghost hstray
    refine ⟨?_, fun name pair hpair => ?_⟩
    · rw [Node.isGhost, Node.kind]
      split <;> first | rfl | exact absurd ‹_› (hghost _)
    · cases pair with
      | none => exact absurd hpair (hstray name)
      | some id => rfl
  induction h with
  | blank => exact List.forall_mem_nil _
  | text _ data _ ih => exact List.forall_mem_cons.2 ⟨hdata data (by simp) (by simp), ih⟩
  | comment _ data _ ih => exact List.forall_mem_cons.2 ⟨hdata data (by simp) (by simp), ih⟩
  | void _ data _ _ ih => exact List.forall_mem_cons.2 ⟨hdata data (by simp) (by simp), ih⟩
  | element _ data _ _ _ pair _ ihContent ih =>
    refine List.forall_mem_cons.2 ⟨hdata data (by simp) (by simp), List.forall_mem_append.2
      ⟨ihContent, List.forall_mem_cons.2 ⟨hdata pair (by simp) (by simp), ih⟩⟩⟩

/-- What is inside a node has a parent… -/
theorem Shown.parent_isSome (h : page.Shown here start nodes tops)
    (hparent : here.parent.isSome = true) : ∀ n ∈ nodes, n.parent.isSome = true := by
  induction h with
  | blank => exact List.forall_mem_nil _
  | text stands _ _ ih => exact List.forall_mem_cons.2 ⟨stands.parent_eq ▸ hparent, ih hparent⟩
  | comment stands _ _ ih => exact List.forall_mem_cons.2 ⟨stands.parent_eq ▸ hparent, ih hparent⟩
  | void stands _ _ _ ih => exact List.forall_mem_cons.2 ⟨stands.parent_eq ▸ hparent, ih hparent⟩
  | element stands _ _ _ closes _ _ ihContent ih =>
    exact List.forall_mem_cons.2 ⟨stands.parent_eq ▸ hparent, List.forall_mem_append.2
      ⟨ihContent rfl, List.forall_mem_cons.2 ⟨closes.parent_eq ▸ hparent, ih hparent⟩⟩⟩

/-- …so **the roots are the nodes at the top of the page**. -/
theorem Shown.map_id_roots {doc : Document} {depth : Nat}
    (h : page.Shown ⟨none, depth⟩ 0 doc.nodes.toList tops) : doc.roots.map Node.id = tops := by
  rw [Document.roots]
  have hhere : (⟨none, depth⟩ : Position).parent = none := rfl
  generalize (⟨none, depth⟩ : Position) = here, 0 = start, doc.nodes.toList = nodes at h hhere
  induction h with
  | blank => rfl
  | text stands data _ ih =>
    rw [stands.map_id_filter hhere (by simp [Node.kind, data]), ih hhere]
  | comment stands data _ ih =>
    rw [stands.map_id_filter hhere (by simp [Node.kind, data]), ih hhere]
  | void stands data _ _ ih =>
    rw [stands.map_id_filter hhere (by simp [Node.kind, data]), ih hhere]
  | element stands data _ content _ pair _ _ ih =>
    have hinner := content.parent_isSome rfl
    rw [stands.map_id_filter hhere (by simp [Node.kind, data]), List.filter_append,
      List.filter_eq_nil_iff.2 fun n hn => by simp [Option.isSome_iff_ne_none.1 (hinner n hn)],
      List.nil_append, List.filter_cons_of_neg (by simp [Node.kind, pair]), ih hhere]

end Page

/-! ## The trees of a page -/

variable {source : Source} {offset stop : Nat} {more : List Char}

/-- **A text that has a token of its own** at an offset. -/
structure TextAt (source : Source) (offset : Nat) (raw : List Char) (token : Token) : Prop where
  slice : source.slice ⟨offset, offset + Text.byteSize raw⟩ = .ok token
  raw_eq : token.raw.toList = raw

/-- **A start tag that is read back** at an offset. -/
structure TagAt (source : Source) (offset : Nat) (name : List Char) (attributes : List Pair)
    (token : Token) (tag : StartTag) : Prop extends
    TextAt source offset (startTag name attributes) token where
  read : StartTag.read dialect.readAttribute source token = .ok tag
  name_eq : tag.name = String.ofList name
  attributes_eq : tag.attributes.map pair? = attributes.map some

/-- **The parts of a page have tokens** where it is written, from an offset on. -/
inductive Page.Located (source : Source) : Nat → Page → Prop
  | blank {offset : Nat} : Located source offset blank
  | text {offset : Nat} {raw : List Char} {rest : Page} {token : Token}
      (own : TextAt source offset raw token)
      (beside : Located source (offset + Text.byteSize raw) rest) :
      Located source offset (text raw rest)
  | comment {offset : Nat} {body : List Char} {rest : Page} {token : Token}
      (own : TextAt source offset (writeComment body) token)
      (beside : Located source (offset + Text.byteSize (writeComment body)) rest) :
      Located source offset (comment body rest)
  | void {offset : Nat} {name : List Char} {attributes : List Pair} {rest : Page} {token : Token}
      {tag : StartTag} (own : TagAt source offset name attributes token tag)
      (isVoid : dialect.isVoid tag.name = true)
      (beside : Located source (offset + Text.byteSize (startTag name attributes)) rest) :
      Located source offset (void name attributes rest)
  | element {offset inside content : Nat} {name : List Char} {attributes : List Pair}
      {children rest : Page} {token whole closer : Token} {tag : StartTag}
      (own : TagAt source offset name attributes token tag)
      (inside_eq : inside = offset + Text.byteSize (startTag name attributes))
      (within : Located source inside children)
      (content_eq : content = inside + Text.byteSize children.render)
      (closes : TextAt source content (endTag name) closer)
      (closer_name : endTagName closer.raw.toList = name)
      (covers : source.slice ⟨offset, content + Text.byteSize (endTag name)⟩ = .ok whole)
      (beside : Located source (content + Text.byteSize (endTag name)) rest) :
      Located source offset (element name attributes children rest)

theorem exists_textAt {raw : List Char}
    (h : Text.slice? offset stop source.text = some (raw ++ more)) :
    ∃ token, TextAt source offset raw token ∧
      Text.slice? (offset + Text.byteSize raw) stop source.text = some more := by
  obtain ⟨token, hslice, hraw, hmore⟩ := Source.exists_slice_of_append h
  exact ⟨token, ⟨hslice, hraw⟩, hmore⟩

theorem exists_tagAt {name : List Char} {attributes : List Pair} (hname : IsTagName name)
    (has : ∀ a ∈ attributes, IsPair a)
    (h : Text.slice? offset stop source.text = some (startTag name attributes ++ more)) :
    ∃ token tag, TagAt source offset name attributes token tag ∧
      Text.slice? (offset + Text.byteSize (startTag name attributes)) stop source.text =
        some more := by
  obtain ⟨token, htoken, hmore⟩ := exists_textAt h
  obtain ⟨tag, hread, htag, -, hpairs⟩ := exists_read_startTag hname has htoken.slice htoken.raw_eq
  exact ⟨token, tag, ⟨htoken, hread, htag, hpairs⟩, hmore⟩

/-- A written end tag has its name. -/
theorem endTagName_endTag {name : List Char} (hname : IsTagName name) :
    endTagName (endTag name) = name := by
  have hword : ∀ c ∈ name, (!Text.isNameEnd c) = true := by simpa using hname.word
  change (name ++ ['>']).takeWhile (fun c => !Text.isNameEnd c) = name
  rw [List.takeWhile_append_of_pos hword]
  exact List.append_nil name

namespace Page

variable {page : Page} {here : Position} {start : Nat} {nodes : List Node} {tops : List NodeId}

/-- **The parts of a page that a source holds are found in it.** -/
theorem located (h : page.WellFormed)
    (hslice : Text.slice? offset stop source.text = some (page.render ++ more)) :
    page.Located source offset := by
  induction page generalizing offset stop more with
  | blank => exact .blank
  | text raw rest ih =>
    rw [render, List.append_assoc] at hslice
    obtain ⟨token, htoken, hrest⟩ := exists_textAt hslice
    exact .text htoken (ih h.2.2.2 hrest)
  | comment body rest ih =>
    rw [render, List.append_assoc] at hslice
    obtain ⟨token, htoken, hrest⟩ := exists_textAt hslice
    exact .comment htoken (ih h.2 hrest)
  | void name attributes rest ih =>
    obtain ⟨⟨hname, hvoid⟩, has, hwell⟩ := h
    rw [render, List.append_assoc] at hslice
    obtain ⟨token, tag, htag, hrest⟩ := exists_tagAt hname has hslice
    exact .void htag (htag.name_eq ▸ hvoid) (ih hwell hrest)
  | element name attributes children rest ihChildren ih =>
    obtain ⟨⟨hname, -⟩, has, -, hchildren, hwell⟩ := h
    rw [render, List.append_assoc] at hslice
    obtain ⟨whole, hwhole, -⟩ := exists_textAt hslice
    have hcovers := hwhole.slice
    rw [Text.byteSize_append, Text.byteSize_append, ← Nat.add_assoc, ← Nat.add_assoc] at hcovers
    rw [List.append_assoc, List.append_assoc] at hslice
    obtain ⟨token, tag, htag, hinside⟩ := exists_tagAt hname has hslice
    obtain ⟨closer, hcloser, hrest⟩ := exists_textAt (Text.slice?_of_append_right hinside)
    have hclosed : endTagName closer.raw.toList = name := by
      rw [hcloser.raw_eq, endTagName_endTag hname]
    exact .element htag rfl (ihChildren hchildren hinside) rfl hcloser hclosed hcovers
      (ih hwell hrest)

/-- **Trees whose parts are found can be built…** -/
theorem Located.buildable (h : page.Located source offset) :
    ∀ b ∈ Tree.blueprints source (page.trees offset), b.Buildable dialect source := by
  induction h with
  | blank => exact List.forall_mem_nil _
  | text own _ ih => exact List.forall_mem_cons.2 ⟨.leaf own.slice, ih⟩
  | comment own _ ih => exact List.forall_mem_cons.2 ⟨.leaf own.slice, ih⟩
  | void own _ _ ih =>
    refine List.forall_mem_cons.2 ⟨?_, ih⟩
    refine .group (fun _ hspan => ⟨_, Option.some.inj hspan ▸ own.slice⟩) ?_
    exact List.forall_mem_singleton.2 (.element own.slice own.read (List.forall_mem_nil _) nofun)
  | element own inside_eq _ content_eq closes _ covers _ ihWithin ih =>
    subst inside_eq content_eq
    refine List.forall_mem_cons.2 ⟨?_, ih⟩
    refine .group (fun _ hspan => ⟨_, Option.some.inj hspan ▸ covers⟩) ?_
    exact List.forall_mem_singleton.2 (.element own.slice own.read ihWithin
      fun _ hspan => ⟨_, Option.some.inj hspan ▸ closes.slice⟩)

/-- …and **become a row that shows the page**. -/
theorem Located.shown (h : page.Located source offset) {ns : Namespace}
    (hrow : Row dialect source here ns start (Tree.blueprints source (page.trees offset)) nodes
      tops) : page.Shown here start nodes tops := by
  induction h generalizing here start ns nodes tops with
  | blank =>
    cases hrow with
    | nil => exact .blank
  | text own _ ih =>
    obtain ⟨_, _, others, otherTops, hfirst, hothers, rfl, rfl⟩ := hrow.exists_of_cons
    obtain ⟨token, htoken, rfl, rfl⟩ := hfirst.of_leaf
    obtain rfl := Except.ok.inj (own.slice.symm.trans htoken)
    exact .text ⟨rfl, rfl, rfl, own.raw_eq⟩ rfl (ih hothers)
  | comment own _ ih =>
    obtain ⟨_, _, others, otherTops, hfirst, hothers, rfl, rfl⟩ := hrow.exists_of_cons
    obtain ⟨token, htoken, rfl, rfl⟩ := hfirst.of_leaf
    obtain rfl := Except.ok.inj (own.slice.symm.trans htoken)
    exact .comment ⟨rfl, rfl, rfl, own.raw_eq⟩ rfl (ih hothers)
  | void own isVoid _ ih =>
    obtain ⟨_, _, others, otherTops, hfirst, hothers, rfl, rfl⟩ := hrow.exists_of_cons
    obtain ⟨token, tag, ns, inside, link, implied, inner, kids, closers, htoken, hread, hclosing,
      hcontent, rfl, rfl⟩ := hfirst.of_group.of_element
    obtain rfl := Except.ok.inj (own.slice.symm.trans htoken)
    obtain rfl := Except.ok.inj (own.read.symm.trans hread)
    cases hcontent
    cases hclosing with
    | nothing =>
      exact .void ⟨rfl, rfl, rfl, own.raw_eq⟩ rfl ⟨own.name_eq, own.attributes_eq, rfl, rfl, rfl⟩
        (ih hothers)
    | ghost himplied =>
      rw [Dialect.impliesClose, isVoid, Bool.not_true, Bool.and_false] at himplied
      exact absurd himplied Bool.false_ne_true
  | @element _ _ _ name _ _ _ _ _ closer _ own inside_eq _ content_eq closes closer_name _ _
      ihWithin ih =>
    subst inside_eq content_eq
    obtain ⟨_, _, others, otherTops, hfirst, hothers, rfl, rfl⟩ := hrow.exists_of_cons
    obtain ⟨token, tag, ns', inside, link, implied, inner, kids, closers, htoken, hread, hclosing,
      hcontent, rfl, rfl⟩ := hfirst.of_group.of_element
    obtain rfl := Except.ok.inj (own.slice.symm.trans htoken)
    obtain rfl := Except.ok.inj (own.read.symm.trans hread)
    cases hclosing with
    | endTag hcloser =>
      obtain rfl := Except.ok.inj (closes.slice.symm.trans hcloser)
      have hplace : ∀ n m : Node, start + (n :: (inner ++ [m])).length =
          start + 1 + inner.length + 1 := fun n m => by
        rw [List.length_cons, List.length_append, List.length_singleton]
        omega
      rw [hplace] at hothers
      rw [List.cons_append, List.append_assoc]
      exact .element ⟨rfl, rfl, rfl, own.raw_eq⟩ rfl
        ⟨own.name_eq, own.attributes_eq, rfl, rfl, rfl⟩ (ihWithin hcontent)
        ⟨rfl, rfl, rfl, closes.raw_eq⟩ (by rw [← closer_name]; rfl) (ih hothers)

end Page

/-- **A well-formed page that is written out is parsed back**: its document is the page, part by
part, each normal element closed by its own end tag, and has neither ghosts nor stray end tags. -/
theorem parse_render (page : Page) (h : page.WellFormed) :
    ∃ doc, Document.parse dialect (String.ofList page.render) {} = .ok doc ∧
      page.Shown ⟨none, 0⟩ 0 doc.nodes.toList (doc.roots.map Node.id) ∧
      ∀ n ∈ doc.nodes, n.isGhost = false ∧
        ∀ name pair, n.data = .endTag name pair → pair.isSome = true := by
  let source := Source.ofString (String.ofList page.render) ({} : Options).base
  have htext : source.text = page.render := String.toList_ofList
  have htrees : Tree.ofText config false source.text = .ok (page.trees 0) :=
    htext ▸ Page.ofText_render h
  have hlocated : page.Located source 0 := by
    have hslice : Text.slice? 0 (Text.byteSize page.render) source.text =
        some (page.render ++ []) := by
      rw [htext, List.append_nil, Text.slice?_whole]
    exact Page.located h hslice
  have hread : ∃ isFragment, dialect.read source {} =
      .ok ⟨Tree.blueprints source (page.trees 0), isFragment⟩ :=
    ⟨_, Except.bind_eq_ok.2 ⟨_, htrees, rfl⟩⟩
  obtain ⟨isFragment, hread⟩ := hread
  obtain ⟨doc, hparse⟩ := Document.exists_of_buildable hread hlocated.buildable
  obtain ⟨reading, tops, hreading, hrow⟩ :=
    Document.row_of_parse (fun reading hread => (covers_of_read hread).inPlace) hparse
  obtain rfl := Except.ok.inj (hread.symm.trans hreading)
  have hshown := hlocated.shown hrow
  refine ⟨doc, hparse, ?_, fun n hn => hshown.paired n (Array.mem_toList_iff.2 hn)⟩
  rw [hshown.map_id_roots]
  exact hshown

/-- A page with a bracket in a value, hyphens in a comment and an element in one of its kind. -/
def nestedPage : Page :=
  .text "a ".toList <|
  .element "DIV".toList [("data-x".toList, "b > 'c'".toList)]
    (.comment " - -- ".toList <|
      .element "div".toList [] (.void "br".toList [("id".toList, [])] .blank) <|
      .text "d".toList .blank) <|
  .element "x-y".toList [] .blank .blank

theorem parse_render_nestedPage : nestedPage.WellFormed ∧ ∃ doc,
    Document.parse dialect (String.ofList nestedPage.render) {} = .ok doc ∧
      nestedPage.Shown ⟨none, 0⟩ 0 doc.nodes.toList (doc.roots.map Node.id) ∧
      ∀ n ∈ doc.nodes, n.isGhost = false ∧
        ∀ name pair, n.data = .endTag name pair → pair.isSome = true :=
  have hwell : nestedPage.WellFormed := by decide +kernel
  ⟨hwell, parse_render nestedPage hwell⟩

end Html

end Markup
