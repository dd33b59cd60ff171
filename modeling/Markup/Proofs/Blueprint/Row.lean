import Markup.Blueprint.Raise

/-!
# Proofs/Blueprint/Row — the nodes that blueprints become

`Row here ns start bs nodes tops` says without an arena what building does: blueprints that ask for
no other place, built at a position from place `start` on, become a **row of nodes** of which `tops`
stand at the position itself.  A node with children (`Trunk`) is followed by the row of its children
and by what closes it; nothing that comes later changes a node.
-/

namespace Markup

/-- **Blueprints that ask for no place of their own**, through and through. -/
inductive Blueprint.InPlace : Blueprint → Prop
  | leaf (span : Span) (kind : Leaf) : InPlace (.leaf {} span kind)
  | block (span : Span) (name : String) {children : List Blueprint}
      (inside : ∀ b ∈ children, InPlace b) : InPlace (.block {} span name children)
  | element (startTag : Span) (endTag : Option Span) {children : List Blueprint}
      (inside : ∀ b ∈ children, InPlace b) : InPlace (.element {} startTag children endTag)
  | group (span : Option Span) {items : List Blueprint} (inside : ∀ b ∈ items, InPlace b) :
      InPlace (.group {} span items)
  | fault (error : Error) : InPlace (.fault error)

/-- A node at a position. -/
def Position.node (here : Position) (id : NodeId) (token : Token) (ns : Namespace)
    (data : NodeData) : Node :=
  { id, token, depth := here.depth, parent := here.parent, ns, data }

/-- The position of the children of a node that stands at `here`. -/
def Position.under (here : Position) (id : NodeId) : Position := ⟨some id, here.depth + 1⟩

namespace Leaf

/-- The node of a leaf.  **A stray end tag has no parent**. -/
def node (here : Position) (ns : Namespace) (id : NodeId) (token : Token) : Leaf → Node
  | .text => here.node id token ns .text
  | .comment bogus => here.node id token ns (.comment bogus)
  | .doctype d => here.node id token .html (.doctype d)
  | .strayEndTag =>
    Position.node ⟨none, here.depth⟩ id token ns
      (.endTag (String.ofList (endTagName token.raw.toList)) none)

/-- …and stands nowhere in the tree. -/
def tops (id : NodeId) : Leaf → List NodeId
  | .strayEndTag => []
  | _ => [id]

end Leaf

/-- A start tag that is closed by what follows, if not by an end tag. -/
def Dialect.impliesClose (d : Dialect) (tag : StartTag) : Bool :=
  !tag.selfClosing && d.config.endTags == .omittable && !d.isVoid tag.name

/-- The element that a start tag opens, with its children and what closes it. -/
def Dialect.elementOf (d : Dialect) (tag : StartTag) (children : List NodeId)
    (endTag : Option NodeId) (isImpliedClose : Bool) : Element where
  name := tag.name
  type := d.elementType tag.name
  isCaseSensitive := d.config.caseSensitive
  attributes := tag.attributes
  selfClosing := tag.selfClosing
  children := children
  endTag := endTag
  isImpliedClose := isImpliedClose

/-- Where the last of a node and those inside it ends. -/
def endOf (token : Token) (inner : List Node) : Nat :=
  ((inner.getLast?.map Node.token).getD token).endOffset

/-- **What closes an element** that has the place `id`, if `next` is the place after its content,
which ends at `last`: the element's link to it, the element's mark and the nodes. -/
inductive Closing (d : Dialect) (source : Source) (here : Position) (ns : Namespace)
    (id next last : Nat) (tag : StartTag) :
    Option Span → Option NodeId → Bool → List Node → Prop
  | endTag {span : Span} {token : Token} (slice : source.slice span = .ok token) :
      Closing d source here ns id next last tag (some span) (some next) false
        [here.node next token ns
          (.endTag (String.ofList (endTagName token.raw.toList)) (some id))]
  | ghost (implied : d.impliesClose tag = true) :
      Closing d source here ns id next last tag none none true
        [here.node next (source.emptyToken (source.toLocal last)) ns (.ghost tag.name)]
  | nothing (unimplied : d.impliesClose tag = false) :
      Closing d source here ns id next last tag none none false []

/-- **A blueprint with children**, the namespace of these, its own node and what closes it, given
the nodes inside it and which of them are its children. -/
inductive Trunk (d : Dialect) (source : Source) (here : Position) (ns : Namespace) (id : Nat)
    (inner : List Node) (kids : List NodeId) :
    Blueprint → List Blueprint → Namespace → Node → List Node → Prop
  | block {span : Span} {token : Token} {name : String} {children : List Blueprint}
      (slice : source.slice span = .ok token) :
      Trunk d source here ns id inner kids (.block {} span name children) children ns
        (here.node id token ns (.block name kids)) []
  | element {startTag : Span} {token : Token} {tag : StartTag} {endTag : Option Span}
      {children : List Blueprint} {link : Option NodeId} {implied : Bool} {closers : List Node}
      (slice : source.slice startTag = .ok token)
      (read : StartTag.read d.readAttribute source token = .ok tag)
      (closing : Closing d source here (Namespace.ofElement tag.name ns) id
        (id + 1 + inner.length) (endOf token inner) tag endTag link implied closers) :
      Trunk d source here ns id inner kids (.element {} startTag children endTag) children
        (Namespace.forChildren tag.name (Namespace.ofElement tag.name ns))
        (here.node id token (Namespace.ofElement tag.name ns)
          (.element (d.elementOf tag kids link implied))) closers

/-- **The row of nodes that blueprints become** at a position, in a namespace, from place `start`
on, and those of the nodes that stand at the position. -/
inductive Row (d : Dialect) (source : Source) :
    Position → Namespace → Nat → List Blueprint → List Node → List NodeId → Prop
  | nil {here : Position} {ns : Namespace} {start : Nat} : Row d source here ns start [] [] []
  | leaf {here : Position} {ns : Namespace} {start : Nat} {span : Span} {token : Token}
      {kind : Leaf} {bs : List Blueprint} {nodes : List Node} {tops : List NodeId}
      (slice : source.slice span = .ok token)
      (rest : Row d source here ns (start + 1) bs nodes tops) :
      Row d source here ns start (.leaf {} span kind :: bs)
        (kind.node here ns start token :: nodes) (kind.tops start ++ tops)
  | trunk {here : Position} {ns inside : Namespace} {start : Nat} {b : Blueprint}
      {children bs : List Blueprint} {node : Node} {inner closers nodes : List Node}
      {kids tops : List NodeId}
      (grows : Trunk d source here ns start inner kids b children inside node closers)
      (content : Row d source (here.under start) inside (start + 1) children inner kids)
      (rest : Row d source here ns (start + 1 + inner.length + closers.length) bs nodes tops) :
      Row d source here ns start (b :: bs) (node :: (inner ++ closers ++ nodes)) (start :: tops)
  | group {here : Position} {ns : Namespace} {start : Nat} {span : Option Span}
      {items bs : List Blueprint} {nodes others : List Node} {tops more : List NodeId}
      (content : Row d source here ns start items nodes tops)
      (rest : Row d source here ns (start + nodes.length) bs others more) :
      Row d source here ns start (.group {} span items :: bs) (nodes ++ others) (tops ++ more)

namespace Row

variable {d : Dialect} {source : Source} {here : Position} {ns : Namespace} {start : Nat}
  {bs cs : List Blueprint} {nodes others : List Node} {tops more : List NodeId}

/-- **Rows that follow each other are one.** -/
theorem append (h : Row d source here ns start bs nodes tops)
    (h' : Row d source here ns (start + nodes.length) cs others more) :
    Row d source here ns start (bs ++ cs) (nodes ++ others) (tops ++ more) := by
  induction h with
  | nil => simpa using h'
  | leaf slice rest ih =>
    rw [List.append_assoc]
    refine Row.leaf slice (ih ?_)
    rwa [List.length_cons, Nat.add_comm _ 1, ← Nat.add_assoc] at h'
  | @trunk _ _ _ start _ _ _ node inner closers nodes _ _ grows content rest _ ih =>
    have hlength : start + (node :: (inner ++ closers ++ nodes)).length =
        start + 1 + inner.length + closers.length + nodes.length := by
      simp only [List.length_cons, List.length_append]
      omega
    rw [List.cons_append, List.cons_append, List.append_assoc (inner ++ closers)]
    exact Row.trunk grows content (ih (hlength ▸ h'))
  | @group _ _ start _ _ _ nodes others _ _ content rest _ ih =>
    rw [List.append_assoc, List.append_assoc]
    refine Row.group content (ih ?_)
    rwa [List.length_append, ← Nat.add_assoc] at h'

/-- …and a row is cut after its first part. -/
theorem exists_of_cons {b : Blueprint} (h : Row d source here ns start (b :: bs) nodes tops) :
    ∃ first firstTops rest restTops, Row d source here ns start [b] first firstTops ∧
      Row d source here ns (start + first.length) bs rest restTops ∧
      nodes = first ++ rest ∧ tops = firstTops ++ restTops := by
  cases h with
  | leaf slice rest => exact ⟨[_], _, _, _, Row.leaf slice Row.nil, rest, rfl, by simp⟩
  | @trunk _ _ _ _ _ _ _ node inner closers _ _ _ grows content rest =>
    have hlength : start + (node :: (inner ++ closers ++ [])).length =
        start + 1 + inner.length + closers.length := by
      simp only [List.append_nil, List.length_cons, List.length_append]
      omega
    rw [← hlength] at rest
    exact ⟨_, _, _, _, Row.trunk grows content Row.nil, rest, by simp, rfl⟩
  | @group _ _ _ _ _ _ first _ firstTops _ content rest =>
    rw [← List.append_nil first] at rest
    exact ⟨_, _, _, _, Row.group content Row.nil, rest, by simp, by simp⟩

/-- A leaf is one node… -/
theorem of_leaf {span : Span} {kind : Leaf}
    (h : Row d source here ns start [.leaf {} span kind] nodes tops) :
    ∃ token, source.slice span = .ok token ∧ nodes = [kind.node here ns start token] ∧
      tops = kind.tops start := by
  cases h with
  | trunk grows => cases grows
  | leaf slice rest =>
    cases rest
    exact ⟨_, slice, rfl, List.append_nil _⟩

/-- …a group is the row of what is in it… -/
theorem of_group {span : Option Span} {items : List Blueprint}
    (h : Row d source here ns start [.group {} span items] nodes tops) :
    Row d source here ns start items nodes tops := by
  cases h with
  | trunk grows => cases grows
  | group content rest =>
    cases rest
    rwa [List.append_nil, List.append_nil]

/-- …and what could not be planned becomes no row. -/
theorem ne_fault {span : Option Span} {error : Error} :
    ¬ Row d source here ns start [.group {} span [.fault error]] nodes tops := by
  intro h
  cases h.of_group with
  | trunk grows => cases grows

end Row

/-! ## Places -/

@[simp] theorem Leaf.id_node (kind : Leaf) (here : Position) (ns : Namespace) (id : NodeId)
    (token : Token) : (kind.node here ns id token).id = id := by
  cases kind <;> rfl

theorem Leaf.place_of_mem_tops {kind : Leaf} {here : Position} {ns : Namespace} {id top : NodeId}
    {token : Token} (h : top ∈ kind.tops id) :
    (kind.node here ns id token).id = top ∧ (kind.node here ns id token).parent = here.parent ∧
      (kind.node here ns id token).depth = here.depth := by
  cases kind with
  | strayEndTag => simp [Leaf.tops] at h
  | _ => exact ⟨(List.mem_singleton.1 h).symm, rfl, rfl⟩

namespace Trunk

variable {d : Dialect} {source : Source} {here : Position} {ns inside : Namespace} {id : Nat}
  {inner closers : List Node} {kids : List NodeId} {b : Blueprint} {children : List Blueprint}
  {node : Node}

theorem id_eq (h : Trunk d source here ns id inner kids b children inside node closers) :
    node.id = id := by
  cases h <;> rfl

theorem place (h : Trunk d source here ns id inner kids b children inside node closers) :
    node.parent = here.parent ∧ node.depth = here.depth := by
  cases h <;> exact ⟨rfl, rfl⟩

/-- **What closes a node stands where the node does.** -/
theorem closers_place (h : Trunk d source here ns id inner kids b children inside node closers) :
    ∀ closer ∈ closers, closer.id = id + 1 + inner.length ∧ closer.parent = here.parent ∧
      closer.depth = here.depth ∧ closer.ns = node.ns := by
  cases h with
  | block => simp
  | element _ _ closing => cases closing <;> simp [Position.node]

theorem map_id_closers (h : Trunk d source here ns id inner kids b children inside node closers) :
    closers.map Node.id = List.range' (id + 1 + inner.length) closers.length := by
  cases h with
  | block => rfl
  | element _ _ closing => cases closing <;> rfl

end Trunk

namespace Row

variable {d : Dialect} {source : Source} {here : Position} {ns : Namespace} {start : Nat}
  {bs : List Blueprint} {nodes : List Node} {tops : List NodeId}

/-- **The number of a node is its place**: a row has the places from `start` on. -/
theorem map_id (h : Row d source here ns start bs nodes tops) :
    nodes.map Node.id = List.range' start nodes.length := by
  induction h with
  | nil => rfl
  | leaf slice rest ih => simp [ih, List.range'_succ]
  | trunk grows content rest ihContent ihRest =>
    simp only [List.map_cons, List.map_append, List.length_cons, List.length_append,
      List.range'_succ, grows.id_eq, grows.map_id_closers, ihContent, ihRest]
    rw [List.range'_append_1, Nat.add_assoc (_ + 1), List.range'_append_1]
  | group content rest ihContent ihRest =>
    rw [List.map_append, ihContent, ihRest, List.range'_append_1, List.length_append]

/-- The numbers of a row are those from `start` on. -/
theorem id_mem (h : Row d source here ns start bs nodes tops) {n : Node} (hn : n ∈ nodes) :
    start ≤ n.id ∧ n.id < start + nodes.length := by
  have hmem := List.mem_map_of_mem (f := Node.id) hn
  rw [h.map_id, List.mem_range'_1] at hmem
  exact hmem

/-- …so a node is found in an arena at its number. -/
theorem getElem?_id (h : Row d source here ns start bs nodes tops) (before after : List Node)
    (hstart : before.length = start) {n : Node} (hn : n ∈ nodes) :
    (before ++ nodes ++ after)[n.id]? = some n := by
  obtain ⟨k, hk, rfl⟩ := List.getElem_of_mem hn
  have hid : nodes[k].id = start + k := by
    have hget := congrArg (·[k]?) h.map_id
    simpa [hk] using hget
  rw [hid, ← hstart, List.append_assoc, List.getElem?_append_right (Nat.le_add_right _ _),
    Nat.add_sub_cancel_left, List.getElem?_append_left hk, List.getElem?_eq_getElem hk]

/-- **The top nodes of a row stand at its position.** -/
theorem mem_of_tops (h : Row d source here ns start bs nodes tops) {id : NodeId}
    (hid : id ∈ tops) : ∃ n ∈ nodes, n.id = id ∧ n.parent = here.parent ∧ n.depth = here.depth := by
  induction h with
  | nil => simp at hid
  | leaf slice rest ih =>
    rcases List.mem_append.1 hid with hfirst | hrest
    · exact ⟨_, List.mem_cons_self, Leaf.place_of_mem_tops hfirst⟩
    · obtain ⟨n, hn, hplace⟩ := ih hrest
      exact ⟨n, List.mem_cons_of_mem _ hn, hplace⟩
  | trunk grows content rest _ ih =>
    rcases List.mem_cons.1 hid with rfl | hrest
    · exact ⟨_, List.mem_cons_self, grows.id_eq, grows.place⟩
    · obtain ⟨n, hn, hplace⟩ := ih hrest
      exact ⟨n, List.mem_cons_of_mem _ (List.mem_append_right _ hn), hplace⟩
  | group content rest ihContent ihRest =>
    rcases List.mem_append.1 hid with hfirst | hrest
    · obtain ⟨n, hn, hplace⟩ := ihContent hfirst
      exact ⟨n, List.mem_append_left _ hn, hplace⟩
    · obtain ⟨n, hn, hplace⟩ := ihRest hrest
      exact ⟨n, List.mem_append_right _ hn, hplace⟩

end Row

end Markup
