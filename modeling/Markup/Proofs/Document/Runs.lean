import Markup.Proofs.Document.Lossless
import Markup.Proofs.Document.Nesting

/-!
# Proofs/Document/Runs — text nodes that go up to markup and hold none

A text of a document is a **run**: nothing or markup follows it.  Where markup is read, none begins
in a run, also not with what follows; the content of some elements is a run of its own, right behind
the start tag.  `Blueprint.Texts` asks this of blueprints, `Row.textNode` finds it in the row that
they become, and `Row.runs` says it of the nodes: **no run goes on in another**, for one that is
plain begins with no markup and one that is content has its element before it.
-/

namespace Markup

/-! ## Runs of a text -/

section

variable (markup : List Char → Prop) (source : List Char) (span : Span)

/-- **A range of the text is a run**, which is not empty and goes on to markup or to the end. -/
def RunAt (run rest : List Char) : Prop :=
  Text.dropBytes? span.start source = some (run ++ rest) ∧
    span.stop = span.start + Text.byteSize run ∧ (rest = [] ∨ markup rest)

/-- **A range of the text is a run without markup**, also where what follows is read with it. -/
def PlainAt : Prop :=
  ∃ run rest, RunAt markup source span run rest ∧
    ∀ front back, run = front ++ back → back ≠ [] → ¬ markup (back ++ rest)

end

/-- **The texts of a document are runs**, each as long as it may be.  Markup begins in none of them
but in the content of some elements. -/
structure Document.Runs (markup : List Char → Prop) (holdsText : String → Prop) (doc : Document) :
    Prop where
  /-- No text follows another with only ghosts between them. -/
  apart : ∀ before n ghosts m after, doc.nodes.toList = before ++ n :: (ghosts ++ m :: after) →
    n.data = .text → (∀ g ∈ ghosts, g.isGhost = true) → m.data ≠ .text
  /-- No markup begins in a text, even if it goes on in what follows. -/
  plain : ∀ before n after, doc.nodes.toList = before ++ n :: after → n.data = .text →
    (∀ m ∈ doc.nodes, n.parent = some m.id → ∀ e, m.data = .element e → ¬ holdsText e.name) →
      ∀ front back, n.token.raw.toList = front ++ back → back ≠ [] →
        ¬ markup (back ++ after.flatMap fun m => m.token.raw.toList)

/-! ## Blueprints -/

section

variable (plain : Span → Prop) (content : Span → Span → Prop)

/-- **What is asked of the texts in a blueprint**: they are plain, or all that is in an element,
given its start tag. -/
inductive Blueprint.Texts : Blueprint → Prop
  | text (place : Placement) {span : Span} (plain : plain span) : Texts (.leaf place span .text)
  | leaf (place : Placement) (span : Span) {kind : Leaf} (other : kind ≠ .text) :
      Texts (.leaf place span kind)
  | block {place : Placement} {span : Span} {name : String} {children : List Blueprint}
      (inside : ∀ b ∈ children, Texts b) : Texts (.block place span name children)
  | element {place : Placement} {startTag : Span} {endTag : Option Span} {children : List Blueprint}
      (inside : ∀ b ∈ children, Texts b) : Texts (.element place startTag children endTag)
  | content {place : Placement} {startTag span : Span} {endTag : Option Span}
      (content : content startTag span) :
      Texts (.element place startTag [.leaf {} span .text] endTag)
  | group {place : Placement} {span : Option Span} {items : List Blueprint}
      (inside : ∀ b ∈ items, Texts b) : Texts (.group place span items)
  | fault (error : Error) : Texts (.fault error)

/-- **A node is the content of an element**, which stands right before it. -/
inductive Node.ContentIn (d : Dialect) (source : Source) (nodes : List Node) (n : Node) : Prop
  | intro {front rest : List Node} {m : Node} {e : Element} {startTag span : Span}
      (split : nodes = front ++ m :: n :: rest) (element : m.data = .element e)
      (parent : n.parent = some m.id) (startSlice : source.slice startTag = .ok m.token)
      (read : StartTag.read d.readAttribute source m.token =
        .ok ⟨e.name, e.attributes, e.selfClosing⟩)
      (slice : source.slice span = .ok n.token) (content : content startTag span)

/-- A text node is plain, or the content of an element. -/
def Node.TextIn (d : Dialect) (source : Source) (nodes : List Node) (n : Node) : Prop :=
  (∃ span, source.slice span = .ok n.token ∧ plain span) ∨ n.ContentIn content d source nodes

end

variable {plain : Span → Prop} {content : Span → Span → Prop} {d : Dialect} {source : Source}
  {here : Position} {ns : Namespace} {start : Nat} {bs : List Blueprint} {nodes : List Node}
  {tops : List NodeId} {n : Node}

/-- A row is found in a longer one. -/
theorem Node.TextIn.around (h : n.TextIn plain content d source nodes) (before after : List Node) :
    n.TextIn plain content d source (before ++ nodes ++ after) := by
  refine h.imp_right ?_
  rintro (@⟨front, rest, m, e, startTag, span, rfl, element, parent, startSlice, read, slice, hin⟩)
  have hsplit : before ++ (front ++ m :: n :: rest) ++ after =
      (before ++ front) ++ m :: n :: (rest ++ after) := by simp
  exact .intro hsplit element parent startSlice read slice hin

/-- **Every text of a row is what its blueprints ask for.** -/
theorem Row.textNode (h : Row d source here ns start bs nodes tops)
    (hall : ∀ b ∈ bs, b.Texts plain content) (hn : n ∈ nodes) (htext : n.data = .text) :
    n.TextIn plain content d source nodes := by
  induction h with
  | nil => exact absurd hn List.not_mem_nil
  | @leaf here ns start span token kind bs nodes tops slice rest ih =>
    obtain ⟨hb, hbs⟩ := List.forall_mem_cons.1 hall
    rcases List.mem_cons.1 hn with rfl | hlater
    · cases hb with
      | text _ hplain => exact Or.inl ⟨span, slice.trans (by rw [Leaf.token_node]), hplain⟩
      | leaf _ _ other => cases kind <;> first | exact absurd rfl other | cases htext
    · simpa using (ih hbs hlater).around [_] []
  | @trunk here ns _ start b children bs node inner closers nodes kids tops grows hinner rest
      ihContent ihRest =>
    obtain ⟨hb, hbs⟩ := List.forall_mem_cons.1 hall
    rw [List.mem_cons, List.mem_append, List.mem_append] at hn
    rcases hn with rfl | (hinside | hcloser) | hlater
    · cases grows <;> cases htext
    · have hchildren : (∀ b ∈ children, b.Texts plain content) →
          n.TextIn plain content d source (node :: (inner ++ closers ++ nodes)) := by
        intro hchildren
        simpa using (ihContent hchildren hinside).around [node] (closers ++ nodes)
      cases grows with
      | block slice =>
        cases hb with
        | block inside => exact hchildren inside
      | element slice read closing =>
        cases hb with
        | element inside => exact hchildren inside
        | content hcontent =>
          obtain ⟨token, hslice, rfl, -⟩ := hinner.of_leaf
          obtain rfl := List.mem_singleton.1 hinside
          exact Or.inr (.intro (List.nil_append _).symm rfl rfl slice read hslice hcontent)
    · cases grows with
      | block => exact absurd hcloser List.not_mem_nil
      | element _ _ closing =>
        cases closing with
        | endTag | ghost =>
          obtain rfl := List.mem_singleton.1 hcloser
          cases htext
        | nothing => exact absurd hcloser List.not_mem_nil
    · simpa using (ihRest hbs hlater).around (node :: (inner ++ closers)) []
  | @group _ _ _ _ _ _ nodes others _ _ hitems rest ihContent ihRest =>
    obtain ⟨hb, hbs⟩ := List.forall_mem_cons.1 hall
    rcases List.mem_append.1 hn with hfirst | hlater
    · cases hb with
      | group inside => simpa using (ihContent inside hfirst).around [] others
    · simpa using (ihRest hbs hlater).around nodes []

/-! ## Documents -/

/-- **What follows a token is the text of the nodes that follow.** -/
theorem TokensTile.dropBytes?_text {before after : List Node}
    (h : TokensTile source 0 (Text.byteSize source.text) (before ++ n :: after)) :
    ∃ start stop, source.slice ⟨start, stop⟩ = .ok n.token ∧
      Text.dropBytes? start source.text =
        some (n.token.raw.toList ++ after.flatMap fun m => m.token.raw.toList) := by
  have hwhole := h.slice?_text (Text.slice?_zero _)
  rw [Text.slice?_whole, List.nil_append, List.flatMap_append, List.flatMap_cons] at hwhole
  obtain ⟨start, hbefore, stop, hslice, -, -⟩ := append_iff.1 h
  obtain ⟨front, back, -, hfront, hsize⟩ :=
    Text.slice?_eq_some_iff.1 (hbefore.slice?_text (Text.slice?_zero _))
  rw [List.nil_append, Nat.zero_add] at hsize
  exact ⟨start, stop, hslice, Text.dropBytes?_eq_some_iff.2 ⟨_, Option.some.inj hwhole, hsize⟩⟩

/-- A run that has the token of a node is its text, and what follows it that of the nodes behind. -/
theorem RunAt.eq_text {markup : List Char → Prop} {span : Span} {run rest : List Char}
    {before after : List Node} (h : RunAt markup source.text span run rest)
    (htile : TokensTile source 0 (Text.byteSize source.text) (before ++ n :: after))
    (hslice : source.slice span = .ok n.token) :
    run = n.token.raw.toList ∧ rest = after.flatMap fun m => m.token.raw.toList := by
  obtain ⟨hdrop, hstop, -⟩ := h
  obtain ⟨start, stop, hslice', hdrop'⟩ := htile.dropBytes?_text
  obtain rfl : span.start = start := Nat.add_right_cancel
    ((Source.startOffset_of_slice hslice).symm.trans (Source.startOffset_of_slice hslice'))
  refine Text.append_inj_of_byteSize (Option.some.inj (hdrop.symm.trans hdrop')) ?_
  have hsize := Source.stop_of_slice hslice
  omega

variable {markup : List Char → Prop} {holdsText : String → Prop} {depth : Nat}

/-- **A text node goes on to markup**, and none begins in it, or the element before it holds it. -/
theorem Row.run_of_text (h : Row d source here ns 0 bs nodes tops)
    (htile : TokensTile source 0 (Text.byteSize source.text) nodes)
    (hall : ∀ b ∈ bs, b.Texts (PlainAt markup source.text) content)
    (hcontent : ∀ startTag span token tag, content startTag span →
      source.slice startTag = .ok token → StartTag.read d.readAttribute source token = .ok tag →
        holdsText tag.name ∧ ∃ run rest, RunAt markup source.text span run rest)
    {before after : List Node} (hnodes : nodes = before ++ n :: after) (htext : n.data = .text) :
    let behind := after.flatMap fun m => m.token.raw.toList
    (behind = [] ∨ markup behind) ∧
      ((∀ front back, n.token.raw.toList = front ++ back → back ≠ [] → ¬ markup (back ++ behind)) ∨
        ∃ front m e, before = front ++ [m] ∧ m.data = .element e ∧ n.parent = some m.id ∧
          holdsText e.name) := by
  have hn : n ∈ nodes := hnodes ▸ List.mem_append_right _ List.mem_cons_self
  rw [hnodes] at htile
  rcases h.textNode hall hn htext with ⟨span, hslice, run, rest, hrun, hplain⟩ |
    @⟨front, rest, m, e, startTag, span, hsplit, he, hparent, hstart, hread, hslice, hin⟩
  · obtain ⟨rfl, rfl⟩ := hrun.eq_text htile hslice
    exact ⟨hrun.2.2, Or.inl hplain⟩
  · obtain ⟨hholds, run, behind, hrun⟩ := hcontent _ _ _ _ hin hstart hread
    obtain ⟨rfl, rfl⟩ := hrun.eq_text htile hslice
    refine ⟨hrun.2.2, Or.inr ⟨front, m, e, ?_, he, hparent, hholds⟩⟩
    have hsplit' : nodes = (front ++ [m]) ++ n :: rest := by
      rw [hsplit, List.append_assoc]
      rfl
    have hplace : ∀ {before after : List Node}, nodes = before ++ n :: after →
        before.length = n.id := fun {before after} heq => by
      have hget : nodes[before.length]? = some n := by
        rw [heq, List.getElem?_append_right (Nat.le_refl _), Nat.sub_self]
        rfl
      exact (h.numbered _ _ hget).symm
    exact List.append_inj_left (hnodes.symm.trans hsplit')
      ((hplace hnodes).trans (hplace hsplit').symm)

/-- **The texts of a row are runs.** -/
theorem Document.runs_of_row {doc : Document} (h : Row d source here ns 0 bs doc.nodes.toList tops)
    (htile : TokensTile source 0 (Text.byteSize source.text) doc.nodes.toList)
    (hall : ∀ b ∈ bs, b.Texts (PlainAt markup source.text) content)
    (hcontent : ∀ startTag span token tag, content startTag span →
      source.slice startTag = .ok token → StartTag.read d.readAttribute source token = .ok tag →
        holdsText tag.name ∧ ∃ run rest, RunAt markup source.text span run rest) :
    doc.Runs markup holdsText where
  apart := by
    intro before n ghosts m after hnodes htext hghosts hm
    have hsplit : doc.nodes.toList = (before ++ n :: ghosts) ++ m :: after := by
      rw [hnodes, List.append_assoc]
      rfl
    have hraw : ∀ k ∈ doc.nodes.toList, k.token.raw = "" ↔ k.isGhost = true := fun k hk => by
      obtain ⟨a, b, hslice, hghost⟩ := htile.slice_of_mem hk
      rw [Source.raw_eq_empty_iff_of_slice hslice, hghost]
    have hempty : (ghosts.flatMap fun g => g.token.raw.toList) = [] := by
      refine List.flatMap_eq_nil_iff.2 fun g hg => ?_
      rw [(hraw g (by simp [hnodes, hg])).2 (hghosts g hg)]
      rfl
    have hsome : m.token.raw.toList ≠ [] := fun hnil => by
      have hghost := (hraw m (by simp [hnodes])).1 (String.toList_eq_nil_iff.1 hnil)
      rw [Node.isGhost, Node.kind, hm] at hghost
      exact absurd hghost Bool.false_ne_true
    obtain ⟨hends, -⟩ := h.run_of_text htile hall hcontent hnodes htext
    rw [List.flatMap_append, hempty, List.nil_append, List.flatMap_cons] at hends
    have hmarkup := hends.resolve_left (List.append_ne_nil_of_left_ne_nil hsome _)
    -- A run that begins with markup is the content of the element before it, and here is none.
    rcases (h.run_of_text htile hall hcontent hsplit hm).2 with hplain | ⟨front, k, e, heq, he, -⟩
    · exact hplain [] _ rfl hsome hmarkup
    · have hlast := congrArg List.getLast? heq
      rw [List.getLast?_concat, List.getLast?_append, Option.or_of_isSome (by simp)] at hlast
      rcases List.mem_cons.1 (List.mem_of_getLast? hlast) with rfl | hghost
      · rw [htext] at he
        cases he
      · have hkind := hghosts k hghost
        rw [Node.isGhost, Node.kind, he] at hkind
        exact absurd hkind Bool.false_ne_true
  plain := by
    intro before n after hnodes htext hparent
    rcases (h.run_of_text htile hall hcontent hnodes htext).2 with hplain |
      ⟨front, m, e, rfl, he, hm, hholds⟩
    · exact hplain
    · have hmem : m ∈ doc.nodes := Array.mem_toList_iff.1 (by simp [hnodes])
      exact absurd hholds (hparent m hmem hm e he)

end Markup
