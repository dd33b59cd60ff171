import Mathlib.Data.List.Nodup
import Mathlib.Logic.ExistsUnique
import Markup.Proofs.Blueprint.Nesting
import Markup.Proofs.Svelte.EndTag
import Markup.Proofs.Svelte.Runs

/-!
# Proofs/Svelte/Shown — a document shows the blocks of a template

The trees of a template are all that its text says (`Tree.Exact`): no block or special tag is hidden
in a text, a comment or a tag.  A body of a template, at any depth, **becomes the row inside the
node that shows what holds it** (`Body.grows`), and the row of a tree is that of its parts.  So the
children of the node are the runs of the body's trees one after the other: a block is a run of
siblings, one for each of its tags (`shows_of_parse`).
-/

namespace Markup

/-- The numbers of the nodes that stand under a node, or at the top. -/
def Document.idsUnder (doc : Document) : Option Node → List NodeId
  | none => doc.roots.map Node.id
  | some n => n.children

namespace Svelte

/-- **A tree is what the text says, and all of it**: its tags are written, one in each range, its
texts hold no markup, but for the content of elements whose name is opaque, and its elements end
with end tags of their names. -/
structure Tree.Exact (source : List Char) (t : Tree) : Prop where
  wellFormed : t.WellFormed source
  running : t.Running source
  ended : t.Every (Tree.Ended source)

/-- **The trees of a template are exact**, and they cover it. -/
theorem Tree.exact_of_ofText {text : List Char} {trees : List Tree}
    (h : Tree.ofText config text = .ok trees) :
    Forest (Tree.Exact text) 0 (Text.byteSize text) trees := by
  have hforest := Tree.forest_of_ofText h
  exact ⟨hforest.tiled, fun t ht =>
    ⟨hforest.all t ht, Tree.running_of_ofText h t ht, Tree.every_ended h t ht⟩⟩

/-- **A body of a template**, with the part that holds it, if it is not that of the roots, and how
deep it is. -/
inductive Body (trees : List Tree) : Option Part → Nat → List Tree → Prop
  | roots : Body trees none 0 trees
  | inside {owner : Option Part} {level : Nat} {body : List Tree} {t : Tree} {part : Part}
      (outer : Body trees owner level body) (mem : t ∈ body) (shown : part ∈ t.parts) :
      Body trees (some part) (level + 1) part.body

/-- **A node of a document has the text of a part.** -/
structure Part.CoveredBy (doc : Document) (source : Source) (part : Part) (n : Node) : Prop where
  mem : n ∈ doc.nodes
  token : source.slice part.span = .ok n.token

/-- **A node shows a part** at a position. -/
structure Part.ShownBy (doc : Document) (source : Source) (here : Position) (part : Part)
    (n : Node) : Prop extends Part.CoveredBy doc source part n where
  kind : n.kind = part.kind
  role : ∀ role, part.role = some role → n.name = role
  parent : n.parent = here.parent
  depth : n.depth = here.depth

/-- **A document shows a body** under the node that has the text of its owner, or at the top: what
stands there is a run of nodes for each tree, and in it one node for each part, at the same depth
and in the order of the document. -/
structure Shows (doc : Document) (source : Source) (depth : Nat) (owner : Option Part)
    (body : List Tree) (holder : Option Node) (runs : List (List Node)) : Prop where
  held : Option.Rel (Part.CoveredBy doc source) owner holder
  children : doc.idsUnder holder = runs.flatten.map Node.id
  inOrder : runs.flatten.Sublist doc.nodes.toList
  shown : List.Forall₂ (fun t run =>
    List.Forall₂ (Part.ShownBy doc source ⟨holder.map Node.id, depth⟩) t.parts run) body runs

/-- **A document shows all bodies of a template**, each in one way only, with its tags written. -/
def ShowsAll (doc : Document) (source : Source) (depth : Nat) (trees : List Tree) : Prop :=
  ∀ owner level body, Body trees owner level body → (∀ t ∈ body, t.Tagged source.text) ∧
    ∃! shown : Option Node × List (List Node),
      Shows doc source (depth + level) owner body shown.1 shown.2

/-- **A body becomes the row inside a node**, or that of the roots. -/
def Grows (d : Dialect) (doc : Document) (source : Source) (depth : Nat) (holder : Option Node)
    (body : List Tree) : Prop :=
  ∃ ns start nodes, Row d source ⟨holder.map Node.id, depth⟩ ns start (blueprints source body) nodes
    (doc.idsUnder holder) ∧ nodes.Sublist doc.nodes.toList

/-- A part is shown by a node, and its body becomes the row inside it. -/
def Part.GrownBy (d : Dialect) (doc : Document) (source : Source) (here : Position) (part : Part)
    (n : Node) : Prop :=
  part.ShownBy doc source here n ∧ Grows d doc source (here.depth + 1) (some n) part.body

section Rows

variable {d : Dialect} {doc : Document} {source : Source} {here : Position} {ns : Namespace}
  {start depth : Nat} {nodes : List Node} {tops : List NodeId}

/-- A node without children has an empty body. -/
theorem grows_nil {n : Node} (h : n.children = []) : Grows d doc source depth (some n) [] := by
  refine ⟨.html, 0, [], ?_, List.nil_sublist _⟩
  rw [blueprints, Document.idsUnder, h]
  exact Row.nil

/-- **What a part says becomes one node that shows it.** -/
theorem Part.Plans.exists_node {part : Part} {item : Blueprint} (h : part.Plans source item)
    (hrow : Row d source here ns start [item] nodes tops)
    (hsub : nodes.Sublist doc.nodes.toList) :
    ∃ n, tops = [n.id] ∧ n ∈ nodes ∧ part.GrownBy d doc source here n := by
  have hmem : ∀ n ∈ nodes, n ∈ doc.nodes := fun n hn => Array.mem_toList_iff.1 (hsub.subset hn)
  cases h with
  | text span =>
    obtain ⟨token, slice, rfl, rfl⟩ := hrow.of_leaf
    have hnode := hmem _ List.mem_cons_self
    exact ⟨_, rfl, List.mem_cons_self, ⟨⟨hnode, slice⟩, rfl, by simp, rfl, rfl⟩, grows_nil rfl⟩
  | comment span =>
    obtain ⟨token, slice, rfl, rfl⟩ := hrow.of_leaf
    have hnode := hmem _ List.mem_cons_self
    exact ⟨_, rfl, List.mem_cons_self, ⟨⟨hnode, slice⟩, rfl, by simp, rfl, rfl⟩, grows_nil rfl⟩
  | branch role span body =>
    cases hrow with
    | @trunk _ _ _ _ _ _ _ node inner closers _ _ _ grows content rest =>
      cases rest
      have hnode := hmem _ List.mem_cons_self
      have hinner : inner.Sublist (node :: (inner ++ closers ++ [])) := by simp
      cases grows with
      | block slice =>
        exact ⟨_, rfl, List.mem_cons_self,
          ⟨⟨hnode, slice⟩, rfl, fun _ => Option.some.inj, rfl, rfl⟩,
          _, _, _, content, hinner.trans hsub⟩
  | element span body endTag =>
    cases hrow with
    | @trunk _ _ _ _ _ _ _ node inner closers _ _ _ grows content rest =>
      cases rest
      have hnode := hmem _ List.mem_cons_self
      have hinner : inner.Sublist (node :: (inner ++ closers ++ [])) := by simp
      cases grows with
      | element slice =>
        exact ⟨_, rfl, List.mem_cons_self, ⟨⟨hnode, slice⟩, rfl, by simp, rfl, rfl⟩,
          _, _, _, content, hinner.trans hsub⟩

/-- …and what the parts of a tree say becomes its run. -/
theorem exists_run {parts : List Part} {items : List Blueprint}
    (hplans : List.Forall₂ (Part.Plans source) parts items)
    (hrow : Row d source here ns start items nodes tops)
    (hsub : nodes.Sublist doc.nodes.toList) :
    ∃ run : List Node, run.map Node.id = tops ∧ run.Sublist nodes ∧
      List.Forall₂ (Part.GrownBy d doc source here) parts run := by
  induction hplans generalizing start nodes tops with
  | nil =>
    cases hrow
    exact ⟨[], rfl, List.Sublist.refl [], .nil⟩
  | cons plan _ ih =>
    obtain ⟨first, firstTops, rest, restTops, hfirst, hrest, rfl, rfl⟩ := hrow.exists_of_cons
    obtain ⟨n, rfl, hn, hgrown⟩ :=
      plan.exists_node hfirst ((List.sublist_append_left _ _).trans hsub)
    obtain ⟨run, rfl, hrun, hshown⟩ := ih hrest ((List.sublist_append_right _ _).trans hsub)
    exact ⟨n :: run, rfl, (List.singleton_sublist.2 hn).append hrun, .cons hgrown hshown⟩

/-- **A body that becomes a row is a row of runs**, one for each tree, and the tags of these are
written. -/
theorem exists_runs {body : List Tree} (hgood : ∀ t ∈ body, t.WellFormed source.text)
    (hrow : Row d source here ns start (blueprints source body) nodes tops)
    (hsub : nodes.Sublist doc.nodes.toList) :
    (∀ t ∈ body, t.Tagged source.text) ∧ ∃ runs : List (List Node),
      runs.flatten.map Node.id = tops ∧ runs.flatten.Sublist nodes ∧
        List.Forall₂ (fun t run => List.Forall₂ (Part.GrownBy d doc source here) t.parts run)
          body runs := by
  induction body generalizing start nodes tops with
  | nil =>
    rw [blueprints] at hrow
    cases hrow
    exact ⟨by simp, [], rfl, List.Sublist.refl [], .nil⟩
  | cons t body ih =>
    rw [List.forall_mem_cons] at hgood ⊢
    rw [blueprints] at hrow
    obtain ⟨first, firstTops, rest, restTops, hfirst, hrest, rfl, rfl⟩ := hrow.exists_of_cons
    obtain ⟨htagged, items, hplans, hitems⟩ := hgood.1.row_parts hfirst
    obtain ⟨run, rfl, hrun, hshown⟩ :=
      exists_run hplans hitems ((List.sublist_append_left _ _).trans hsub)
    obtain ⟨hothers, runs, rfl, hruns, hrest⟩ :=
      ih hgood.2 hrest ((List.sublist_append_right _ _).trans hsub)
    exact ⟨⟨htagged, hothers⟩, run :: runs, by simp, hrun.append hruns, .cons hshown hrest⟩

/-- **Every body of a template becomes the row inside a node that has the text of its owner.** -/
theorem Body.grows {trees : List Tree} (hgood : ∀ t ∈ trees, t.WellFormed source.text)
    (hroots : Grows d doc source depth none trees) {owner : Option Part} {level : Nat}
    {body : List Tree} (h : Body trees owner level body) :
    (∀ t ∈ body, t.WellFormed source.text) ∧ ∃ holder,
      Option.Rel (Part.CoveredBy doc source) owner holder ∧
        Grows d doc source (depth + level) holder body := by
  induction h with
  | roots => exact ⟨hgood, none, .none, hroots⟩
  | inside outer mem shown ih =>
    obtain ⟨hbody, holder, -, ns, start, nodes, hrow, hsub⟩ := ih
    obtain ⟨-, runs, -, -, hruns⟩ := exists_runs hbody hrow hsub
    obtain ⟨hall, -⟩ := (List.forall₂_and_left _ _).1 (hruns.imp fun t run hrun =>
      ⟨(⟨run, hrun⟩ : ∃ run, List.Forall₂ (Part.GrownBy d doc source _) t.parts run), hrun⟩)
    obtain ⟨run, hrun⟩ := hall _ mem
    obtain ⟨hparts, -⟩ := (List.forall₂_and_left _ _).1 (hrun.imp fun part n hn =>
      ⟨(⟨n, hn⟩ : ∃ n, Part.GrownBy d doc source _ part n), hn⟩)
    obtain ⟨n, hshown, hgrows⟩ := hparts _ shown
    exact ⟨(hbody _ mem).of_mem_parts shown, some n, .some hshown.toCoveredBy, hgrows⟩

/-- Without ghosts and repeated tokens **a body is shown in one way only**. -/
theorem Shows.unique {owner : Option Part} {body : List Tree} {holder holder' : Option Node}
    {runs runs' : List (List Node)} (htokens : (doc.nodes.toList.map Node.token).Nodup)
    (h : Shows doc source depth owner body holder runs)
    (h' : Shows doc source depth owner body holder' runs') : (holder', runs') = (holder, runs) := by
  have hcovered : Relator.RightUnique (Part.CoveredBy doc source) := by
    intro part n m hn hm
    have htoken : n.token = m.token := Except.ok.inj (hn.token.symm.trans hm.token)
    exact List.inj_on_of_nodup_map htokens (Array.mem_toList_iff.2 hn.mem)
      (Array.mem_toList_iff.2 hm.mem) htoken
  obtain rfl : holder' = holder := by
    cases h.held with
    | none => cases h'.held; rfl
    | some hn => cases h'.held with
      | some hm => rw [hcovered hn hm]
  have hshown : Relator.RightUnique (Part.ShownBy doc source ⟨holder'.map Node.id, depth⟩) :=
    fun part n m hn hm => hcovered hn.toCoveredBy hm.toCoveredBy
  have hruns : Relator.RightUnique fun (t : Tree) (run : List Node) => List.Forall₂
      (Part.ShownBy doc source ⟨holder'.map Node.id, depth⟩) t.parts run :=
    fun t run run' hrun hrun' => hshown.forall₂ hrun hrun'
  rw [hruns.forall₂ h'.shown h.shown]

/-- **A document whose roots are the row of a template shows all bodies of it.** -/
theorem showsAll_of_grows {trees : List Tree} (hgood : ∀ t ∈ trees, t.WellFormed source.text)
    (hroots : Grows d doc source depth none trees)
    (htokens : (doc.nodes.toList.map Node.token).Nodup) : ShowsAll doc source depth trees := by
  intro owner level body hbody
  obtain ⟨hwell, holder, hheld, ns, start, nodes, hrow, hsub⟩ := hbody.grows hgood hroots
  obtain ⟨htagged, runs, hids, hruns, hgrown⟩ := exists_runs hwell hrow hsub
  have hshown := hgrown.imp fun t run hrun => hrun.imp fun part n hn => hn.1
  have hshows : Shows doc source (depth + level) owner body holder runs :=
    ⟨hheld, hids.symm, hruns.trans hsub, hshown⟩
  exact ⟨htagged, (holder, runs), hshows, fun other hother => hshows.unique htokens hother⟩

end Rows

/-- The roots of a document are those of its nodes that hang from nothing. -/
theorem idsUnder_none (doc : Document) :
    doc.idsUnder none = (doc.nodes.toList.filter (Node.hangsFrom none)).map Node.id := by
  refine congrArg (List.map Node.id) (List.filter_congr fun n _ => ?_)
  rw [Node.hangsFrom, Node.inTree, Bool.and_assoc, Bool.and_comm]
  cases n.parent <;> rfl

/-- **A document that is parsed as a template shows its blocks**: every block or special tag, at any
depth, is one run of siblings, in source order and one for each of its tags, and the children of
each are what is written between that tag and the next. -/
theorem shows_of_parse {text : String} {options : Options} {doc : Document}
    (h : Document.parse dialect text options = .ok doc) :
    ∃ trees, Tree.ofText config text.toList = .ok trees ∧
      Forest (Tree.Exact text.toList) 0 (Text.byteSize text.toList) trees ∧
      ShowsAll doc (Source.ofString text options.base) options.depth trees := by
  obtain ⟨reading, tops, hread, hrow⟩ :=
    Document.row_of_parse (fun reading hread => (covers_of_read options hread).inPlace) h
  obtain ⟨trees, htrees, hreading⟩ := Except.bind_eq_ok.1 hread
  have hgood := (Tree.forest_of_ofText htrees).all
  have htile := hrow.tokensTile (covers_of_read options hread)
  have hghost := hrow.isGhost_of_mem fun tag => by simp [Dialect.impliesClose, dialect, config]
  cases hreading
  rw [hrow.tops_eq (by simp), ← idsUnder_none] at hrow
  have hroots : Grows dialect doc (Source.ofString text options.base) options.depth none trees :=
    ⟨.html, 0, _, hrow, List.Sublist.refl _⟩
  exact ⟨trees, htrees, Tree.exact_of_ofText htrees,
    showsAll_of_grows hgood hroots (htile.nodup_token hghost)⟩

/-- The parts of trees row by row, each with its role and its range: those of the trees, then those
of the trees inside them, and so on. -/
def outline : Nat → List Tree → List (List (Option String × Span))
  | 0, _ => []
  | n + 1, trees =>
    let row := trees.flatMap Tree.parts
    row.map (fun part => (part.role, part.span)) :: outline n (row.flatMap Part.body)

/-- Blocks in one another, and what would be tags if it did not stand in a script or a comment. -/
def hiddenTags : String :=
  "\x7b#if a\x7d<b>x</b>\x7b:else if c\x7d" ++
    "\x7b#each d as e\x7d\x7be\x7d\x7b:else\x7d\x7b/each\x7d\x7b:else\x7d \x7b/if\x7d" ++
    "\x7b#await p\x7d.\x7b:then q\x7d\x7b@html q\x7d\x7b/await\x7d" ++
    "<script>\x7b#if\x7d</script><!--\x7b:else\x7d-->"

theorem shows_hiddenTags : ∃ doc trees,
    Document.parse dialect hiddenTags { offsetOffset := 7, depth := 2 } = .ok doc ∧
    Tree.ofText config hiddenTags.toList = .ok trees ∧
    Forest (Tree.Exact hiddenTags.toList) 0 (Text.byteSize hiddenTags.toList) trees ∧
    ShowsAll doc (Source.ofString hiddenTags { offset := 7 }) 2 trees ∧
    outline 4 trees =
      [[(some "if", ⟨0, 7⟩), (some "elseif", ⟨15, 27⟩), (some "else", ⟨58, 65⟩),
          (some "/if", ⟨66, 71⟩), (some "await", ⟨71, 81⟩), (some "then", ⟨82, 91⟩),
          (some "/await", ⟨100, 108⟩), (none, ⟨108, 116⟩), (none, ⟨130, 144⟩)],
        [(none, ⟨7, 10⟩), (some "each", ⟨27, 41⟩), (some "else", ⟨44, 51⟩),
          (some "/each", ⟨51, 58⟩), (none, ⟨65, 66⟩), (none, ⟨81, 82⟩), (some "html", ⟨91, 100⟩),
          (none, ⟨116, 121⟩)],
        [(none, ⟨10, 11⟩), (some "MustacheTag", ⟨41, 44⟩)], []] := by
  have hok : (Document.parse dialect hiddenTags
      { offsetOffset := 7, depth := 2 }).isOk = true := by decide +kernel
  obtain ⟨doc, hparse⟩ := Except.exists_of_isOk hok
  obtain ⟨trees, htrees, hexact, hshows⟩ := shows_of_parse hparse
  have houtline : (Tree.ofText config hiddenTags.toList).toOption.map (outline 4) =
      some (outline 4 trees) := by rw [htrees]; rfl
  refine ⟨doc, trees, hparse, htrees, hexact, hshows, Option.some.inj (houtline.symm.trans ?_)⟩
  decide +kernel

end Svelte

end Markup
