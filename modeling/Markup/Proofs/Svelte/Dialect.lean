import Markup.Proofs.Blueprint.Construct
import Markup.Proofs.Document.Lossless
import Markup.Proofs.Svelte.Template
import Markup.Svelte.Dialect

/-!
# Proofs/Svelte/Dialect — templates lose nothing of their source

The trees of a template cover it (`Tree.forest_of_ofText`), and so do their blueprints: a block is
visited in source order (`Block.visits_eq`), so **the branches of its construct cover it**.
Every end tag is written, so there are no ghosts and no token is empty.
-/

namespace Markup.Svelte

open Blueprint (Covers)

variable {source : Source}

theorem blueprints_eq_map (trees : List Tree) :
    blueprints source trees = trees.map (Tree.blueprint source) := by
  induction trees with
  | nil => rw [blueprints, List.map_nil]
  | cons t trees ih => rw [blueprints, List.map_cons, ih]

theorem planned_eq_map (trees : List Tree) :
    planned source trees = trees.map fun t => ⟨t.span, t.blueprint source⟩ := by
  induction trees with
  | nil => rw [planned, List.map_nil]
  | cons t trees ih => rw [planned, List.map_cons, ih]

theorem plannedSection_eq (s : Section Tree) :
    plannedSection source s = s.map fun t => ⟨t.span, t.blueprint source⟩ := by
  rw [plannedSection, planned_eq_map]
  rfl

theorem plannedClauses_eq_map (clauses : List (String × Section Tree)) :
    plannedClauses source clauses =
      clauses.map fun clause => (clause.1, plannedSection source clause.2) := by
  induction clauses with
  | nil => rw [plannedClauses, List.map_nil]
  | cons clause clauses ih => rw [plannedClauses, List.map_cons, ih]

/-- The sections that a planned block visits, with their roles. -/
def plannedVisits (source : Source) (kind : Block) (head : Section Tree)
    (clauses : List (String × Section Tree)) : List (String × Section Planned) :=
  (kind.headRole, plannedSection source head) :: plannedClauses source clauses

theorem plannedVisits_eq_map (source : Source) (kind : Block) (head : Section Tree)
    (clauses : List (String × Section Tree)) :
    plannedVisits source kind head clauses = ((kind.headRole, head) :: clauses).map
      fun visit => (visit.1, plannedSection source visit.2) := by
  rw [plannedVisits, plannedClauses_eq_map]
  rfl

/-- They are those of the block. -/
theorem map_snd_plannedVisits (source : Source) (kind : Block) (head : Section Tree)
    (clauses : List (String × Section Tree)) :
    (plannedVisits source kind head clauses).map Prod.snd =
      (head :: clauses.map Prod.snd).map (plannedSection source) := by
  rw [plannedVisits_eq_map, List.map_map, List.map_cons, List.map_cons, List.map_map]
  rfl

theorem map_fst_plannedClauses (source : Source) (clauses : List (String × Section Tree)) :
    (plannedClauses source clauses).map Prod.fst = clauses.map Prod.fst := by
  rw [plannedClauses_eq_map, List.map_map]
  rfl

theorem span_plannedSection (source : Source) (s : Section Tree) :
    (plannedSection source s).span = s.span := by
  rw [plannedSection_eq]
  rfl

/-- Planned sections follow each other as the sections do. -/
theorem consecutive_map_plannedSection (source : Source) {start stop : Nat}
    {ss : List (Section Tree)} :
    Consecutive start stop (ss.map (plannedSection source)) ↔ Consecutive start stop ss := by
  rw [← List.map_id ss, List.map_map]
  refine Consecutive.map_congr ?_ ?_ ?_
  all_goals intro s _
  · rw [Function.comp_apply, id, plannedSection_eq]
    rfl
  · rw [Function.comp_apply, id, plannedSection_eq]
    rfl
  · intro a b
    rw [Function.comp_apply, id, plannedSection_eq]
    exact Tiled.map_iff fun _ _ => rfl

theorem Block.name_construct {α : Type} (kind : Block) (head : Section α)
    (clauses : List (String × Section α)) : (kind.construct head clauses).name = kind.word := by
  cases kind <;> rfl

theorem Block.span_construct {α : Type} (kind : Block) (head : Section α)
    (clauses : List (String × Section α)) : (kind.construct head clauses).span = head.span := by
  cases kind <;> rfl

/-- The children of planned sections are as good as the trees that they were. -/
theorem covers_of_mem_plannedSection {ss : List (Section Tree)}
    (h : ∀ s ∈ ss, ∀ t ∈ s.children, t.span.start < t.span.stop →
      Covers t.span.start t.span.stop [t.blueprint source]) :
    ∀ s ∈ ss.map (plannedSection source), ∀ p ∈ s.children, p.Covers := by
  intro s hs p hp
  obtain ⟨s, hmem, rfl⟩ := List.mem_map.1 hs
  rw [plannedSection_eq] at hp
  obtain ⟨t, ht, rfl⟩ := List.mem_map.1 hp
  exact h s hmem t ht

/-- **The blueprint of a special tag** is one block: its header is all there is. -/
theorem blueprint_special {tag : SpecialTag} {span : Span} (hlt : span.start < span.stop) :
    Tree.blueprint source (.special tag ⟨span, span.stop, []⟩) =
        .group {} (some span) [.block {} span tag.word []] ∨
      ∃ e, (Text.IsRange source.text span.start span.stop → e.Located source) ∧
        Tree.blueprint source (.special tag ⟨span, span.stop, []⟩) =
          .group {} (some span) [.fault e] := by
  have hrow : Consecutive span.start span.stop
      ([(tag.word, Section.mk span span.stop ([] : List Planned))].map Prod.snd) :=
    ⟨rfl, hlt, span.stop, rfl, rfl⟩
  have hblank : ((Text.slice? span.stop span.stop source.text).getD []).takeWhile Text.isBlank =
      [] := by rw [Text.getD_slice?_self, List.takeWhile_nil]
  have hspan : (tag.construct ⟨span, span.stop, ([] : List Planned)⟩).span = span := rfl
  rw [Tree.blueprint, plannedSection, planned]
  refine (Blueprint.ofConstruct_eq hspan rfl hrow (fun _ _ _ => rfl) (Nat.le_refl _)
    hblank).imp ?_ ?_
  · rintro ⟨-, -, -, heq⟩
    rw [heq, Blueprint.closingBlock, if_neg (Nat.lt_irrefl _)]
    rfl
  · rintro ⟨e, herror, heq⟩
    exact ⟨e, Construct.located_of_branches herror, heq⟩

/-- …and covers it. -/
theorem covers_special {tag : SpecialTag} {span : Span} (hlt : span.start < span.stop) :
    Covers span.start span.stop [Tree.blueprint source (.special tag ⟨span, span.stop, []⟩)] := by
  rcases blueprint_special hlt with heq | ⟨e, -, heq⟩
  · rw [heq]
    exact Covers.group (Covers.block hlt Covers.nil Covers.nil) Covers.nil
  · rw [heq]
    exact Covers.group (Covers.fault Covers.nil) Covers.nil

/-- **The blueprint of a block** is a row of blocks: one for its head, one for each clause, and one
for its closing tag; its clauses then come in the order of its phases. -/
theorem blueprint_block {kind : Block} {head : Section Tree}
    {clauses : List (String × Section Tree)} {content : Nat}
    (row : Consecutive head.span.start content (head :: clauses.map Prod.snd))
    (written : kind.Written source.text clauses.reverse) (closes : content < head.span.stop)
    (closer : kind.ClosesAt source.text ⟨content, head.span.stop⟩) :
    ((kind ≠ .cond → (clauses.map Prod.fst).Sublist kind.phases.tail) ∧
      Tree.blueprint source (.block kind head clauses) = .group {} (some head.span)
        (((plannedVisits source kind head clauses).map fun visit =>
          Blueprint.ofSection visit.1 visit.2) ++
            [.block {} ⟨content, head.span.stop⟩ ("/" ++ kind.word) []])) ∨
      ∃ e, (Text.IsRange source.text head.span.start head.span.stop → e.Located source) ∧
        Tree.blueprint source (.block kind head clauses) =
          .group {} (some head.span) [.fault e] := by
  have hadmitted := written.admitted
  have hrow := (consecutive_map_plannedSection source).2 row
  rw [List.map_reverse, ← map_fst_plannedClauses source] at hadmitted
  rw [← map_snd_plannedVisits source kind] at hrow
  have hhead := span_plannedSection source head
  have hvisits : ∀ ps last, Construct.pieces head.span.start
      (kind.construct (plannedSection source head) (plannedClauses source clauses)).visits =
        .ok (ps, last) → _ ∧ _ := fun ps last hpieces =>
    Block.visits_eq hadmitted (hhead ▸ hrow) (hhead ▸ hpieces)
  have hspan := (Block.span_construct kind (plannedSection source head)
    (plannedClauses source clauses)).trans hhead
  rw [Tree.blueprint]
  refine (Blueprint.ofConstruct_eq hspan (Block.name_construct ..) hrow
    (fun ps last hpieces => (hvisits ps last hpieces).1) (Nat.le_of_lt closes)
    closer.takeWhile_eq_nil).imp ?_ ?_
  · rintro ⟨ps, last, hpieces, heq⟩
    rw [heq, Blueprint.closingBlock, if_pos closes]
    rw [← map_fst_plannedClauses source]
    exact ⟨(hvisits ps last hpieces).2, rfl⟩
  · rintro ⟨e, herror, heq⟩
    exact ⟨e, fun hrange => Construct.located_of_branches herror (hspan ▸ hrange), heq⟩

/-- …and covers it, too. -/
theorem covers_block {kind : Block} {head : Section Tree} {clauses : List (String × Section Tree)}
    {content : Nat} (row : Consecutive head.span.start content (head :: clauses.map Prod.snd))
    (inside : ∀ s ∈ head :: clauses.map Prod.snd, ∀ t ∈ s.children,
      t.span.start < t.span.stop → Covers t.span.start t.span.stop [t.blueprint source])
    (written : kind.Written source.text clauses.reverse) (closes : content < head.span.stop)
    (closer : kind.ClosesAt source.text ⟨content, head.span.stop⟩) :
    Covers head.span.start head.span.stop [Tree.blueprint source (.block kind head clauses)] := by
  have hrow := (consecutive_map_plannedSection source).2 row
  have hgood := covers_of_mem_plannedSection inside
  rw [← map_snd_plannedVisits source kind] at hrow hgood
  rcases blueprint_block row written closes closer with ⟨-, heq⟩ | ⟨e, -, heq⟩
  · rw [heq]
    exact Covers.group ((Blueprint.covers_sections hrow hgood).append
      (Covers.block closes Covers.nil Covers.nil)) Covers.nil
  · rw [heq]
    exact Covers.group (Covers.fault Covers.nil) Covers.nil

/-- **The blueprint of a well-formed tree covers what the tree does.** -/
theorem Tree.WellFormed.covers {t : Tree} (h : t.WellFormed source.text)
    (hlt : t.span.start < t.span.stop) : Covers t.span.start t.span.stop [t.blueprint source] := by
  induction h with
  | text span =>
    rw [Tree.blueprint]
    exact Covers.leaf hlt Covers.nil
  | comment =>
    rw [Tree.blueprint]
    exact Covers.leaf hlt Covers.nil
  | mustache =>
    rw [Tree.blueprint]
    exact Covers.block hlt Covers.nil Covers.nil
  | special written => exact covers_special hlt
  | element startTag written closed empty row inside closes ih =>
    rw [Tree.blueprint, blueprints_eq_map]
    have hchildren := Covers.of_tiled row ih
    exact Covers.group (Covers.element startTag hchildren closes Covers.nil) Covers.nil
  | block opens row inside written closes closer ih =>
    exact covers_block row ih written closes closer

/-- **The blueprints of a template cover it.** -/
theorem covers_of_read (options : Options) {reading : Reading}
    (h : read source options = .ok reading) :
    Covers 0 (Text.byteSize source.text) reading.roots := by
  obtain ⟨trees, htrees, hreading⟩ := Except.bind_eq_ok.1 h
  cases hreading
  have hforest := Tree.forest_of_ofText htrees
  rw [blueprints_eq_map]
  exact Covers.of_tiled hforest.tiled fun t ht hlt => (hforest.all t ht).covers hlt

/-- **A document that is parsed as a template is its source**, whatever the options are: its tokens
begin at the base, follow each other and end with the source, and none is a ghost or empty. -/
theorem lossless_of_parse_svelte {text : String} {options : Options} {doc : Document}
    (h : Document.parse dialect text options = .ok doc) :
    doc.Lossless text options.offsetOffset ∧
      ∀ n ∈ doc.nodes, n.isGhost = false ∧ n.token.raw ≠ "" := by
  have hcovers : ∀ reading, dialect.read (Source.ofString text options.base) options =
      .ok reading → Covers 0 text.utf8ByteSize reading.roots := by
    intro reading hread
    rw [← Text.byteSize_toList]
    exact covers_of_read options hread
  have hlossless := Document.lossless_of_covers hcovers h
  refine ⟨hlossless, fun n hn => ?_⟩
  have hghost : n.isGhost = false :=
    Document.isGhost_of_covers (fun tag => by simp [Dialect.impliesClose, dialect, config]) hcovers
      h n hn
  rw [ne_eq, hlossless.ghost_iff n hn, hghost]
  exact ⟨rfl, Bool.false_ne_true⟩

/-- Blocks of all kinds, with a wait that goes on before its clause and an opaque script. -/
def mixedTemplate : String :=
  "\x7b#if a\x7d<b>x</b>\x7b:else if c\x7d\x7b#each d as e\x7dé\x7b:else\x7d\x7b/each\x7d" ++
    "\x7b:else\x7d \x7b/if\x7d" ++
    "\x7b#await p\x7d.\x7b:then q\x7d\x7b@html q\x7d\x7b/await\x7d<script>1</script>"

theorem lossless_mixedTemplate : ∃ doc,
    Document.parse dialect mixedTemplate { offsetOffset := 7, depth := 2 } = .ok doc ∧
      doc.Lossless mixedTemplate 7 ∧ ∀ n ∈ doc.nodes, n.isGhost = false ∧ n.token.raw ≠ "" := by
  have hok : (Document.parse dialect mixedTemplate
      { offsetOffset := 7, depth := 2 }).isOk = true := by decide +kernel
  obtain ⟨doc, hparse⟩ := Except.exists_of_isOk hok
  exact ⟨doc, hparse, lossless_of_parse_svelte hparse⟩

end Markup.Svelte
