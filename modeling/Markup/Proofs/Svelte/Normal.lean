import Markup.Proofs.Svelte.Element
import Markup.Proofs.Svelte.Refusal

/-!
# Proofs/Svelte/Normal — the blocks of a template have branches, but for waits that catch first

The sections of a block follow each other in the text, so if its clauses come in the order of its
phases, **every section opens a branch with its tag, which owns its children alone**, and the
closing tag is what is left (`Block.branches_of_inOrder`).  The only block that admits its clauses
the other way round is a wait that catches before it goes on; it has no branches at all, and is
refused as a whole (`branches_of_within`).
-/

namespace Markup.Svelte

variable {source : Source}

/-- **A wait that catches before it goes on**: among its clauses, which come in source order, one
for its failure comes before one for its success. -/
def Tree.CatchesFirst : Tree → Prop
  | .block (.await _) _ clauses => ["catch", "then"].Sublist (clauses.map Prod.fst)
  | _ => False

/-- **Branches as they should be**: nothing comes before them, each covers one tag of the text and
owns one group of children at most, and with their children they cover the tree without a gap, so
that a closing branch begins where the last body ends. -/
structure Tree.Normal (text : List Char) (t : Tree) (row : Branches Tree) : Prop where
  orphans : row.orphans = []
  tag : ∀ b ∈ row.branches, ∃ inner, TagAt text b.span inner
  group : ∀ b ∈ row.branches, b.groups.length ≤ 1
  abut : Branch.Abut t.span.start t.span.stop row.branches

theorem length_groups_ofSection {α : Type} (role : String) (s : Section α) :
    (Branch.ofSection role s).groups.length ≤ 1 := by
  rw [Branch.ofSection]
  split <;> simp

/-- **A special tag has one branch**, which is all of it… -/
theorem SpecialTag.branches_eq {tag : SpecialTag} {span : Span} (hlt : span.start < span.stop) :
    (tag.construct ⟨span, span.stop, ([] : List Tree)⟩).branches source =
      .ok ⟨[⟨tag.word, span, []⟩], []⟩ := by
  have hrow : Consecutive (tag.construct ⟨span, span.stop, ([] : List Tree)⟩).span.start span.stop
      ((tag.construct ⟨span, span.stop, ([] : List Tree)⟩).visits.map Prod.snd) :=
    ⟨rfl, hlt, span.stop, rfl, rfl⟩
  have hblank : ((Text.slice? span.stop span.stop source.text).getD []).takeWhile Text.isBlank =
      [] := by rw [Text.getD_slice?_self, List.takeWhile_nil]
  have hspan : (tag.construct ⟨span, span.stop, ([] : List Tree)⟩).span = span := rfl
  rw [Construct.branches_of_consecutive hrow (Nat.le_refl _) hblank, hspan, Branch.closing,
    if_neg (Nat.lt_irrefl _)]
  rfl

/-- …and is as it should be. -/
theorem SpecialTag.normal_branches {tag : SpecialTag} {span : Span}
    (written : tag.WrittenAt source.text span) :
    (Tree.special tag ⟨span, span.stop, []⟩).Normal source.text ⟨[⟨tag.word, span, []⟩], []⟩ := by
  obtain ⟨header, htag, -⟩ := written
  exact ⟨rfl, List.forall_mem_singleton.2 ⟨_, htag⟩, by simp, rfl, span.stop, rfl, rfl⟩

namespace Block

variable {kind : Block} {head : Section Tree} {clauses : List (String × Section Tree)}
  {content : Nat}

/-- **The branches of a block whose clauses come in the order of its phases** are those of its
sections, and one for its closing tag. -/
theorem branches_of_inOrder
    (row : Consecutive head.span.start content (head :: clauses.map Prod.snd))
    (written : kind.Written source.text clauses.reverse) (closes : content < head.span.stop)
    (closer : kind.ClosesAt source.text ⟨content, head.span.stop⟩)
    (horder : kind ≠ .cond → (clauses.map Prod.fst).Sublist kind.phases.tail) :
    (kind.construct head clauses).branches source = .ok
      ⟨(((kind.headRole, head) :: clauses).map fun visit => Branch.ofSection visit.1 visit.2) ++
        [⟨"/" ++ kind.word, ⟨content, head.span.stop⟩, []⟩], []⟩ := by
  have hadmitted := written.admitted
  rw [List.map_reverse] at hadmitted
  have hvisits := visits_of_inOrder hadmitted row horder
  have hspan := span_construct kind head clauses
  have hrow : Consecutive (kind.construct head clauses).span.start content
      ((kind.construct head clauses).visits.map Prod.snd) := by
    rw [hspan, hvisits]
    exact row
  have hbranches := Construct.branches_of_consecutive hrow
    (hspan ▸ Nat.le_of_lt closes) (hspan ▸ closer.takeWhile_eq_nil)
  rwa [hvisits, hspan, name_construct, Branch.closing, if_pos closes] at hbranches

/-- …and so are as they should be. -/
theorem normal_branches
    (opens : kind.OpensAt source.text ⟨head.span.start, head.headerEnd⟩)
    (row : Consecutive head.span.start content (head :: clauses.map Prod.snd))
    (written : kind.Written source.text clauses.reverse) (closes : content < head.span.stop)
    (closer : kind.ClosesAt source.text ⟨content, head.span.stop⟩) :
    (Tree.block kind head clauses).Normal source.text
      ⟨(((kind.headRole, head) :: clauses).map fun visit => Branch.ofSection visit.1 visit.2) ++
        [⟨"/" ++ kind.word, ⟨content, head.span.stop⟩, []⟩], []⟩ := by
  have hclosing : Branch.closing (α := Tree) kind.word content head.span.stop =
      [⟨"/" ++ kind.word, ⟨content, head.span.stop⟩, []⟩] := if_pos closes
  refine ⟨rfl, ?_, ?_, ?_⟩
  · obtain ⟨_, hopens, -⟩ := opens
    obtain ⟨_, hcloses, -⟩ := closer
    refine List.forall_mem_append.2 ⟨List.forall_mem_map.2 (List.forall_mem_cons.2
      ⟨⟨_, hopens⟩, fun clause hclause => ?_⟩), List.forall_mem_singleton.2 ⟨_, hcloses⟩⟩
    exact written.tagAt clause (List.mem_reverse.2 hclause)
  · refine List.forall_mem_append.2 ⟨List.forall_mem_map.2 fun visit _ => ?_, by simp⟩
    exact length_groups_ofSection _ _
  · rw [← hclosing]
    have hrow : Consecutive head.span.start content
        (((kind.headRole, head) :: clauses).map Prod.snd) := row
    exact hrow.abut (Nat.le_of_lt closes) kind.word

/-- **The clauses of a wait that does not catch first come in the order of its phases**, as those of
any other block do… -/
theorem inOrder_of_not_catchesFirst (h : kind.Admitted (clauses.map Prod.fst).reverse)
    (hcatch : ¬ (Tree.block kind head clauses).CatchesFirst) (hkind : kind ≠ .cond) :
    (clauses.map Prod.fst).Sublist kind.phases.tail := by
  rcases h.inOrder hkind with horder | ⟨rfl, hnames⟩
  · rwa [List.reverse_reverse] at horder
  · refine absurd ?_ hcatch
    rw [List.reverse_eq_iff] at hnames
    rw [Tree.CatchesFirst, hnames]
    exact List.Sublist.refl _

/-- …and one that does has no phase in its header and these two clauses. -/
theorem eq_of_catchesFirst (h : kind.Admitted (clauses.map Prod.fst).reverse)
    (hcatch : (Tree.block kind head clauses).CatchesFirst) :
    kind = .await none ∧ ∃ rejected fulfilled,
      clauses = [("catch", rejected), ("then", fulfilled)] := by
  match kind with
  | .cond | .each | .key | .snippet => exact hcatch.elim
  | .await shorthand =>
    have hnames : (["catch", "then"] : List String).Sublist (clauses.map Prod.fst) := hcatch
    rcases h.inOrder (by simp) with horder | ⟨hkind, heq⟩
    · rw [List.reverse_reverse] at horder
      have hphases := hnames.trans horder
      match shorthand with
      | none | some .fulfilled | some .rejected => exact absurd hphases (by decide)
    · obtain ⟨⟨_, rejected⟩, others, rfl, rfl, hothers⟩ := List.map_eq_cons_iff.1
        (List.reverse_eq_iff.1 heq)
      obtain ⟨⟨_, fulfilled⟩, rfl, rfl⟩ := List.map_eq_singleton_iff.1 hothers
      exact ⟨hkind, rejected, fulfilled, rfl⟩

/-- **A wait that catches first is refused as a whole.** -/
theorem refused_of_catchesFirst
    (opens : kind.OpensAt source.text ⟨head.span.start, head.headerEnd⟩)
    (row : Consecutive head.span.start content (head :: clauses.map Prod.snd))
    (written : kind.Written source.text clauses.reverse) (closes : content < head.span.stop)
    (closer : kind.ClosesAt source.text ⟨content, head.span.stop⟩)
    (hcatch : (Tree.block kind head clauses).CatchesFirst) :
    ∃ range token, range.stop < range.start ∧ source.slice head.span = .ok token ∧
      (kind.construct head clauses).branches source = .error ⟨.negativeBranch range, token⟩ := by
  have hadmitted := written.admitted
  rw [List.map_reverse] at hadmitted
  obtain ⟨rfl, rejected, fulfilled, rfl⟩ := eq_of_catchesFirst hadmitted hcatch
  obtain ⟨range, hneg, hpieces⟩ := pieces_of_catch_then row
  obtain ⟨token, htoken⟩ := Source.exists_slice_of_isRange (isRange_whole opens row closes closer)
  exact ⟨range, token, hneg, htoken, Construct.branches_of_error hpieces htoken⟩

end Block

/-- **A well-formed tree that is a construct has branches as they should be, or catches first** and
is refused as a whole. -/
theorem Tree.WellFormed.branches {t : Tree} (h : t.WellFormed source.text) {c : Construct Tree}
    (hc : t.construct? = some c) :
    (¬ t.CatchesFirst → ∃ row, c.branches source = .ok row ∧ t.Normal source.text row) ∧
    (t.CatchesFirst → ∃ range token, range.stop < range.start ∧
      source.slice t.span = .ok token ∧
        c.branches source = .error ⟨.negativeBranch range, token⟩) := by
  cases h with
  | special written =>
    obtain rfl := Option.some.inj hc
    obtain ⟨_, htag, -⟩ := id written
    exact ⟨fun _ => ⟨_, SpecialTag.branches_eq htag.lt, SpecialTag.normal_branches written⟩,
      fun hcatch => hcatch.elim⟩
  | block opens row inside written closes closer =>
    obtain rfl := Option.some.inj hc
    refine ⟨fun hcatch => ?_, Block.refused_of_catchesFirst opens row written closes closer⟩
    have hadmitted := written.admitted
    rw [List.map_reverse] at hadmitted
    exact ⟨_, Block.branches_of_inOrder row written closes closer
      (Block.inOrder_of_not_catchesFirst hadmitted hcatch),
      Block.normal_branches opens row written closes closer⟩
  | _ => exact absurd hc (by simp [Tree.construct?])

/-- **The only constructs of a template that have no branches are the waits that catch first**: at
any depth, they are refused as a whole, and all others have branches as they should be. -/
theorem branches_of_within {config : Config} {trees : List Tree}
    (htrees : Tree.ofText config source.text = .ok trees) {t : Tree} (ht : Within trees t)
    {c : Construct Tree} (hc : t.construct? = some c) :
    (¬ t.CatchesFirst → ∃ row, c.branches source = .ok row ∧ t.Normal source.text row) ∧
    (t.CatchesFirst → ∃ e range, c.branches source = .error e ∧ e.kind = .refused ∧
      e.cause = .negativeBranch range ∧ range.stop < range.start ∧
      source.slice t.span = .ok e.token) := by
  obtain ⟨hnormal, hrefused⟩ := (ht.wellFormed (Tree.forest_of_ofText htrees).all).branches hc
  refine ⟨hnormal, fun hcatch => ?_⟩
  obtain ⟨range, token, hneg, htoken, herror⟩ := hrefused hcatch
  exact ⟨_, range, herror, rfl, rfl, hneg, htoken⟩

/-- A wait that catches first, inside a conditional. -/
def catchingTemplate : Source :=
  .ofString "\x7b#if a\x7d\x7b#await p\x7d.\x7b:catch e\x7d\x7b:then v\x7d\x7b/await\x7d\x7b/if\x7d"

/-- The trees are a conditional around a wait that catches first. -/
def aroundWait : List Tree → Bool
  | [.block .cond ⟨_, _, [.block (.await _) _ clauses]⟩ _] =>
    ["catch", "then"].isSublist (clauses.map Prod.fst)
  | _ => false

theorem exists_of_aroundWait {trees : List Tree} (h : aroundWait trees = true) :
    ∃ span headerEnd wait clauses c, trees = [.block .cond ⟨span, headerEnd, [wait]⟩ clauses] ∧
      wait.construct? = some c ∧ wait.CatchesFirst := by
  rw [aroundWait.eq_def] at h
  split at h
  · exact ⟨_, _, _, _, _, rfl, rfl, List.isSublist_iff_sublist.1 h⟩
  · cases h

theorem branches_catchingTemplate : ∃ trees, Tree.ofText config catchingTemplate.text = .ok trees ∧
    (∃ t ∈ trees, ∃ c row, t.construct? = some c ∧ c.branches catchingTemplate = .ok row ∧
      t.Normal catchingTemplate.text row) ∧
    ∃ t c e range, Within trees t ∧ t.construct? = some c ∧ t.CatchesFirst ∧
      c.branches catchingTemplate = .error e ∧ e.kind = .refused ∧
      e.cause = .negativeBranch range ∧ range.stop < range.start ∧
      catchingTemplate.slice t.span = .ok e.token := by
  have hshape : (Tree.ofText config catchingTemplate.text).toOption.any aroundWait = true := by
    decide +kernel
  obtain ⟨trees, htrees, haround⟩ := exists_of_any hshape
  obtain ⟨span, headerEnd, wait, clauses, c, rfl, hc, hcatch⟩ := exists_of_aroundWait haround
  have houter : Within [.block .cond ⟨span, headerEnd, [wait]⟩ clauses]
      (.block .cond ⟨span, headerEnd, [wait]⟩ clauses) := .root (List.mem_singleton_self _)
  have hinner := houter.inside List.mem_cons_self (List.mem_singleton_self wait)
  obtain ⟨row, hrow, hnormal⟩ := (branches_of_within htrees houter rfl).1 not_false
  obtain ⟨e, range, hrefused⟩ := (branches_of_within htrees hinner hc).2 hcatch
  exact ⟨_, htrees, ⟨_, List.mem_singleton_self _, _, row, rfl, hrow, hnormal⟩, wait, c, e, range,
    hinner, hc, hcatch, hrefused⟩

end Markup.Svelte
