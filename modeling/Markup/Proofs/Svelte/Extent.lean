import Markup.Proofs.Svelte.Refusal

/-!
# Proofs/Svelte/Extent — what is in the tree of a template lies side by side

The tags of a template leave no gap: the children of an element run from its start tag to its end
tag, and the sections of a block follow each other up to the tag that closes it (`Tree.Contiguous`).
Where a section **ends** is settled only when its block is closed: with its body, or, for a further
alternative, with the last section of the block (`Tree.EndsWithBodies`, kept by every lexeme in
`Growth.Settled.step`).
-/

namespace Markup.Svelte

variable {source : List Char} {kind : Block}

/-! ## Trees whose parts lie side by side -/

/-- **Alternatives that hang one behind the other**: none; one without a condition, which ends with
its body and has none behind it; or one under a condition, which ends with the last of those behind
it. -/
inductive Alternatives (stop : Nat) : Nat → List (String × Section Tree) → Prop
  | none : Alternatives stop stop []
  | otherwise {start : Nat} {s : Section Tree} (spans : s.Spans start stop stop) :
      Alternatives stop start [("else", s)]
  | elseIf {start mid : Nat} {s : Section Tree} {others : List (String × Section Tree)}
      (spans : s.Spans start mid stop) (behind : Alternatives stop mid others) :
      Alternatives stop start (("elseif", s) :: others)

/-- **Phases that follow each other**, each of which ends with its body. -/
inductive Phases (stop : Nat) : Nat → List (String × Section Tree) → Prop
  | none : Phases stop stop []
  | phase {start mid : Nat} {name : String} {s : Section Tree}
      {others : List (String × Section Tree)} (spans : s.Spans start mid mid)
      (behind : Phases stop mid others) : Phases stop start ((name, s) :: others)

/-- **The clauses of a block cover a range**: as alternatives if it is conditional, and as phases
otherwise, no two of one name and each one that the header leaves open. -/
def Block.Branches (kind : Block) (start stop : Nat) (clauses : List (String × Section Tree)) :
    Prop :=
  match kind with
  | .cond => Alternatives stop start clauses
  | _ => Phases stop start clauses ∧ (clauses.map Prod.fst).Nodup ∧
      clauses.map Prod.fst ⊆ kind.phases.tail

namespace Tree

/-- Where the tag ends that a tree begins with; a tree of one tag or text ends there itself. -/
def headerEnd : Tree → Nat
  | .special _ content => content.headerEnd
  | .block _ head _ => head.headerEnd
  | .element _ _ startTagEnd _ _ => startTagEnd
  | .text span | .comment span | .mustache span | .strayClause span => span.stop

/-- **What is inside a tree lies side by side**, from its header to what closes it. -/
def Filled (source : List Char) : Tree → Prop
  | .text _ | .comment _ | .mustache _ => True
  | .special _ content => content.headerEnd = content.span.stop ∧ content.children = []
  | .element _ span startTagEnd endTag children =>
    (endTag = none → children = []) ∧
      ∃ content, Tiled startTagEnd content children ∧ Closes content span.stop endTag
  | .block kind head clauses =>
    ∃ mid content, Tiled head.headerEnd mid head.children ∧ kind.Branches mid content clauses ∧
      content < head.span.stop ∧ kind.ClosesAt source ⟨content, head.span.stop⟩
  | .strayClause _ => False

/-- **A tree that is covered by its header and by what is inside it.** -/
structure Contiguous (source : List Char) (t : Tree) : Prop where
  header : t.span.start < t.headerEnd
  le : t.headerEnd ≤ t.span.stop
  filled : t.Filled source

/-- **The clauses of a block end with their bodies**, and further alternatives with the last
section; and no clause stands outside of a block. -/
def EndsWithBodies : Tree → Prop
  | .block _ head clauses => ∀ clause ∈ clauses, clause.2.span.stop =
      if clause.1 = "elseif" then Block.contentEnd head clauses else clause.2.bodyEnd
  | .strayClause _ => False
  | _ => True

end Tree

/-! ## Where the sections end -/

/-- The clauses before the section at hand end with their bodies. -/
def Opener.Settled : Opener → Prop
  | .clause _ _ done _ _ => ∀ clause ∈ done, clause.2.span.stop = clause.2.bodyEnd
  | _ => True

namespace Level

variable {l : Level} {first start mid stop : Nat} {names : List String}

/-- **The section at hand ends with its body, too.** -/
theorem Covers.settled (h : l.Covers source start mid) (hsettled : l.opener.Settled) :
    ∀ clause ∈ l.clauses mid, clause.2.span.stop = clause.2.bodyEnd := by
  have hlast : mid = (l.toSection mid).bodyEnd := (Section.bodyEnd_eq_of_tiled h.inside.tiled).symm
  obtain ⟨opener, children⟩ := l
  cases opener with
  | element | block => exact fun clause hclause => absurd hclause List.not_mem_nil
  | clause =>
    rw [clauses_clause, List.forall_mem_append]
    exact ⟨fun clause hclause => hsettled clause (List.mem_reverse.1 hclause),
      List.forall_mem_singleton.2 hlast⟩

theorem Covers.settled_beginClause (h : l.Covers source start mid) (hsettled : l.opener.Settled)
    (hcontext : l.opener.context = .block kind first names) (name : String) :
    (l.beginClause name ⟨mid, stop⟩).opener.Settled := by
  rw [beginClause_eq hcontext]
  exact fun clause hclause => h.settled hsettled clause (List.mem_reverse.1 hclause)

/-- **A block that is closed ends with its bodies.** -/
theorem Covers.endsWithBodies_close (h : l.Covers source start mid) (hsettled : l.opener.Settled)
    {head : Section Tree} {clauses : List (String × Section Tree)}
    (hclose : l.close ⟨mid, stop⟩ = .block kind head clauses) :
    (Tree.block kind head clauses).EndsWithBodies := by
  cases hcontext : l.opener.context with
  | block kind first names =>
    obtain ⟨-, hrow, -, -⟩ := h.sections hcontext mid
    obtain rfl := hrow.1
    rw [close_eq hcontext] at hclose
    obtain ⟨-, rfl, rfl⟩ := Tree.block.inj hclose
    have hcontent : Block.contentEnd (extend stop (l.headSection mid))
        ((l.clauses mid).map (reach mid)) = mid :=
      (consecutive_reach hrow mid stop).bodyEnd_getLast _
    refine List.forall_mem_map.2 fun clause hclause => ?_
    have hbody : (reach mid clause).2.bodyEnd = clause.2.bodyEnd := by
      obtain ⟨-, -, hheader, hchildren⟩ := reach_eq mid clause
      rw [Section.bodyEnd, Section.bodyEnd, hheader, hchildren]
    rw [hcontent, hbody, (reach_eq mid clause).1, reach]
    split
    · rfl
    · exact h.settled hsettled clause hclause
  | _ =>
    obtain ⟨opener, children⟩ := l
    cases opener with
    | element => cases hclose
    | _ => cases hcontext

end Level

namespace Growth

variable {g : Growth} {config : Config}

/-- **A growth in which all sections end where they should**, those of open blocks included. -/
structure Settled (source : List Char) (g : Growth) : Prop where
  covers : g.Covers source g.offset
  every : g.Every Tree.EndsWithBodies
  opened : ∀ opener ∈ g.stack.map Level.opener, opener.Settled

/-- What is added changes nothing that is open. -/
theorem opener_add (g : Growth) (t : Tree) :
    (g.add t).stack.map Level.opener = g.stack.map Level.opener := by
  obtain ⟨offset, roots, stack⟩ := g
  cases stack <;> rfl

/-- What a lexeme adds has no clauses. -/
theorem adds_endsWithBodies {lexeme : Lexeme} {context : Context} {offset : Nat} :
    lexeme.Adds Tree.EndsWithBodies context offset := by
  cases lexeme with
  | rawElement => exact every_rawElement trivial trivial
  | closer => exact fun _ _ _ _ => trivial
  | _ => trivial

/-- **A lexeme leaves open only what is settled.** -/
theorem Settled.opened_step (h : g.Settled source) {lexeme : Lexeme}
    (hfits : lexeme.Fits g.context) :
    ∀ opener ∈ (g.step lexeme).stack.map Level.opener, opener.Settled := by
  obtain ⟨hcovers, -, hopened⟩ := h
  cases lexeme with
  | text | comment | mustache | special | closedTag | rawElement =>
    exact fun opener hopener => hopened opener (opener_add g _ ▸ hopener)
  | openTag | openBlock => exact List.forall_mem_cons.2 ⟨trivial, hopened⟩
  | clause name raw =>
    obtain ⟨kind, first, names, header, hcontext, -⟩ := hfits
    obtain ⟨offset, roots, stack⟩ := g
    cases hcovers with
    | nil => simp [context] at hcontext
    | cons before level =>
      obtain ⟨hl, houter⟩ := List.forall_mem_cons.1 hopened
      exact List.forall_mem_cons.2 ⟨level.settled_beginClause hl hcontext name, houter⟩
  | closer raw =>
    obtain ⟨offset, roots, stack⟩ := g
    cases stack with
    | nil => exact hopened
    | cons l outer =>
      intro opener hopener
      have houter := opener_add { offset, roots, stack := outer }
        (l.close ⟨offset, offset + Text.byteSize raw⟩) ▸ hopener
      exact hopened opener (List.mem_cons_of_mem _ houter)

/-- **Growing by a lexeme keeps all sections settled.** -/
theorem Settled.step (h : g.Settled source) {cs rest : List Char} {lexeme : Lexeme} (hne : cs ≠ [])
    (hrest : Text.dropBytes? g.offset source = some cs)
    (hnext : Lexeme.next config g.context g.offset cs = .ok (lexeme, rest)) :
    (g.step lexeme).Settled source where
  covers := covers_of_next h.covers hne hrest hnext
  every := h.every.step adds_endsWithBodies fun l outer hstack kind head clauses hclose => by
    obtain ⟨hcovers, -, hopened⟩ := h
    obtain ⟨offset, roots, stack⟩ := g
    obtain rfl : stack = l :: outer := hstack
    cases hcovers with
    | cons before level =>
      exact level.endsWithBodies_close (hopened _ List.mem_cons_self) hclose
  opened := h.opened_step (Lexeme.fits_of_next hnext hne)

end Growth

/-- **The sections of a template end where they should**, at any depth. -/
theorem Tree.endsWithBodies_of_ofText {config : Config} {trees : List Tree}
    (h : Tree.ofText config source = .ok trees) : ∀ t ∈ trees, t.Every Tree.EndsWithBodies := by
  have hstart : Growth.Settled source {} :=
    ⟨Stacked.nil (Forest.nil 0), ⟨by simp, by simp⟩, by simp⟩
  obtain ⟨last, hsettled, -, hfinish⟩ := exists_of_ofText (Growth.Settled source)
    (fun _ _ _ _ hg hne hrest hnext => hg.step hne hrest hnext) hstart h
  exact hsettled.every.finish hfinish

/-! ## The clauses of a block -/

variable {clauses : List (String × Section Tree)} {start mid stop : Nat}

/-- **Sections that end with their bodies are phases.** -/
theorem Phases.of_consecutive (row : Consecutive start stop (clauses.map Prod.snd))
    (hends : ∀ clause ∈ clauses, clause.2.span.stop = clause.2.bodyEnd) :
    Phases stop start clauses := by
  induction clauses generalizing start with
  | nil =>
    obtain rfl : start = stop := row
    exact .none
  | cons clause clauses ih =>
    obtain ⟨hfirst, hothers⟩ := List.forall_mem_cons.1 hends
    obtain ⟨hrest, hspans⟩ := Consecutive.spans row
    have hphase := hspans (Nat.le_of_eq hfirst.symm)
    rw [hfirst] at hphase
    exact .phase hphase (ih hrest hothers)

/-- **Sections that end where all of them do are alternatives** before others. -/
theorem Alternatives.append {elseIfs others : List (String × Section Tree)}
    (row : Consecutive start mid (elseIfs.map Prod.snd))
    (hnames : ∀ name ∈ elseIfs.map Prod.fst, name = "elseif")
    (hends : ∀ clause ∈ elseIfs, clause.2.span.stop = stop) (hle : mid ≤ stop)
    (behind : Alternatives stop mid others) : Alternatives stop start (elseIfs ++ others) := by
  induction elseIfs generalizing start with
  | nil =>
    obtain rfl : start = mid := row
    exact behind
  | cons clause elseIfs ih =>
    obtain ⟨name, s⟩ := clause
    obtain ⟨rfl, hothers⟩ := List.forall_mem_cons.1 hnames
    obtain ⟨rfl, hstops⟩ := List.forall_mem_cons.1 hends
    obtain ⟨hrest, hspans⟩ := Consecutive.spans row
    exact .elseIf (hspans (Nat.le_trans hrest.le hle)) (ih hrest hothers hstops)

/-- **The clauses of a block branch off it**, if they are admitted and end where they should. -/
theorem Block.branches_of_consecutive (h : kind.Admitted (clauses.map Prod.fst).reverse)
    (row : Consecutive start stop (clauses.map Prod.snd))
    (hends : ∀ clause ∈ clauses, clause.2.span.stop =
      if clause.1 = "elseif" then stop else clause.2.bodyEnd) :
    kind.Branches start stop clauses := by
  have hphased : kind ≠ .cond → Phases stop start clauses ∧ (clauses.map Prod.fst).Nodup ∧
      clauses.map Prod.fst ⊆ kind.phases.tail := by
    intro hkind
    obtain ⟨hnodup, hsubset⟩ := h.nodup_and_subset hkind
    rw [(List.reverse_perm _).nodup_iff] at hnodup
    replace hsubset : clauses.map Prod.fst ⊆ kind.phases.tail :=
      fun name hname => hsubset (List.mem_reverse.2 hname)
    have hplain : "elseif" ∉ kind.phases.tail := by
      rcases kind with _ | _ | (_ | _ | _) | _ | _ <;> decide
    refine ⟨.of_consecutive row fun clause hclause => ?_, hnodup, hsubset⟩
    rw [hends clause hclause, if_neg]
    exact fun hname => hplain (hname ▸ hsubset (List.mem_map_of_mem hclause))
  cases kind with
  | cond =>
    obtain ⟨elseIfs, last, rfl, hnames, hlast⟩ := h.exists_elseIfs
    rw [List.map_append] at row
    obtain ⟨mid, hbefore, hbehind⟩ := Consecutive.append_iff.1 row
    obtain ⟨hstops, hother⟩ := List.forall_mem_append.1 hends
    refine Alternatives.append hbefore hnames (fun clause hclause => ?_) hbehind.le ?_
    · rw [hstops clause hclause, if_pos (hnames _ (List.mem_map_of_mem hclause))]
    · rcases hlast with rfl | ⟨s, rfl⟩
      · obtain rfl : mid = stop := hbehind
        exact .none
      · obtain ⟨hend, hspans⟩ := Consecutive.spans hbehind
        obtain rfl : s.bodyEnd = stop := hend
        have hstop : s.span.stop = s.bodyEnd := hother _ List.mem_cons_self
        have hlast := hspans (Nat.le_of_eq hstop.symm)
        rw [hstop] at hlast
        exact .otherwise hlast
  | _ => exact hphased (by simp)

/-! ## Whole templates -/

/-- **A well-formed tree is filled**, if its sections end where they should. -/
theorem Tree.WellFormed.filled {t : Tree} (h : t.WellFormed source) (hends : t.EndsWithBodies) :
    t.Filled source := by
  cases h with
  | text | comment | mustache => trivial
  | special => exact ⟨rfl, rfl⟩
  | element startTag written closed empty row inside closes => exact ⟨empty, _, row, closes⟩
  | @block kind head clauses content opens row inside written closes closer =>
    have hcontent : Block.contentEnd head clauses = content := row.bodyEnd_getLast _
    have hadmitted := written.admitted
    rw [List.map_reverse] at hadmitted
    obtain ⟨-, -, mid, hhead, hclauses⟩ := row
    refine ⟨mid, content, hhead, Block.branches_of_consecutive hadmitted hclauses ?_, closes,
      closer⟩
    rw [← hcontent]
    exact hends

/-- …and contiguous, if it is not empty. -/
theorem Tree.WellFormed.contiguous {t : Tree} (h : t.WellFormed source) (hends : t.EndsWithBodies)
    (hlt : t.span.start < t.span.stop) : t.Contiguous source := by
  have hfilled := h.filled hends
  cases h with
  | text | comment | mustache | special => exact ⟨hlt, Nat.le_refl _, hfilled⟩
  | element startTag written closed empty row inside closes =>
    exact ⟨startTag, Nat.le_trans row.le closes.le, hfilled⟩
  | block opens row inside written closes closer =>
    obtain ⟨-, hheader, mid, hhead, hclauses⟩ := row
    have hle := Nat.le_trans hhead.le (Nat.le_trans hclauses.le (Nat.le_of_lt closes))
    exact ⟨hheader, hle, hfilled⟩

theorem Within.contiguous {config : Config} {trees : List Tree} {t : Tree}
    (htrees : Tree.ofText config source = .ok trees) (h : Within trees t) :
    t.Contiguous source := by
  have hforest := Tree.forest_of_ofText htrees
  obtain ⟨hends, -⟩ := h.every (Tree.endsWithBodies_of_ofText htrees)
  exact (h.wellFormed hforest.all).contiguous hends (h.lt hforest)

/-- **Reading ends, and what is read covers the template**, whatever the dialect has for opaque
content: the roots run from its beginning to its end, and at any depth what is inside lies side by
side.  A template that is not read is refused, in the dialect itself at a range of its text. -/
theorem Tree.contiguous_of_ofText (config : Config) (text : List Char) :
    (∃ trees, ofText config text = .ok trees ∧ Tiled 0 (Text.byteSize text) trees ∧
      ∀ t, Within trees t → t.Contiguous text) ∨
    ∃ r, ofText config text = .error r ∧ (config = Svelte.config → r.PointsInto text) := by
  cases htrees : ofText config text with
  | ok trees =>
    exact Or.inl ⟨trees, rfl, (forest_of_ofText htrees).tiled, fun t ht => ht.contiguous htrees⟩
  | error r =>
    refine Or.inr ⟨r, rfl, ?_⟩
    rintro rfl
    exact pointsInto_of_ofText htrees

-- The further alternative ends with the last section, and that with its body.
example : (Tree.ofText config
    "\x7b#if a\x7db\x7b:else if c\x7dd\x7b:else\x7d\x7be\x7d\x7b/if\x7d".toList).toOption.map
    (List.map fun
      | .block _ _ clauses => clauses.map fun clause => (clause.1, clause.2.span)
      | _ => []) = some [[("elseif", ⟨8, 31⟩), ("else", ⟨21, 31⟩)]] := by
  decide +kernel

end Markup.Svelte
