import Markup.Proofs.Construct.Visits
import Markup.Proofs.Text.Slice
import Markup.Proofs.Tiling

/-!
# Proofs/Construct/Tiling — the branches of a construct tile it

`Flow.tile_of_normalize` says of the branches of a node that they are disjoint ranges in order, that
**every position between them lies in the body of a visited section** or among the blanks before the
closing branch, and that the groups of children are those of the visited sections, each once and in
order.  Which sections are visited is read off the links (`Flow.Visits`).  The cursor carries the
proof: all before it is accounted for (`Swept`), and each visit moves it on.
-/

namespace Markup

variable {α : Type}

namespace Piece

variable {ps : List (Piece α)}

/-- The branches cover the headers of the pieces. -/
theorem map_span_gather (ps : List (Piece α)) :
    (gather ps).branches.map Branch.span = ps.filterMap header := by
  induction ps with
  | nil => rfl
  | cons p ps ih =>
    cases hp : p.header with
    | none => rw [List.filterMap_cons_none hp, ← ih]; simp [gather, hp]
    | some span => rw [List.filterMap_cons_some hp, ← ih]; simp [gather, hp]

/-- **No children are lost and none come twice**: orphans first and then branch by branch, the
groups are the children of the pieces. -/
theorem groups_gather (ps : List (Piece α)) :
    (gather ps).orphans ++ (gather ps).branches.flatMap Branch.groups =
      (ps.map children).filter fun group => !group.isEmpty := by
  induction ps with
  | nil => rfl
  | cons p ps ih =>
    rw [List.map_cons, List.filter_cons, ← ih]
    cases hp : p.header <;> cases hc : p.children.isEmpty <;> simp [gather, hp, hc]

/-- A last piece without children adds a branch without children. -/
theorem gather_concat (ps : List (Piece α)) (role : String) (span : Span) :
    gather (ps ++ [⟨role, some span, []⟩]) =
      ⟨(gather ps).branches ++ [⟨role, span, []⟩], (gather ps).orphans⟩ := by
  induction ps with
  | nil => rfl
  | cons p ps ih => cases hp : p.header <;> simp [gather, ih, hp]

end Piece

/-- **All between two offsets is accounted for** by headers and by the bodies of sections: the
headers are ranges in order, and what lies outside of them lies in a body. -/
structure Swept [Spanned α] (start stop : Nat) (sections : List (Section α))
    (headers : List Span) : Prop where
  le : start ≤ stop
  inside : ∀ header ∈ headers,
    start ≤ header.start ∧ header.start < header.stop ∧ header.stop ≤ stop
  ordered : headers.Pairwise fun header later => header.stop ≤ later.start
  covered : ∀ i, start ≤ i → i < stop → (∃ header ∈ headers, header.Contains i) ∨
    ∃ s ∈ sections, s.children ≠ [] ∧ Span.Contains ⟨s.bodyStart, s.bodyEnd⟩ i

namespace Swept

variable [Spanned α] {start mid stop : Nat} {s : Section α} {ss : List (Section α)}
  {headers : List Span}

theorem nil (start : Nat) : Swept start start ([] : List (Section α)) [] where
  le := Nat.le_refl start
  inside := by simp
  ordered := List.Pairwise.nil
  covered := fun i hi hlt => absurd hlt (Nat.not_lt.2 hi)

/-- A section without children ends where its header does. -/
theorem bodyEnd_le_of_children_eq_nil (h : s.children = []) : s.bodyEnd ≤ s.bodyStart := by
  simp [Section.bodyEnd, Section.bodyStart, h]

/-- What is swept up to an offset and from there on is swept. -/
theorem append {ts : List (Section α)} {others : List Span} (h : Swept start mid ss headers)
    (h' : Swept mid stop ts others) : Swept start stop (ss ++ ts) (headers ++ others) where
  le := Nat.le_trans h.le h'.le
  inside := by
    refine List.forall_mem_append.2 ⟨fun header hmem => ?_, fun header hmem => ?_⟩
    · obtain ⟨hlow, hlt, hhigh⟩ := h.inside header hmem
      exact ⟨hlow, hlt, Nat.le_trans hhigh h'.le⟩
    · obtain ⟨hlow, hlt, hhigh⟩ := h'.inside header hmem
      exact ⟨Nat.le_trans h.le hlow, hlt, hhigh⟩
  ordered := by
    refine List.pairwise_append.2 ⟨h.ordered, h'.ordered, fun header hmem later hlater => ?_⟩
    exact Nat.le_trans (h.inside header hmem).2.2 (h'.inside later hlater).1
  covered := by
    intro i hlow hhigh
    rcases Nat.lt_or_ge i mid with hbefore | hafter
    · rcases h.covered i hlow hbefore with ⟨header, hmem, hi⟩ | ⟨s, hmem, hs⟩
      · exact Or.inl ⟨header, List.mem_append_left _ hmem, hi⟩
      · exact Or.inr ⟨s, List.mem_append_left _ hmem, hs⟩
    · rcases h'.covered i hafter hhigh with ⟨header, hmem, hi⟩ | ⟨s, hmem, hs⟩
      · exact Or.inl ⟨header, List.mem_append_right _ hmem, hi⟩
      · exact Or.inr ⟨s, List.mem_append_right _ hmem, hs⟩

/-- A header that is left out is empty. -/
theorem header (h : start ≤ stop) : Swept start stop ([] : List (Section α))
    (if start = stop then none else some ⟨start, stop⟩ : Option Span).toList := by
  split
  · next heq => exact heq ▸ nil start
  · next hne =>
    have hlt := Nat.lt_of_le_of_ne h hne
    refine ⟨h, by simpa using hlt, List.pairwise_singleton _ _, fun i hlow hhigh => ?_⟩
    exact Or.inl ⟨_, List.mem_singleton_self _, hlow, hhigh⟩

/-- **A section's body is swept**, even if its children end before they begin. -/
theorem body (s : Section α) : Swept s.bodyStart (max s.bodyEnd s.bodyStart) [s] [] where
  le := Nat.le_max_right _ _
  inside := by simp
  ordered := List.Pairwise.nil
  covered := by
    intro i hlow hhigh
    have hin : i < s.bodyEnd := by omega
    refine Or.inr ⟨s, List.mem_singleton_self s, fun hnil => ?_, hlow, hin⟩
    have hle := bodyEnd_le_of_children_eq_nil hnil
    omega

end Swept

/-- **What it is for branches to tile a construct** of a span and a name that visits some
sections. -/
structure Branches.Tile [Spanned α] (row : Branches α) (text : List Char) (span : Span)
    (name : String) (visited : List (String × Section α)) : Prop where
  /-- Each branch is a range of its own inside the construct… -/
  inside : ∀ b ∈ row.branches,
    span.start ≤ b.span.start ∧ b.span.start < b.span.stop ∧ b.span.stop ≤ span.stop
  /-- …and ends before the next begins. -/
  ordered : row.branches.Pairwise fun b later => b.span.stop ≤ later.span.start
  /-- The closing branch comes last, if there is one, and between the branches lie bodies of visited
  sections and the blanks that run up to the closing branch or the end. -/
  covered : ∃ (headers : List (Branch α)) (closing : Option (Branch α)),
    row.branches = headers ++ closing.toList ∧
    (∀ b ∈ closing, b.role = "/" ++ name ∧ b.span.stop = span.stop ∧ b.groups = []) ∧
    ∀ i, span.Contains i → (∃ b ∈ row.branches, b.span.Contains i) ∨
      (∃ visit ∈ visited, visit.2.children ≠ [] ∧
        Span.Contains ⟨visit.2.bodyStart, visit.2.bodyEnd⟩ i) ∨
      ∃ start blanks, Span.Contains ⟨start, (closing.map (·.span.start)).getD span.stop⟩ i ∧
        Text.slice? start ((closing.map (·.span.start)).getD span.stop) text = some blanks ∧
        blanks.all Text.isBlank
  /-- Orphans first and then branch by branch, the groups are the children of the visited sections
  that have any. -/
  groups_eq : row.orphans ++ row.branches.flatMap Branch.groups =
    (visited.map fun visit => visit.2.children).filter fun group => !group.isEmpty

namespace Construct

variable [Spanned α] {cursor last stop : Nat} {text : List Char} {name : String}
  {visits : List (String × Section α)} {ps : List (Piece α)} {closed : Option (Piece α)}

/-- **One visit**: the body of the section must not begin before the cursor, its piece has the text
in between for a header, and the cursor moves behind the body. -/
theorem pieces_cons {role : String} {s : Section α}
    (h : pieces cursor ((role, s) :: visits) = .ok (ps, last)) :
    cursor ≤ s.bodyStart ∧ ∃ after, pieces (max s.bodyEnd s.bodyStart) visits = .ok (after, last) ∧
      ps = ⟨role, if cursor = s.bodyStart then none else some ⟨cursor, s.bodyStart⟩, s.children⟩
        :: after := by
  simp only [pieces] at h
  split at h
  · simp at h
  · next hle =>
    obtain ⟨⟨after, last'⟩, hafter, h⟩ := Except.bind_eq_ok.1 h
    obtain ⟨rfl, rfl⟩ : _ = ps ∧ last' = last := by simpa [pure, Except.pure] using h
    exact ⟨Nat.not_lt.1 hle, after, hafter, rfl⟩

/-- **The pieces sweep all that the cursor passes.** -/
theorem swept_of_pieces (h : pieces cursor visits = .ok (ps, last)) :
    Swept cursor last (visits.map Prod.snd) (ps.filterMap Piece.header) := by
  induction visits generalizing cursor ps with
  | nil =>
    obtain ⟨rfl, rfl⟩ : [] = ps ∧ cursor = last := by simpa [pieces] using h
    exact Swept.nil cursor
  | cons visit visits ih =>
    obtain ⟨role, s⟩ := visit
    obtain ⟨hle, after, hafter, rfl⟩ := pieces_cons h
    have hswept := (Swept.header hle).append ((Swept.body s).append (ih hafter))
    rw [List.map_cons, List.filterMap_cons]
    split <;> simp_all

/-- Each piece keeps the children of its section. -/
theorem children_of_pieces (h : pieces cursor visits = .ok (ps, last)) :
    ps.map Piece.children = visits.map fun visit => visit.2.children := by
  induction visits generalizing cursor ps with
  | nil =>
    obtain ⟨rfl, -⟩ : [] = ps ∧ cursor = last := by simpa [pieces] using h
    rfl
  | cons visit visits ih =>
    obtain ⟨role, s⟩ := visit
    obtain ⟨-, after, hafter, rfl⟩ := pieces_cons h
    rw [List.map_cons, List.map_cons, ih hafter]

omit [Spanned α] in
/-- **What closes a construct**: blanks, and a closing piece that runs to the end unless they do. -/
theorem closing_eq_ok (h : closing text name cursor stop = .ok closed) :
    ∃ start blanks, cursor ≤ start ∧ start ≤ stop ∧ blanks.all Text.isBlank ∧
      (cursor < start → Text.slice? cursor start text = some blanks) ∧
      closed = if start < stop then some ⟨"/" ++ name, some ⟨start, stop⟩, []⟩ else none := by
  simp only [closing] at h
  split at h
  · simp at h
  · next hle =>
    cases hslice : Text.slice? cursor stop text with
    | none =>
      rw [hslice] at h
      exact ⟨cursor, [], Nat.le_refl cursor, Nat.not_lt.1 hle, rfl, fun hlt => absurd hlt (by simp),
        (Except.ok.inj h).symm⟩
    | some trailing =>
      rw [hslice, Option.getD_some] at h
      rw [← List.takeWhile_append_dropWhile (p := Text.isBlank) (l := trailing)] at hslice
      obtain ⟨hblanks, hle⟩ := Text.slice?_of_append hslice
      exact ⟨_, _, Nat.le_add_right cursor _, hle, List.all_takeWhile, fun _ => hblanks,
        (Except.ok.inj h).symm⟩

/-- A branch of gathered pieces is a range of its own before the cursor… -/
theorem branch_inside (h : pieces cursor visits = .ok (ps, last)) {b : Branch α}
    (hb : b ∈ (Piece.gather ps).branches) :
    cursor ≤ b.span.start ∧ b.span.start < b.span.stop ∧ b.span.stop ≤ last := by
  refine (swept_of_pieces h).inside b.span ?_
  rw [← Piece.map_span_gather]
  exact List.mem_map_of_mem hb

/-- …ends before the next begins… -/
theorem branches_ordered (h : pieces cursor visits = .ok (ps, last)) :
    (Piece.gather ps).branches.Pairwise fun b later => b.span.stop ≤ later.span.start := by
  have hordered := (swept_of_pieces h).ordered
  rw [← Piece.map_span_gather] at hordered
  exact List.pairwise_map.1 hordered

/-- …and what the branches leave out lies in the bodies of visited sections. -/
theorem branches_covered (h : pieces cursor visits = .ok (ps, last)) {i : Nat} (hlow : cursor ≤ i)
    (hhigh : i < last) : (∃ b ∈ (Piece.gather ps).branches, b.span.Contains i) ∨
      ∃ visit ∈ visits, visit.2.children ≠ [] ∧
        Span.Contains ⟨visit.2.bodyStart, visit.2.bodyEnd⟩ i := by
  have hcovered := (swept_of_pieces h).covered i hlow hhigh
  rw [← Piece.map_span_gather] at hcovered
  rcases hcovered with ⟨header, hmem, hheader⟩ | ⟨s, hmem, hbody⟩
  · obtain ⟨b, hb, rfl⟩ := List.mem_map.1 hmem
    exact Or.inl ⟨b, hb, hheader⟩
  · obtain ⟨visit, hvisit, rfl⟩ := List.mem_map.1 hmem
    exact Or.inr ⟨visit, hvisit, hbody⟩

/-- The groups of gathered pieces are the children of the visited sections that have any. -/
theorem groups_of_pieces (h : pieces cursor visits = .ok (ps, last)) :
    (Piece.gather ps).orphans ++ (Piece.gather ps).branches.flatMap Branch.groups =
      (visits.map fun visit => visit.2.children).filter fun group => !group.isEmpty := by
  rw [Piece.groups_gather, children_of_pieces h]

/-- **Branches are the gathered pieces of the visits and of what closes the construct.** -/
theorem branches_eq_ok {c : Construct α} {source : Source} {row : Branches α}
    (h : c.branches source = .ok row) :
    ∃ opened cursor closed, pieces c.span.start c.visits = .ok (opened, cursor) ∧
      closing source.text c.name cursor c.span.stop = .ok closed ∧
      row = Piece.gather (opened ++ closed.toList) := by
  rw [branches] at h
  split at h
  · next all hall =>
    obtain ⟨⟨opened, cursor⟩, hopened, hall⟩ := Except.bind_eq_ok.1 hall
    obtain ⟨closed, hclosed, hall⟩ := Except.bind_eq_ok.1 hall
    obtain rfl : opened ++ closed.toList = all := by simpa [pure, Except.pure] using hall
    exact ⟨opened, cursor, closed, hopened, hclosed, (Except.ok.inj h).symm⟩
  · obtain ⟨token, -, h⟩ := Except.bind_eq_ok.1 h
    simp at h

/-- What comes before the blanks' end lies in a branch, in a body or among the blanks. -/
theorem covered_of_pieces {start : Nat} {blanks : List Char}
    (h : pieces cursor visits = .ok (ps, last)) (hblank : blanks.all Text.isBlank)
    (hslice : last < start → Text.slice? last start text = some blanks) {i : Nat}
    (hlow : cursor ≤ i) (hhigh : i < start) :
    (∃ b ∈ (Piece.gather ps).branches, b.span.Contains i) ∨
      (∃ visit ∈ visits, visit.2.children ≠ [] ∧
        Span.Contains ⟨visit.2.bodyStart, visit.2.bodyEnd⟩ i) ∨
      ∃ first blanks, Span.Contains ⟨first, start⟩ i ∧
        Text.slice? first start text = some blanks ∧ blanks.all Text.isBlank := by
  rcases Nat.lt_or_ge i last with hbefore | hafter
  · rcases branches_covered h hlow hbefore with hbranch | hbody
    · exact Or.inl hbranch
    · exact Or.inr (Or.inl hbody)
  · have hlt := Nat.lt_of_le_of_lt hafter hhigh
    exact Or.inr (Or.inr ⟨last, blanks, ⟨hafter, hhigh⟩, hslice hlt, hblank⟩)

/-- Branches tile a construct that is closed by one more… -/
theorem tile_concat {span : Span} {start : Nat} {blanks : List Char}
    (hopened : pieces span.start visits = .ok (ps, last)) (hlow : last ≤ start)
    (hlt : start < span.stop) (hblank : blanks.all Text.isBlank)
    (hslice : last < start → Text.slice? last start text = some blanks) :
    (Piece.gather (ps ++ [⟨"/" ++ name, some ⟨start, span.stop⟩, []⟩])).Tile text span name
      visits := by
  rw [Piece.gather_concat]
  refine ⟨?_, ?_, ⟨_, some ⟨"/" ++ name, ⟨start, span.stop⟩, []⟩, rfl, by simp, ?_⟩, ?_⟩
  · refine List.forall_mem_append.2 ⟨fun b hb => ?_, List.forall_mem_singleton.2 ?_⟩
    · obtain ⟨hfrom, hpos, hto⟩ := branch_inside hopened hb
      exact ⟨hfrom, hpos, Nat.le_trans hto (Nat.le_trans hlow (Nat.le_of_lt hlt))⟩
    · exact ⟨Nat.le_trans (swept_of_pieces hopened).le hlow, hlt, Nat.le_refl _⟩
  · refine List.pairwise_append.2
      ⟨branches_ordered hopened, List.pairwise_singleton _ _, fun b hb later hlater => ?_⟩
    obtain rfl := List.mem_singleton.1 hlater
    exact Nat.le_trans (branch_inside hopened hb).2.2 hlow
  · intro i hi
    rcases Nat.lt_or_ge i start with hbefore | hafter
    · rcases covered_of_pieces hopened hblank hslice hi.1 hbefore with ⟨b, hb, hbranch⟩ | hrest
      · exact Or.inl ⟨b, List.mem_append_left _ hb, hbranch⟩
      · exact Or.inr hrest
    · exact Or.inl ⟨_, List.mem_append_right _ List.mem_cons_self, hafter, hi.2⟩
  · rw [List.flatMap_append, ← List.append_assoc, groups_of_pieces hopened]
    simp

/-- …and one that ends with blanks. -/
theorem tile_gather {span : Span} {blanks : List Char}
    (hopened : pieces span.start visits = .ok (ps, last)) (hlow : last ≤ span.stop)
    (hblank : blanks.all Text.isBlank)
    (hslice : last < span.stop → Text.slice? last span.stop text = some blanks) :
    (Piece.gather ps).Tile text span name visits := by
  refine ⟨fun b hb => ?_, branches_ordered hopened, ⟨_, none, (List.append_nil _).symm, by simp,
    fun i hi => ?_⟩, groups_of_pieces hopened⟩
  · obtain ⟨hfrom, hpos, hto⟩ := branch_inside hopened hb
    exact ⟨hfrom, hpos, Nat.le_trans hto hlow⟩
  · exact covered_of_pieces hopened hblank hslice hi.1 hi.2

/-- **The branches of a construct tile it.** -/
theorem tile_of_branches {c : Construct α} {source : Source} {row : Branches α}
    (h : c.branches source = .ok row) : row.Tile source.text c.span c.name c.visits := by
  obtain ⟨opened, cursor, closed, hopened, hclosed, rfl⟩ := branches_eq_ok h
  obtain ⟨start, blanks, hlow, hhigh, hblank, hslice, rfl⟩ := closing_eq_ok hclosed
  by_cases hlt : start < c.span.stop
  · rw [if_pos hlt]
    exact tile_concat hopened hlow hlt hblank hslice
  · obtain rfl : start = c.span.stop := Nat.le_antisymm hhigh (Nat.not_lt.1 hlt)
    rw [if_neg hlt, Option.toList_none, List.append_nil]
    exact tile_gather hopened hlow hblank hslice

end Construct

namespace Flow

variable [Spanned α]

/-- **A node with branches is a construct, and they are the construct's.** -/
theorem normalize_eq_ok {n : Flow α} {source : Source} {row : Branches α}
    (h : n.normalize source = .ok (some row)) :
    ∃ c, n.construct? = some c ∧ c.branches source = .ok row := by
  rw [normalize] at h
  split at h
  · cases h
  · next c hc =>
    obtain ⟨found, hfound, hrow⟩ := Except.map_eq_ok.1 h
    cases hrow
    exact ⟨c, hc, hfound⟩

/-- **The branches of a node tile it**, with the bodies of the visited sections in between. -/
theorem tile_of_normalize {n : Flow α} {source : Source} {row : Branches α}
    (h : n.normalize source = .ok (some row)) :
    (∃ name visited, n.Visits name visited) ∧
    ∀ {name visited}, n.Visits name visited →
      row.Tile source.text n.content.span name visited := by
  obtain ⟨c, hc, hbranches⟩ := normalize_eq_ok h
  refine ⟨⟨_, _, visits_iff.2 ⟨c, hc, rfl, rfl⟩⟩, fun {name visited} hvisits => ?_⟩
  obtain ⟨_, hc', rfl, rfl⟩ := visits_iff.1 hvisits
  obtain rfl := Option.some.inj (hc.symm.trans hc')
  rw [← span_of_construct? hc]
  exact Construct.tile_of_branches hbranches

/-- The sections of a conditional: two under further conditions and a last one.  The first further
condition begins inside its own header, so that its children go to the branch before it. -/
def chainedVisits : List (String × Section Span) :=
  [("if", ⟨⟨0, 25⟩, 3, [⟨3, 4⟩]⟩), ("elseif", ⟨⟨4, 19⟩, 8, [⟨4, 5⟩, ⟨8, 9⟩]⟩),
    ("elseif", ⟨⟨9, 19⟩, 13, [⟨13, 14⟩]⟩), ("else", ⟨⟨14, 19⟩, 18, [⟨18, 19⟩]⟩)]

/-- The same as a tree links them, each behind the one before. -/
def chained : Flow Span :=
  .node ⟨⟨0, 25⟩, 3, [⟨3, 4⟩]⟩ (some .conditional)
    (some (.node ⟨⟨4, 19⟩, 4, []⟩ none none
      (some (.node ⟨⟨4, 19⟩, 8, [⟨4, 5⟩, ⟨8, 9⟩]⟩ (some .conditional)
        (some (.node ⟨⟨9, 19⟩, 9, []⟩ none none
          (some (.node ⟨⟨9, 19⟩, 13, [⟨13, 14⟩]⟩ (some .conditional)
            (some (.node ⟨⟨14, 19⟩, 18, [⟨18, 19⟩]⟩ none none none []))
          none [])) []))
      none [])) []))
    none []

/-- None of the alternatives is lost; there are blanks before the closing tag. -/
theorem tile_chained : chained.Visits "if" chainedVisits ∧
    Branches.Tile
      ⟨[⟨"if", ⟨0, 3⟩, [[⟨3, 4⟩], [⟨4, 5⟩, ⟨8, 9⟩]]⟩, ⟨"elseif", ⟨9, 13⟩, [[⟨13, 14⟩]]⟩,
        ⟨"else", ⟨14, 18⟩, [[⟨18, 19⟩]]⟩, ⟨"/if", ⟨21, 25⟩, []⟩], []⟩
      "{?}ax{:}b{:c}d{::}e 	{/?}".toList ⟨0, 25⟩ "if"
      chainedVisits := by
  have hvisits : chained.Visits "if" chainedVisits :=
    .conditional rfl (.elseIf (.elseIf .otherwise))
  have hnormalize : chained.normalize
      (Source.ofString "{?}ax{:}b{:c}d{::}e 	{/?}") = .ok (some
        ⟨[⟨"if", ⟨0, 3⟩, [[⟨3, 4⟩], [⟨4, 5⟩, ⟨8, 9⟩]]⟩, ⟨"elseif", ⟨9, 13⟩, [[⟨13, 14⟩]]⟩,
          ⟨"else", ⟨14, 18⟩, [[⟨18, 19⟩]]⟩, ⟨"/if", ⟨21, 25⟩, []⟩], []⟩) := rfl
  exact ⟨hvisits, (tile_of_normalize hnormalize).2 hvisits⟩

end Flow

end Markup
