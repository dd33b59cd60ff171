import Markup.Proofs.Construct.Tiling

/-!
# Proofs/Construct/Sections — sections that follow each other

`Consecutive a b ss` says that the headers and the children of the sections run **from `a` to `b`
without a gap**.  Visited in this order, every section opens a branch with its header
(`Construct.branches_of_consecutive`), so no children are orphans, and the branches with their
children cover the construct without a gap, too (`Consecutive.abut`).
-/

namespace Markup

variable {α β : Type} [Spanned α] [Spanned β]

/-- **The sections cover the range between two offsets**: each has a header where the last one
ended, and its children follow at once. -/
def Consecutive : Nat → Nat → List (Section α) → Prop
  | start, stop, [] => start = stop
  | start, stop, s :: ss => s.span.start = start ∧ start < s.headerEnd ∧
      ∃ mid, Tiled s.headerEnd mid s.children ∧ Consecutive mid stop ss

/-- **A section with its own end**: it begins with its header, which is not empty, its body follows,
and none of that lies behind the end. -/
structure Section.Spans (s : Section α) (start bodyEnd stop : Nat) : Prop where
  span : s.span = ⟨start, stop⟩
  header : start < s.headerEnd
  body : Tiled s.headerEnd bodyEnd s.children
  le : bodyEnd ≤ stop

namespace Consecutive

variable {start mid stop : Nat} {s : Section α} {ss others : List (Section α)}

theorem append_iff : Consecutive start stop (ss ++ others) ↔
    ∃ mid, Consecutive start mid ss ∧ Consecutive mid stop others := by
  induction ss generalizing start with
  | nil => simp [Consecutive]
  | cons s ss ih =>
    simp only [List.cons_append, Consecutive, ih]
    constructor
    · rintro ⟨hstart, hlt, next, hchildren, mid, hss, hothers⟩
      exact ⟨mid, ⟨hstart, hlt, next, hchildren, hss⟩, hothers⟩
    · rintro ⟨mid, ⟨hstart, hlt, next, hchildren, hss⟩, hothers⟩
      exact ⟨hstart, hlt, next, hchildren, mid, hss, hothers⟩

/-- Sections that follow each other run forward. -/
theorem le (h : Consecutive start stop ss) : start ≤ stop := by
  induction ss generalizing start with
  | nil => exact Nat.le_of_eq h
  | cons s ss ih =>
    obtain ⟨-, hlt, mid, hchildren, hrest⟩ := h
    exact Nat.le_trans (Nat.le_of_lt hlt) (Nat.le_trans hchildren.le (ih hrest))

/-- **The first section spans its header and its body**, if it ends behind them, and the others
follow. -/
theorem spans (h : Consecutive start stop (s :: ss)) :
    Consecutive s.bodyEnd stop ss ∧
      (s.bodyEnd ≤ s.span.stop → s.Spans start s.bodyEnd s.span.stop) := by
  obtain ⟨rfl, hlt, mid, hchildren, hrest⟩ := h
  obtain rfl := Section.bodyEnd_eq_of_tiled hchildren
  exact ⟨hrest, fun hle => ⟨rfl, hlt, hchildren, hle⟩⟩

/-- Each begins where they do, or later. -/
theorem start_le (h : Consecutive start stop ss) (hs : s ∈ ss) : start ≤ s.span.start := by
  induction ss generalizing start with
  | nil => exact absurd hs List.not_mem_nil
  | cons t ss ih =>
    obtain ⟨hstart, hlt, mid, hchildren, hrest⟩ := h
    rcases List.mem_cons.1 hs with rfl | hlater
    · exact Nat.le_of_eq hstart.symm
    · exact Nat.le_trans (Nat.le_of_lt hlt) (Nat.le_trans hchildren.le (ih hrest hlater))

/-- None of their children is empty. -/
theorem lt_of_mem (h : Consecutive start stop ss) (hs : s ∈ ss) {x : α} (hx : x ∈ s.children) :
    (Spanned.span x).start < (Spanned.span x).stop := by
  induction ss generalizing start with
  | nil => exact absurd hs List.not_mem_nil
  | cons t ss ih =>
    obtain ⟨-, -, mid, hchildren, hrest⟩ := h
    rcases List.mem_cons.1 hs with rfl | hlater
    · exact hchildren.lt_of_mem hx
    · exact ih hrest hlater

/-- **No section after the first has its range.** -/
theorem span_ne (h : Consecutive start stop (s :: ss)) {later : Section α} (hl : later ∈ ss) :
    later.span ≠ s.span := by
  obtain ⟨hstart, hlt, mid, hchildren, hrest⟩ := h
  intro heq
  have hle := hrest.start_le hl
  have hmid := hchildren.le
  rw [heq] at hle
  omega

/-- …so no two have the same. -/
theorem nodup_span (h : Consecutive start stop ss) : (ss.map Section.span).Nodup := by
  induction ss generalizing start with
  | nil => exact List.nodup_nil
  | cons s ss ih =>
    obtain ⟨-, -, mid, -, hrest⟩ := id h
    refine List.nodup_cons.2 ⟨fun hmem => ?_, ih hrest⟩
    obtain ⟨later, hl, hspan⟩ := List.mem_map.1 hmem
    exact h.span_ne hl hspan

/-- **The body of the last section ends where they all do.** -/
theorem bodyEnd_getLast (h : Consecutive start stop ss) (hne : ss ≠ []) :
    (ss.getLast hne).bodyEnd = stop := by
  rw [← List.dropLast_concat_getLast hne] at h
  obtain ⟨first, -, -, -, last, hchildren, rfl⟩ := append_iff.1 h
  exact Section.bodyEnd_eq_of_tiled hchildren

/-- Only where the sections begin, where their headers end and what their children cover counts. -/
theorem map_congr {γ : Type} {xs : List γ} {f : γ → Section α} {g : γ → Section β}
    (hstart : ∀ x ∈ xs, (f x).span.start = (g x).span.start)
    (hheader : ∀ x ∈ xs, (f x).headerEnd = (g x).headerEnd)
    (hchildren : ∀ x ∈ xs, ∀ a b, Tiled a b (f x).children ↔ Tiled a b (g x).children) :
    Consecutive start stop (xs.map f) ↔ Consecutive start stop (xs.map g) := by
  induction xs generalizing start with
  | nil => rfl
  | cons x xs ih =>
    rw [List.forall_mem_cons] at hstart hheader hchildren
    simp only [List.map_cons, Consecutive, hstart.1, hheader.1, hchildren.1,
      ih hstart.2 hheader.2 hchildren.2]

/-- **Sections that are visited in order make a piece each**, with their headers, and the last body
ends where they do. -/
theorem pieces_eq {visits : List (String × Section α)}
    (h : Consecutive start stop (visits.map Prod.snd)) :
    Construct.pieces start visits = .ok (visits.map fun visit =>
      ⟨visit.1, some ⟨visit.2.span.start, visit.2.headerEnd⟩, visit.2.children⟩, stop) := by
  induction visits generalizing start with
  | nil =>
    obtain rfl : start = stop := h
    rfl
  | cons visit visits ih =>
    obtain ⟨role, s⟩ := visit
    obtain ⟨rfl, hlt, mid, hchildren, hrest⟩ := h
    rw [Construct.pieces, Section.bodyStart_eq_of_tiled hchildren,
      Section.bodyEnd_eq_of_tiled hchildren, Nat.max_eq_left hchildren.le, ih hrest]
    simp only [if_neg (Nat.not_lt.2 (Nat.le_of_lt hlt)), if_neg (Nat.ne_of_lt hlt)]
    rfl

end Consecutive

/-- **A header that ends before it begins is refused**… -/
theorem Construct.pieces_of_lt {cursor : Nat} {role : String} {s : Section α}
    {visits : List (String × Section α)} (h : s.bodyStart < cursor) :
    pieces cursor ((role, s) :: visits) = .error ⟨cursor, s.bodyStart⟩ :=
  if_pos h

/-- …wherever it comes. -/
theorem Construct.pieces_of_error {cursor : Nat} {role : String} {s : Section α}
    {visits : List (String × Section α)} {range : Span} (hle : cursor ≤ s.bodyStart)
    (h : pieces (max s.bodyEnd s.bodyStart) visits = .error range) :
    pieces cursor ((role, s) :: visits) = .error range := by
  rw [pieces, if_neg (Nat.not_lt.2 hle), h]
  rfl

omit [Spanned α] in
/-- **What closes a construct is all that remains of it**, unless that begins with blanks. -/
theorem Construct.closing_eq_of_takeWhile {text : List Char} {name : String} {cursor stop : Nat}
    (hle : cursor ≤ stop)
    (hblank : ((Text.slice? cursor stop text).getD []).takeWhile Text.isBlank = []) :
    closing (α := α) text name cursor stop =
      .ok (if cursor < stop then some ⟨"/" ++ name, some ⟨cursor, stop⟩, []⟩ else none) := by
  rw [closing, if_neg (Nat.not_lt.2 hle)]
  simp only [hblank, Text.byteSize_nil, Nat.add_zero]

/-- The branch of a section with a header, which owns its children. -/
def Branch.ofSection (role : String) (s : Section α) : Branch α where
  role := role
  span := ⟨s.span.start, s.headerEnd⟩
  groups := if s.children.isEmpty then [] else [s.children]

omit [Spanned α] in
theorem Branch.flatten_groups_ofSection (role : String) (s : Section α) :
    (ofSection role s).groups.flatten = s.children := by
  rw [ofSection]
  split
  · next hempty => simp [List.isEmpty_iff.1 hempty]
  · simp

/-- The branch that closes a construct, if anything is left of it. -/
def Branch.closing (name : String) (start stop : Nat) : List (Branch α) :=
  if start < stop then [⟨"/" ++ name, ⟨start, stop⟩, []⟩] else []

omit [Spanned α] in
/-- Pieces with headers are branches with one group at most, and leave no orphans. -/
theorem Piece.gather_headed (visits : List (String × Section α)) (name : String)
    (start stop : Nat) :
    Piece.gather ((visits.map fun visit => ⟨visit.1, some ⟨visit.2.span.start, visit.2.headerEnd⟩,
      visit.2.children⟩) ++
        (if start < stop then some ⟨"/" ++ name, some ⟨start, stop⟩, []⟩ else none :
          Option (Piece α)).toList) =
      ⟨(visits.map fun visit => Branch.ofSection visit.1 visit.2) ++ Branch.closing name start stop,
        []⟩ := by
  induction visits with
  | nil =>
    rw [Branch.closing]
    split <;> rfl
  | cons visit visits ih =>
    rw [List.map_cons, List.cons_append, Piece.gather, ih]
    rfl

/-- **A construct whose visits follow each other has a branch for each of them**, with its header
and its children, and one for what is left, if that does not begin with a blank. -/
theorem Construct.branches_of_consecutive {c : Construct α} {source : Source} {content : Nat}
    (h : Consecutive c.span.start content (c.visits.map Prod.snd)) (hle : content ≤ c.span.stop)
    (hblank : ((Text.slice? content c.span.stop source.text).getD []).takeWhile Text.isBlank = []) :
    c.branches source = .ok ⟨(c.visits.map fun visit => Branch.ofSection visit.1 visit.2) ++
      Branch.closing c.name content c.span.stop, []⟩ := by
  have hclosed : closing (α := α) source.text c.name content c.span.stop = .ok _ :=
    closing_eq_of_takeWhile hle hblank
  rw [branches, allPieces, h.pieces_eq]
  simp only [hclosed, bind, Except.bind, pure, Except.pure, Piece.gather_headed]

/-- …and one of which a visit is refused is refused as a whole. -/
theorem Construct.branches_of_error {c : Construct α} {source : Source} {range : Span}
    {token : Token} (h : pieces c.span.start c.visits = .error range)
    (hslice : source.slice c.span = .ok token) :
    c.branches source = .error ⟨.negativeBranch range, token⟩ := by
  have hall : c.allPieces source.text = .error range := by
    rw [allPieces, h]
    rfl
  rw [branches, hall]
  simp only [hslice]
  rfl

/-- **Branches that cover a range with their children**: each header begins where the one before it
and its children end. -/
def Branch.Abut : Nat → Nat → List (Branch α) → Prop
  | start, stop, [] => start = stop
  | start, stop, b :: bs => b.span.start = start ∧
      ∃ mid, Tiled b.span.stop mid b.groups.flatten ∧ Abut mid stop bs

/-- **The branches of a construct whose visits follow each other cover it** with their children. -/
theorem Consecutive.abut {start content stop : Nat} {visits : List (String × Section α)}
    (h : Consecutive start content (visits.map Prod.snd)) (hle : content ≤ stop) (name : String) :
    Branch.Abut start stop ((visits.map fun visit => Branch.ofSection visit.1 visit.2) ++
      Branch.closing name content stop) := by
  induction visits generalizing start with
  | nil =>
    obtain rfl : start = content := h
    rw [List.map_nil, List.nil_append, Branch.closing]
    split
    · exact ⟨rfl, stop, rfl, rfl⟩
    · next hend => exact Nat.le_antisymm hle (Nat.not_lt.1 hend)
  | cons visit visits ih =>
    obtain ⟨rfl, hlt, mid, hchildren, hrest⟩ := h
    refine ⟨rfl, mid, ?_, ih hrest⟩
    rwa [Branch.flatten_groups_ofSection]

end Markup
