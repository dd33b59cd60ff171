import Markup.Construct.Branches

/-!
# Proofs/Construct/Map — branches know nothing of children but their ranges

Which branches a construct has is settled by ranges alone, so a change of the children that keeps
their ranges may be made **before or after**: `Construct.allPieces_map` carries it through the
visits and their pieces, and `Piece.gather_map` through the branches that these make.
-/

namespace Markup

variable {α β : Type}

/-- A piece with its children replaced one by one. -/
def Piece.map (f : α → β) (p : Piece α) : Piece β := { p with children := p.children.map f }

/-- A branch with its children replaced one by one. -/
def Branch.map (f : α → β) (b : Branch α) : Branch β :=
  { b with groups := b.groups.map (List.map f) }

/-- Branches with their children replaced one by one. -/
def Branches.map (f : α → β) (row : Branches α) : Branches β where
  branches := row.branches.map (Branch.map f)
  orphans := row.orphans.map (List.map f)

/-- A construct with its children replaced one by one. -/
def Construct.map (f : α → β) : Construct α → Construct β
  | .conditional head elseIfs otherwise =>
    .conditional (head.map f) (elseIfs.map (Section.map f)) (otherwise.map (Section.map f))
  | .phased name head phases =>
    .phased name (head.map f) (phases.map fun p => (p.1, p.2.map (Section.map f)))

namespace Piece

/-- Children are gathered whatever they are. -/
theorem gather_map (f : α → β) (ps : List (Piece α)) :
    gather (ps.map (Piece.map f)) = (gather ps).map f := by
  induction ps with
  | nil => rfl
  | cons p ps ih =>
    obtain ⟨role, header, children⟩ := p
    cases header <;> cases children <;> simp [gather, ih, Piece.map, Branches.map, Branch.map]

end Piece

namespace Construct

variable {f : α → β}

theorem dropRepeated_map (f : α → β) (seen : List Span) (ss : List (String × Section α)) :
    dropRepeated seen (ss.map fun s => (s.1, s.2.map f)) =
      (dropRepeated seen ss).map fun s => (s.1, s.2.map f) := by
  induction ss generalizing seen with
  | nil => rfl
  | cons s ss ih =>
    have hspan : (s.2.map f).span = s.2.span := rfl
    rw [List.map_cons, dropRepeated, dropRepeated, hspan, ih, ih]
    split <;> rfl

theorem visits_map (f : α → β) (c : Construct α) :
    (c.map f).visits = c.visits.map fun s => (s.1, s.2.map f) := by
  cases c with
  | conditional head elseIfs otherwise => cases otherwise <;> simp [map, visits]
  | phased name head phases =>
    rw [map, visits, visits, ← dropRepeated_map]
    congr 1
    rw [List.map_map, List.map_map]
    refine List.map_congr_left fun p _ => ?_
    obtain ⟨phase, written⟩ := p
    cases written <;> rfl

/-- Phases are looked up before or after. -/
theorem ofPhases_map (f : α → β) (name : String) (head : Section α) (phases : List String)
    (find : String → Option (Section α)) :
    ofPhases name (head.map f) phases (fun phase => (find phase).map (Section.map f)) =
      (ofPhases name head phases find).map f := by
  rw [ofPhases, ofPhases, map, List.map_map]
  congr 1
  refine List.map_congr_left fun phase _ => ?_
  rw [Function.comp_apply]
  split <;> rfl

theorem span_map (f : α → β) (c : Construct α) : (c.map f).span = c.span := by
  cases c <;> rfl

theorem name_map (f : α → β) (c : Construct α) : (c.map f).name = c.name := by
  cases c <;> rfl

variable [Spanned α] [Spanned β]

/-- A section's body stays where it is if the ranges of its children do. -/
theorem bodyStart_map (hf : ∀ a, Spanned.span (f a) = Spanned.span a) (s : Section α) :
    (s.map f).bodyStart = s.bodyStart := by
  obtain ⟨span, headerEnd, children⟩ := s
  cases children with
  | nil => rfl
  | cons child children => exact congrArg Span.start (hf child)

theorem bodyEnd_map (hf : ∀ a, Spanned.span (f a) = Spanned.span a) (s : Section α) :
    (s.map f).bodyEnd = s.bodyEnd := by
  rw [Section.bodyEnd, Section.bodyEnd, Section.map, List.getLast?_map]
  cases s.children.getLast? with
  | none => rfl
  | some child => exact congrArg Span.stop (hf child)

theorem pieces_map (hf : ∀ a, Spanned.span (f a) = Spanned.span a) (cursor : Nat)
    (visits : List (String × Section α)) :
    pieces cursor (visits.map fun s => (s.1, s.2.map f)) =
      (pieces cursor visits).map fun r => (r.1.map (Piece.map f), r.2) := by
  induction visits generalizing cursor with
  | nil => rfl
  | cons visit visits ih =>
    rw [List.map_cons, pieces, pieces, bodyStart_map hf, bodyEnd_map hf, ih]
    split
    · rfl
    · cases pieces (max visit.2.bodyEnd visit.2.bodyStart) visits <;> rfl

omit [Spanned α] [Spanned β] in
theorem closing_map (f : α → β) (text : List Char) (name : String) (cursor stop : Nat) :
    closing text name cursor stop =
      (closing text name cursor stop).map (Option.map (Piece.map f)) := by
  rw [closing, closing]
  split
  · rfl
  · simp only [Except.map]
    split <;> rfl

/-- **A construct has its branches, whatever becomes of its children** in their ranges. -/
theorem allPieces_map (hf : ∀ a, Spanned.span (f a) = Spanned.span a) (c : Construct α)
    (text : List Char) :
    (c.map f).allPieces text = (c.allPieces text).map (List.map (Piece.map f)) := by
  rw [allPieces, allPieces, span_map, visits_map, name_map, pieces_map hf]
  cases pieces c.span.start c.visits with
  | error range => rfl
  | ok opened =>
    simp only [Except.map, bind, Except.bind]
    rw [closing_map f]
    cases closing text c.name opened.2 c.span.stop with
    | error range => rfl
    | ok closed => cases closed <;> simp [Except.map, pure, Except.pure]

end Construct

end Markup
