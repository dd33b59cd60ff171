import Mathlib.Data.List.TakeWhile
import Markup.Proofs.Construct.Tiling

/-!
# Proofs/Construct/Roles — which branches a construct has, and in which order

A visit makes a branch exactly if there is **text between where the last body ended and where its
own begins** (`Construct.headers`), so `Flow.roles_of_normalize` tells the roles of a construct from
its links, which say what is visited (`Flow.Visits`), and its offsets.
-/

namespace Markup

variable {α : Type}

/-- **A branch for each piece with a header.** -/
theorem Piece.map_role_gather (ps : List (Piece α)) :
    (gather ps).branches.map Branch.role = (ps.filter fun p => p.header.isSome).map role := by
  induction ps with
  | nil => rfl
  | cons p ps ih =>
    rw [List.filter_cons, gather]
    cases hp : p.header <;> simp [ih]

namespace Construct

section Headers

variable [Spanned α]

/-- **Where the text begins that is not yet covered**, before the first visit and after each. -/
def cursors (start : Nat) (visits : List (String × Section α)) : List Nat :=
  start :: visits.map fun visit => max visit.2.bodyEnd visit.2.bodyStart

/-- Where the last body ends. -/
def lastCursor (start : Nat) (visits : List (String × Section α)) : Nat :=
  (cursors start visits).getLast (List.cons_ne_nil _ _)

/-- **The header of each visit**: what lies between the cursor and where its body begins. -/
def headers (start : Nat) (visits : List (String × Section α)) : List (String × Span) :=
  List.zipWith (fun cursor visit => (visit.1, ⟨cursor, visit.2.bodyStart⟩)) (cursors start visits)
    visits

variable {start last : Nat} {visits : List (String × Section α)} {ps : List (Piece α)}

theorem headers_cons (start : Nat) (role : String) (s : Section α) :
    headers start ((role, s) :: visits) =
      (role, ⟨start, s.bodyStart⟩) :: headers (max s.bodyEnd s.bodyStart) visits := rfl

/-- **A visit whose header has text makes a piece with a header**, in the same order. -/
theorem map_role_of_pieces (h : pieces start visits = .ok (ps, last)) :
    (ps.filter fun p => p.header.isSome).map Piece.role =
      ((headers start visits).filter fun header => header.2.start < header.2.stop).map
        Prod.fst := by
  induction visits generalizing start ps with
  | nil =>
    obtain ⟨rfl, -⟩ : [] = ps ∧ start = last := by simpa [pieces] using h
    rfl
  | cons visit visits ih =>
    obtain ⟨role, s⟩ := visit
    obtain ⟨hle, after, hafter, rfl⟩ := pieces_cons h
    rw [headers_cons, List.filter_cons, List.filter_cons]
    rcases Nat.eq_or_lt_of_le hle with heq | hlt
    · simp [heq, ih hafter]
    · simp [Nat.ne_of_lt hlt, hlt, ih hafter]

/-- The cursor ends behind the last visit. -/
theorem last_of_pieces (h : pieces start visits = .ok (ps, last)) :
    lastCursor start visits = last := by
  induction visits generalizing start ps with
  | nil =>
    obtain ⟨-, rfl⟩ : [] = ps ∧ start = last := by simpa [pieces] using h
    rfl
  | cons visit visits ih =>
    obtain ⟨role, s⟩ := visit
    obtain ⟨-, after, hafter, -⟩ := pieces_cons h
    exact ih hafter

end Headers

section Closing

variable {cursor stop : Nat} {text : List Char} {name : String} {closed : Option (Piece α)}

/-- What closes a construct has the role that says so, and a header… -/
theorem closing_cases (h : closing text name cursor stop = .ok closed) :
    closed = none ∨ ∃ span, closed = some ⟨"/" ++ name, some span, []⟩ := by
  obtain ⟨start, -, -, -, -, -, rfl⟩ := closing_eq_ok h
  split
  · exact Or.inr ⟨_, rfl⟩
  · exact Or.inl rfl

/-- …and is there exactly if what remains is more than blanks. -/
theorem isSome_closing_iff (h : closing text name cursor stop = .ok closed) {trailing : List Char}
    (htrailing : Text.slice? cursor stop text = some trailing) :
    closed.isSome = true ↔ ∃ c ∈ trailing, Text.isBlank c = false := by
  have hspan := List.takeWhile_append_dropWhile (p := Text.isBlank) (l := trailing)
  obtain ⟨-, -, -, -, hstop⟩ := Text.slice?_eq_some_iff.1 htrailing
  rw [closing] at h
  split at h
  · cases h
  · cases h
    rw [htrailing, Option.getD_some, ← hstop]
    have hsize : Text.byteSize trailing = Text.byteSize (trailing.takeWhile Text.isBlank) +
        Text.byteSize (trailing.dropWhile Text.isBlank) := by
      rw [← Text.byteSize_append, hspan]
    calc (if cursor + Text.byteSize (trailing.takeWhile Text.isBlank) <
            cursor + Text.byteSize trailing then some _ else none : Option (Piece α)).isSome = true
        ↔ Text.byteSize (trailing.dropWhile Text.isBlank) ≠ 0 := by
          rw [hsize]
          split <;> simp <;> omega
      _ ↔ trailing.dropWhile Text.isBlank ≠ [] := not_congr Text.byteSize_eq_zero
      _ ↔ ∃ c ∈ trailing, Text.isBlank c = false := by
          simp [List.dropWhile_eq_nil_iff]

end Closing

end Construct

namespace Flow

/-- **The roles of the branches are those of the visits whose header has text**, and one more closes
the construct exactly if what remains behind the last body is more than blanks. -/
theorem roles_of_normalize [Spanned α] {n : Flow α} {source : Source} {row : Branches α}
    (h : n.normalize source = .ok (some row)) :
    (∃ name visited, n.Visits name visited) ∧
    ∀ {name visited}, n.Visits name visited → ∃ closing,
      row.branches.map Branch.role =
        ((Construct.headers n.content.span.start visited).filter fun header =>
          header.2.start < header.2.stop).map Prod.fst ++ closing ∧
      (closing = [] ∨ closing = ["/" ++ name]) ∧
      ∀ trailing, Text.slice? (Construct.lastCursor n.content.span.start visited)
          n.content.span.stop source.text = some trailing →
        (closing = ["/" ++ name] ↔ ∃ c ∈ trailing, Text.isBlank c = false) := by
  obtain ⟨c, hc, hbranches⟩ := normalize_eq_ok h
  refine ⟨⟨_, _, visits_iff.2 ⟨c, hc, rfl, rfl⟩⟩, fun {name visited} hvisits => ?_⟩
  obtain ⟨_, hc', rfl, rfl⟩ := visits_iff.1 hvisits
  obtain rfl := Option.some.inj (hc.symm.trans hc')
  obtain ⟨opened, last, closed, hopened, hclosed, rfl⟩ := Construct.branches_eq_ok hbranches
  rw [span_of_construct? hc] at hopened hclosed
  refine ⟨(closed.toList.filter fun p => p.header.isSome).map Piece.role, ?_, ?_, ?_⟩
  · rw [Piece.map_role_gather, List.filter_append, List.map_append,
      Construct.map_role_of_pieces hopened]
  · rcases Construct.closing_cases hclosed with rfl | ⟨span, rfl⟩
    · exact Or.inl rfl
    · exact Or.inr rfl
  · intro trailing htrailing
    rw [Construct.last_of_pieces hopened] at htrailing
    rw [← Construct.isSome_closing_iff hclosed htrailing]
    rcases Construct.closing_cases hclosed with rfl | ⟨span, rfl⟩ <;> simp

/-- A conditional whose further condition has no header of its own, so that no branch is made for
it, with a blank before the closing tag. -/
def headerlessElseIf : Flow Span :=
  .node ⟨⟨0, 17⟩, 5, [⟨5, 6⟩]⟩ (some .conditional)
    (some (.node ⟨⟨6, 11⟩, 6, []⟩ none none
      (some (.node ⟨⟨6, 11⟩, 6, [⟨6, 7⟩]⟩ (some .conditional)
        (some (.node ⟨⟨7, 11⟩, 10, [⟨10, 11⟩]⟩ none none none [])) none [])) []))
    none []

theorem roles_headerlessElseIf : ∃ row visited closing,
    headerlessElseIf.normalize (Source.ofString "\x7b#if\x7dab\x7b:\x7dc \x7b/if\x7d") =
      .ok (some row) ∧
    headerlessElseIf.Visits "if" visited ∧ visited.map Prod.fst = ["if", "elseif", "else"] ∧
    row.branches.map Branch.role = ["if", "else"] ++ closing ∧ closing = ["/if"] := by
  have hnormalize :
      headerlessElseIf.normalize (Source.ofString "\x7b#if\x7dab\x7b:\x7dc \x7b/if\x7d") = .ok
        (some ⟨[⟨"if", ⟨0, 5⟩, [[⟨5, 6⟩], [⟨6, 7⟩]]⟩, ⟨"else", ⟨7, 10⟩, [[⟨10, 11⟩]]⟩,
          ⟨"/if", ⟨12, 17⟩, []⟩], []⟩) := rfl
  have hvisits := Visits.conditional (n := headerlessElseIf) rfl (.elseIf .otherwise)
  obtain ⟨closing, hroles, -, hclosing⟩ := (roles_of_normalize hnormalize).2 hvisits
  refine ⟨_, _, closing, hnormalize, hvisits, rfl, hroles, ?_⟩
  exact (hclosing " \x7b/if\x7d".toList (by decide)).2 ⟨'/', by decide, by decide⟩

end Flow

end Markup
