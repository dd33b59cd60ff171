import Markup.Construct.Basic
import Markup.Proofs.Text.Slice

/-!
# Proofs/Tiling — values that cover a range one after the other

`Tiled a b xs` says that the ranges of `xs` run **from `a` to `b` without a gap**, each beginning
where the one before it ends, and that none is empty.  `append_iff` cuts and joins such rows, and
on a section whose children are tiled from its header on, `bodyStart` and `bodyEnd` are the ends of
the row.
-/

namespace Markup

instance : Spanned Span := ⟨id⟩

/-- A position of the range. -/
def Span.Contains (s : Span) (i : Nat) : Prop := s.start ≤ i ∧ i < s.stop

/-- The range, so many bytes further on. -/
def Span.movedBy (s : Span) (shift : Nat) : Span := ⟨s.start + shift, s.stop + shift⟩

/-- What is moved stays as long as it was. -/
theorem Span.movedBy_size (start size shift : Nat) :
    Span.movedBy ⟨start, start + size⟩ shift = ⟨start + shift, start + shift + size⟩ := by
  rw [Span.movedBy, Nat.add_right_comm]

/-- What begins a text stands where the text is moved to. -/
theorem Span.movedBy_of_zero (size shift : Nat) :
    Span.movedBy ⟨0, size⟩ shift = ⟨shift, shift + size⟩ := by
  rw [Span.movedBy, Nat.zero_add, Nat.add_comm]

variable {α β : Type} [Spanned α] [Spanned β]

/-- **The values cover the range between two offsets**, each beginning where the last one ended, and
none of them empty. -/
def Tiled : Nat → Nat → List α → Prop
  | start, stop, [] => start = stop
  | start, stop, x :: xs =>
    (Spanned.span x).start = start ∧ start < (Spanned.span x).stop ∧
      Tiled (Spanned.span x).stop stop xs

namespace Tiled

variable {start stop : Nat} {x : α} {xs ys : List α}

@[simp] theorem nil_iff : Tiled start stop ([] : List α) ↔ start = stop := Iff.rfl

@[simp] theorem cons_iff :
    Tiled start stop (x :: xs) ↔ (Spanned.span x).start = start ∧
      start < (Spanned.span x).stop ∧ Tiled (Spanned.span x).stop stop xs := Iff.rfl

/-- A row runs forward. -/
theorem le (h : Tiled start stop xs) : start ≤ stop := by
  induction xs generalizing start with
  | nil => exact Nat.le_of_eq h
  | cons x xs ih =>
    obtain ⟨-, hlt, hrest⟩ := h
    exact Nat.le_trans (Nat.le_of_lt hlt) (ih hrest)

/-- No value of a row is empty. -/
theorem lt_of_mem (h : Tiled start stop xs) (hx : x ∈ xs) :
    (Spanned.span x).start < (Spanned.span x).stop := by
  induction xs generalizing start with
  | nil => exact absurd hx List.not_mem_nil
  | cons y ys ih =>
    obtain ⟨rfl, hlt, hrest⟩ := h
    rcases List.mem_cons.1 hx with rfl | hlater
    · exact hlt
    · exact ih hrest hlater

/-- **Two rows that meet are one**, and a row may be cut anywhere. -/
theorem append_iff :
    Tiled start stop (xs ++ ys) ↔ ∃ mid, Tiled start mid xs ∧ Tiled mid stop ys := by
  induction xs generalizing start with
  | nil => simp
  | cons x xs ih =>
    rw [List.cons_append, cons_iff, ih]
    constructor
    · rintro ⟨hstart, hlt, mid, hxs, hys⟩
      exact ⟨mid, ⟨hstart, hlt, hxs⟩, hys⟩
    · rintro ⟨mid, ⟨hstart, hlt, hxs⟩, hys⟩
      exact ⟨hstart, hlt, mid, hxs, hys⟩

/-- …and goes on with any value that begins where it ends. -/
theorem concat {mid : Nat} (h : Tiled start mid xs) (hx : Spanned.span x = ⟨mid, stop⟩)
    (hlt : mid < stop) : Tiled start stop (xs ++ [x]) := by
  refine append_iff.2 ⟨mid, h, ?_⟩
  rw [cons_iff, hx]
  exact ⟨rfl, hlt, rfl⟩

/-- Only the ranges count. -/
theorem map_iff {f : α → β} (hf : ∀ x ∈ xs, Spanned.span (f x) = Spanned.span x) :
    Tiled start stop (xs.map f) ↔ Tiled start stop xs := by
  induction xs generalizing start with
  | nil => rfl
  | cons x xs ih =>
    rw [List.map_cons, cons_iff, cons_iff, hf x List.mem_cons_self,
      ih fun y hy => hf y (List.mem_cons_of_mem x hy)]

/-- The first value begins where the row does. -/
theorem start_of_head? (h : Tiled start stop xs) (hx : xs.head? = some x) :
    (Spanned.span x).start = start := by
  obtain ⟨ys, rfl⟩ := List.head?_eq_some_iff.1 hx
  exact h.1

/-- The last value ends where the row does. -/
theorem stop_of_getLast? (h : Tiled start stop xs) (hx : xs.getLast? = some x) :
    (Spanned.span x).stop = stop := by
  obtain ⟨ys, rfl⟩ := List.getLast?_eq_some_iff.1 hx
  obtain ⟨mid, -, -, -, hstop⟩ := append_iff.1 h
  exact hstop

end Tiled

/-- **Values of one kind that cover a range**, side by side. -/
structure Forest (good : α → Prop) (start stop : Nat) (xs : List α) : Prop where
  tiled : Tiled start stop xs
  all : ∀ x ∈ xs, good x

namespace Forest

variable {good : α → Prop} {start mid stop : Nat} {x : α} {xs : List α}

theorem nil (start : Nat) : Forest good start start [] where
  tiled := rfl
  all := by simp

/-- …go on with any of them that begins where they end. -/
theorem concat (h : Forest good start mid xs) (hspan : Spanned.span x = ⟨mid, stop⟩)
    (hlt : mid < stop) (hx : good x) : Forest good start stop (xs ++ [x]) where
  tiled := h.tiled.concat hspan hlt
  all := by
    rw [List.forall_mem_append]
    exact ⟨h.all, List.forall_mem_singleton.2 hx⟩

/-- A text that may be empty is covered by one value, or by none. -/
theorem ofText {cs : List Char} (hspan : Spanned.span x = ⟨start, start + Text.byteSize cs⟩)
    (hx : good x) :
    Forest good start (start + Text.byteSize cs) (if cs.isEmpty then [] else [x]) := by
  cases cs with
  | nil => exact nil start
  | cons c cs =>
    have hlt : start < start + Text.byteSize (c :: cs) :=
      Nat.lt_add_of_pos_right (Text.byteSize_pos (List.cons_ne_nil c cs))
    exact (nil start).concat hspan hlt hx

end Forest

/-- **What a closing range leaves open**: nothing, if it runs from where the content ends to where
the whole does, and nothing without one, if these are the same. -/
def Closes (content stop : Nat) : Option Span → Prop
  | none => content = stop
  | some closing => closing = ⟨content, stop⟩ ∧ content < stop

theorem Closes.le {content stop : Nat} {closing : Option Span} (h : Closes content stop closing) :
    content ≤ stop := by
  cases closing with
  | none => exact Nat.le_of_eq h
  | some closing => exact Nat.le_of_lt h.2

namespace Section

variable {s : Section α} {stop : Nat}

/-- **Children that follow the header at once** begin the body there… -/
theorem bodyStart_eq_of_tiled (h : Tiled s.headerEnd stop s.children) :
    s.bodyStart = s.headerEnd := by
  rw [bodyStart]
  split
  · next child hchild => exact h.start_of_head? hchild
  · rfl

/-- …and end it where their row ends. -/
theorem bodyEnd_eq_of_tiled (h : Tiled s.headerEnd stop s.children) : s.bodyEnd = stop := by
  rw [bodyEnd]
  split
  · next child hchild => exact h.stop_of_getLast? hchild
  · next hchild =>
    rw [List.getLast?_eq_none_iff.1 hchild, Tiled.nil_iff] at h
    exact h

end Section

end Markup
