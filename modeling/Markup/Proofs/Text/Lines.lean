import Markup.Proofs.Text.Search
import Mathlib.Data.List.SplitBy

/-!
# Proofs/Text/Lines — a text as a row of lines

A line goes through its line feed, and only the last may have none (`Text.lines`).  A text that is
not empty is its last line or goes on behind its first one (`lines_induction`), so **where a word
stands at the beginning of a line** is found line by line: the first place at which a line feed and
the word are found is before the first line that begins with the word (`cut_of_lines`).
-/

namespace Markup.Text

/-- **The lines of a text**, each with its line feed. -/
def lines (cs : List Char) : List (List Char) := cs.splitBy fun c _ => c != '\n'

variable {cs inner word l : List Char} {as bs : List (List Char)}

/-- The lines in a row are the text. -/
theorem flatten_lines (cs : List Char) : (lines cs).flatten = cs := List.flatten_splitBy _ cs

/-- Without a line feed there is no end of a line but the last. -/
theorem isChain_of_not_mem (h : '\n' ∉ inner) (c : Char) :
    (inner ++ [c]).IsChain fun c _ => (c != '\n') = true := by
  induction inner with
  | nil => exact List.isChain_singleton c
  | cons d inner ih =>
    rw [List.mem_cons, not_or] at h
    exact List.isChain_cons.2 ⟨fun _ _ => bne_iff_ne.2 (Ne.symm h.1), ih h.2⟩

/-- **The first line goes through the first line feed…** -/
theorem lines_append (h : '\n' ∉ inner) (cs : List Char) :
    lines (inner ++ '\n' :: cs) = (inner ++ ['\n']) :: lines cs := by
  have hfirst : lines (inner ++ ['\n']) = [inner ++ ['\n']] :=
    List.splitBy_of_isChain (by simp) (isChain_of_not_mem h '\n')
  have hends : ∀ c ∈ (inner ++ ['\n']).getLast?, ∀ d ∈ cs.head?, (c != '\n') = false := by
    simp
  rw [← List.singleton_append, ← List.append_assoc, lines, List.splitBy_append hends]
  exact congrArg (· ++ lines cs) hfirst

/-- …and is the last one if there is none. -/
theorem lines_of_not_mem (h : '\n' ∉ cs) (hne : cs ≠ []) : lines cs = [cs] := by
  refine List.splitBy_of_isChain hne ?_
  obtain ⟨front, last, rfl⟩ := (List.eq_nil_or_concat' cs).resolve_left hne
  exact isChain_of_not_mem (fun hmem => h (List.mem_append_left _ hmem)) last

/-- **A text is empty, or its last line, or goes on behind its first line.** -/
theorem lines_induction {motive : List Char → Prop} (nil : motive [])
    (last : ∀ cs, cs ≠ [] → '\n' ∉ cs → motive cs)
    (line : ∀ inner cs, '\n' ∉ inner → motive cs → motive (inner ++ '\n' :: cs)) (cs : List Char) :
    motive cs := by
  induction hlength : cs.length using Nat.strongRecOn generalizing cs with
  | ind n ih =>
    subst hlength
    by_cases hmem : '\n' ∈ cs
    · obtain ⟨inner, rest, rfl, hinner⟩ := List.eq_append_cons_of_mem hmem
      exact line inner rest hinner (ih rest.length (by simp; omega) rest rfl)
    · by_cases hne : cs = []
      · exact hne ▸ nil
      · exact last cs hne hmem

/-- What a text with a first line begins with. -/
theorem lines_eq_cons (h : lines cs = l :: as) :
    (∃ inner rest, '\n' ∉ inner ∧ l = inner ++ ['\n'] ∧ cs = inner ++ '\n' :: rest ∧
      lines rest = as) ∨ '\n' ∉ l ∧ cs = l ∧ as = [] := by
  induction cs using lines_induction with
  | nil => exact absurd h (by simp [lines])
  | last cs hne hcs =>
    rw [lines_of_not_mem hcs hne] at h
    cases h
    exact Or.inr ⟨hcs, rfl, rfl⟩
  | line inner rest hinner _ =>
    rw [lines_append hinner] at h
    cases h
    exact Or.inl ⟨inner, rest, hinner, rfl, rfl, rfl⟩

/-- The lines behind others are those of what follows. -/
theorem lines_flatten (h : lines cs = as ++ bs) : lines bs.flatten = bs := by
  induction as generalizing cs with
  | nil => rw [← List.nil_append bs, ← h, flatten_lines]
  | cons a as ih =>
    obtain ⟨inner, rest, -, -, -, hrest⟩ | ⟨-, -, hnil⟩ := lines_eq_cons h
    · exact ih hrest
    · obtain ⟨-, rfl⟩ := List.append_eq_nil_iff.1 hnil
      rfl

/-- **What a line goes on with is split off** behind what it begins with. -/
theorem splitLine_of_lines (hword : '\n' ∉ word) (h : lines cs = (word ++ l) :: as) :
    splitLine (l ++ as.flatten) = (l, as.flatten) := by
  have hinside : ∀ {inner : List Char}, '\n' ∉ inner → ∀ c ∈ inner, (c != '\n') = true :=
    fun hinner c hc => bne_iff_ne.2 fun heq => hinner (heq ▸ hc)
  obtain ⟨inner, rest, hinner, hline, -, rfl⟩ | ⟨hmem, -, rfl⟩ := lines_eq_cons h
  · obtain rfl | ⟨front, last, rfl⟩ := List.eq_nil_or_concat' l
    · rw [List.append_nil] at hline
      exact absurd (hline ▸ List.mem_append_right _ (List.mem_singleton_self _)) hword
    · rw [← List.append_assoc] at hline
      obtain ⟨rfl, hlast⟩ := List.append_inj' hline rfl
      cases hlast
      have hfront := fun hmem => hinner (List.mem_append_right word hmem)
      have hends : ∀ c, ('\n' :: rest).head? = some c → (c != '\n') = false := by simp
      rw [flatten_lines, List.append_assoc, List.singleton_append]
      simp only [splitLine, takeWhile_append_of_ends (hinside hfront) hends,
        dropWhile_append_of_ends (hinside hfront) hends]
  · have hall := hinside fun hl => hmem (List.mem_append_right word hl)
    simp only [splitLine, List.flatten_nil, List.append_nil, List.dropWhile_eq_nil_iff.2 hall,
      List.takeWhile_eq_self_iff.2 hall]

/-! ## Words at the beginning of a line -/

/-- At the end of a line a word is found that begins the next one; otherwise it is sought there. -/
theorem cut_line (h : '\n' ∉ inner) (cs : List Char) :
    cut ('\n' :: word) (inner ++ '\n' :: cs) =
      if word.isPrefixOf cs then some (inner, '\n' :: cs)
      else (cut ('\n' :: word) cs).map fun parts => (inner ++ '\n' :: parts.1, parts.2) := by
  induction inner with
  | nil =>
    rw [List.nil_append, cut, cutWhere, List.isPrefixOf_cons_cons, beq_self_eq_true, Bool.true_and]
    rfl
  | cons c inner ih =>
    rw [List.mem_cons, not_or] at h
    rw [List.cons_append, cut, cutWhere, List.isPrefixOf_cons_cons, beq_false_of_ne h.1,
      Bool.false_and, if_neg Bool.false_ne_true, ← cut, ih h.2]
    split
    · rfl
    · rw [Option.map_map]
      rfl

/-- A word begins a text if it begins its first line. -/
theorem isPrefixOf_line (hword : '\n' ∉ word) (inner cs : List Char) :
    word.isPrefixOf (inner ++ '\n' :: cs) = word.isPrefixOf (inner ++ ['\n']) := by
  rw [isPrefixOf_append_cons hword, isPrefixOf_append_cons hword]

/-- **Nothing is found where no line begins with the word…** -/
theorem cut_eq_none_of_lines (hword : '\n' ∉ word) (hne : word ≠ [])
    (h : ∀ l ∈ lines cs, word.isPrefixOf l = false) (hinner : '\n' ∉ inner) :
    cut ('\n' :: word) (inner ++ '\n' :: cs) = none := by
  induction cs using lines_induction generalizing inner with
  | nil =>
    have hempty : word.isPrefixOf [] = false := by
      obtain ⟨c, others, rfl⟩ := List.exists_cons_of_ne_nil hne
      rfl
    rw [cut_line hinner, hempty, cut_eq_none_of_not_mem List.not_mem_nil]
    rfl
  | last cs hcs hmem =>
    rw [lines_of_not_mem hmem hcs, List.forall_mem_singleton] at h
    rw [cut_line hinner, h, cut_eq_none_of_not_mem hmem]
    rfl
  | line first rest hfirst ih =>
    rw [lines_append hfirst, List.forall_mem_cons] at h
    rw [cut_line hinner, isPrefixOf_line hword, h.1, ih h.2 hfirst]
    rfl

/-- …and otherwise **what is found is the end of the line before** the first that does. -/
theorem cut_of_lines (hword : '\n' ∉ word) (hlines : lines cs = as ++ l :: bs)
    (has : ∀ a ∈ as, word.isPrefixOf a = false) (hl : word.isPrefixOf l = true)
    (hinner : '\n' ∉ inner) :
    ∃ before, before ++ ['\n'] = inner ++ '\n' :: as.flatten ∧
      cut ('\n' :: word) (inner ++ '\n' :: cs) = some (before, '\n' :: (l :: bs).flatten) := by
  induction as generalizing inner cs with
  | nil =>
    have hcs : (l :: bs).flatten = cs := by rw [← flatten_lines cs, hlines, List.nil_append]
    have hstarts : word.isPrefixOf cs = true := by
      rw [← hcs, List.flatten_cons, List.isPrefixOf_iff_prefix]
      exact (List.isPrefixOf_iff_prefix.1 hl).trans (List.prefix_append _ _)
    exact ⟨inner, rfl, by rw [cut_line hinner, if_pos hstarts, hcs]⟩
  | cons a as ih =>
    rw [List.forall_mem_cons] at has
    obtain ⟨first, rest, hfirst, rfl, rfl, hrest⟩ | ⟨-, -, hnil⟩ := lines_eq_cons hlines
    · obtain ⟨before, hbefore, hcut⟩ := ih hrest has.2 hfirst
      refine ⟨inner ++ '\n' :: before, by simp [hbefore], ?_⟩
      rw [cut_line hinner, isPrefixOf_line hword, has.1, hcut]
      rfl
    · exact absurd hnil (by simp)

end Markup.Text
