import Markup.Proofs.Text.Search

/-!
# Proofs/Text/Words — the words of a text are what stands between white space

A word **stands in a text** (`WordAt`) where white space or an end of the text is on both sides of
it.  Each such place is one of the words (`WordAt.words_eq`), and each of the words has a place
(`exists_wordAt`), so what is said of the row of words is said of places.
-/

namespace Markup.Text

/-- **A word stands in a text**, between what is before it and what is behind. -/
structure WordAt (cs before word after : List Char) : Prop where
  split : cs = before ++ (word ++ after)
  ne_nil : word ≠ []
  solid : ∀ c ∈ word, isSpace c = false
  left : before.getLast?.all isSpace = true
  right : after.head?.all isSpace = true

variable {cs before word after front back inner : List Char}

/-- **Words are those of both parts** where white space is between them. -/
theorem words_append_of_left (h : before.getLast?.all isSpace = true) (cs : List Char) :
    words (before ++ cs) = words before ++ words cs := by
  rcases List.eq_nil_or_concat before with rfl | ⟨front, c, rfl⟩
  · rfl
  · rw [List.concat_eq_append] at h ⊢
    have hc : isSpace c = true := by simpa using h
    have hfront : words (front ++ [c]) = words front := by
      rw [words_append_cons front hc]
      exact List.append_nil _
    rw [hfront, List.append_assoc]
    exact words_append_cons front hc

theorem words_append_of_right (cs : List Char) (h : after.head?.all isSpace = true) :
    words (cs ++ after) = words cs ++ words after := by
  cases after with
  | nil =>
    rw [List.append_nil]
    exact (List.append_nil _).symm
  | cons c after =>
    have hc : isSpace c = true := h
    have hafter : words (c :: after) = words after := words_append_cons [] hc
    rw [words_append_cons cs hc, hafter]

namespace WordAt

/-- **A word that stands in a text is one of its words**, between those on both sides. -/
theorem words_eq (h : WordAt cs before word after) :
    words cs = words before ++ word :: words after := by
  rw [h.split, words_append_of_left h.left, words_append_of_right word h.right,
    words_of_solid h.ne_nil h.solid]
  rfl

/-- A word that stands in what is before another stands in the whole text. -/
theorem trans (h : WordAt cs before word after) (h' : WordAt before front inner back) :
    WordAt cs front inner (back ++ (word ++ after)) where
  split := by rw [h.split, h'.split, List.append_assoc, List.append_assoc]
  ne_nil := h'.ne_nil
  solid := h'.solid
  left := h'.left
  right := by
    cases back with
    | nil =>
      -- Two words would touch, but what is before the second ends in white space.
      have hlast := h.left
      rw [h'.split, List.append_nil, List.getLast?_append,
        List.getLast?_eq_some_getLast h'.ne_nil, Option.some_or, Option.all_some,
        h'.solid _ (List.getLast_mem h'.ne_nil)] at hlast
      exact absurd hlast Bool.false_ne_true
    | cons c back => exact h'.right

end WordAt

/-- White space before a text adds no words. -/
theorem words_dropWhile (cs : List Char) : words (cs.dropWhile isSpace) = words cs := by
  induction cs with
  | nil => rfl
  | cons c cs ih =>
    by_cases hc : isSpace c = true
    · rw [List.dropWhile_cons_of_pos hc, ih]
      exact (words_append_cons [] hc).symm
    · rw [List.dropWhile_cons_of_neg hc]

/-- **The first word of a text stands in it**, with none before it… -/
theorem exists_wordAt_first {rest : List (List Char)} (h : words cs = word :: rest) :
    ∃ before after, WordAt cs before word after ∧ words before = [] ∧ words after = rest := by
  let before := cs.takeWhile isSpace
  let body := cs.dropWhile isSpace
  let first := body.takeWhile fun c => !isSpace c
  let after := body.dropWhile fun c => !isSpace c
  have hspaces : ∀ c ∈ before, isSpace c = true := fun _ hc => List.mem_takeWhile_imp hc
  have hbefore : words before = [] := by
    rw [← words_dropWhile, List.dropWhile_eq_nil_iff.2 hspaces]
    rfl
  have hbody : body ≠ [] := by
    intro hnil
    have hwords := words_dropWhile cs
    rw [show cs.dropWhile isSpace = [] from hnil, h] at hwords
    exact absurd hwords (List.cons_ne_nil _ _).symm
  have hat : WordAt cs before first after := by
    refine ⟨?_, ?_, fun c hc => ?_, ?_, ?_⟩
    · rw [List.takeWhile_append_dropWhile, List.takeWhile_append_dropWhile]
    · have hhead := List.head_dropWhile_not isSpace hbody
      obtain ⟨c, others, heq⟩ := List.exists_cons_of_ne_nil hbody
      have hc : isSpace c = false := by simpa [body, heq] using hhead
      simp [first, heq, hc]
    · simpa using List.mem_takeWhile_imp hc
    · exact (Option.all_eq_true _ _).2 fun c hc => hspaces c (List.mem_of_getLast? hc)
    · cases hafter : after with
      | nil => rfl
      | cons c others =>
        have hhead := List.head_dropWhile_not (fun c => !isSpace c)
          (show after ≠ [] from hafter ▸ List.cons_ne_nil c others)
        simpa [after, hafter] using hhead
  have hwords := hat.words_eq
  rw [h, hbefore, List.nil_append, List.cons.injEq] at hwords
  exact ⟨before, after, hwords.1 ▸ hat, hbefore, hwords.2.symm⟩

/-- …and so does **every other**, with the words before it before and those behind it behind. -/
theorem exists_wordAt {firsts rest : List (List Char)} (h : words cs = firsts ++ word :: rest) :
    ∃ before after, WordAt cs before word after ∧ words before = firsts ∧ words after = rest := by
  induction firsts generalizing cs with
  | nil => exact exists_wordAt_first h
  | cons first firsts ih =>
    obtain ⟨front, tail, hfirst, hfront, htail⟩ := exists_wordAt_first h
    obtain ⟨before, after, hat, hbefore, hafter⟩ := ih htail
    have hbetween : before ≠ [] := by
      -- The first word ends where white space follows, which the next one does not begin with.
      rintro rfl
      obtain ⟨c, others, heq⟩ := List.exists_cons_of_ne_nil hat.ne_nil
      have hright := hfirst.right
      rw [hat.split, heq, List.nil_append, List.cons_append, List.head?_cons, Option.all_some,
        hat.solid c (heq ▸ List.mem_cons_self)] at hright
      exact absurd hright Bool.false_ne_true
    have hfront' : WordAt (front ++ (first ++ before)) front first before := by
      refine ⟨rfl, hfirst.ne_nil, hfirst.solid, hfirst.left, ?_⟩
      have hright := hfirst.right
      rwa [hat.split, List.head?_append, Option.or_of_isSome (by simpa using hbetween)] at hright
    refine ⟨front ++ (first ++ before), after, ⟨?_, hat.ne_nil, hat.solid, ?_, hat.right⟩, ?_,
      hafter⟩
    · rw [hfirst.split, hat.split]
      simp
    · rw [← List.append_assoc, List.getLast?_append, Option.or_of_isSome (by simpa using hbetween)]
      exact hat.left
    · rw [hfront'.words_eq, hfront, hbefore]
      rfl

/-- A word behind a number of others is one of those that follow them… -/
theorem WordAt.mem_drop {n : Nat} (h : WordAt cs before word after)
    (hn : n ≤ (words before).length) : word ∈ (words cs).drop n := by
  rw [h.words_eq, List.drop_append_of_le_length hn]
  exact List.mem_append_right _ List.mem_cons_self

/-- …and each of those **stands behind as many**. -/
theorem exists_wordAt_of_mem_drop {n : Nat} (h : word ∈ (words cs).drop n) :
    ∃ before after, WordAt cs before word after ∧ n ≤ (words before).length := by
  obtain ⟨others, more, hdrop⟩ := List.append_of_mem h
  have hwords : words cs = ((words cs).take n ++ others) ++ word :: more := by
    rw [List.append_assoc, ← hdrop, List.take_append_drop]
  obtain ⟨before, after, hat, hbefore, -⟩ := exists_wordAt hwords
  have hlength := List.length_pos_of_mem h
  rw [List.length_drop] at hlength
  refine ⟨before, after, hat, ?_⟩
  rw [hbefore, List.length_append, List.length_take]
  omega

end Markup.Text
