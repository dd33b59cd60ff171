import Markup.Text.Classes

/-!
# Text/Search — finding, trimming and comparing pieces of a text

`cutWhere` splits a text at the first place where a test of the remaining text holds; `cut` and
`cutIgnoreCase` look for a fixed word with it.  `append_of_cutWhere` says that **the two parts are
the text**, and `find_of_cutWhere` that the test holds of the second part.  Case is ASCII case
throughout.
-/

namespace Markup.Text

/-- Equal up to the case of ASCII letters. -/
def equalIgnoreCase (as bs : List Char) : Bool := as.map Char.toLower == bs.map Char.toLower

/-- The text begins with `word`, up to the case of ASCII letters. -/
def startsWithIgnoreCase (word cs : List Char) : Bool :=
  equalIgnoreCase word (cs.take word.length)

/-- The text split where `test` first holds of what remains; the empty rest is tested too. -/
def cutWhere (test : List Char → Bool) : List Char → Option (List Char × List Char)
  | [] => if test [] then some ([], []) else none
  | c :: cs =>
    if test (c :: cs) then some ([], c :: cs)
    else (cutWhere test cs).map fun parts => (c :: parts.1, parts.2)

/-- The text split at the first occurrence of `word`, which begins the second part. -/
def cut (word : List Char) : List Char → Option (List Char × List Char) :=
  cutWhere word.isPrefixOf

/-- The text split at the first occurrence of `word` in any case of its ASCII letters. -/
def cutIgnoreCase (word : List Char) : List Char → Option (List Char × List Char) :=
  cutWhere (startsWithIgnoreCase word)

variable {test : List Char → Bool} {cs as bs : List Char}

/-- **The parts of a cut are the text.** -/
theorem append_of_cutWhere (h : cutWhere test cs = some (as, bs)) : as ++ bs = cs := by
  induction cs generalizing as with
  | nil => simp only [cutWhere] at h; split at h <;> simp_all
  | cons c cs ih =>
    simp only [cutWhere] at h
    split at h
    · simp only [Option.some.injEq, Prod.mk.injEq] at h
      obtain ⟨rfl, rfl⟩ := h
      rfl
    · obtain ⟨⟨as', bs'⟩, h', h⟩ := Option.map_eq_some_iff.1 h
      simp only [Prod.mk.injEq] at h
      obtain ⟨rfl, rfl⟩ := h
      simp [ih h']

/-- The test holds where the text was cut. -/
theorem find_of_cutWhere (h : cutWhere test cs = some (as, bs)) : test bs = true := by
  induction cs generalizing as with
  | nil => simp only [cutWhere] at h; split at h <;> simp_all
  | cons c cs ih =>
    simp only [cutWhere] at h
    split at h
    · simp_all
    · obtain ⟨⟨as', bs'⟩, h', h⟩ := Option.map_eq_some_iff.1 h
      simp only [Prod.mk.injEq] at h
      obtain ⟨rfl, rfl⟩ := h
      exact ih h'

theorem append_of_cut {word : List Char} (h : cut word cs = some (as, bs)) : as ++ bs = cs :=
  append_of_cutWhere h

/-! ## Trimming -/

/-- The first line of the text with its line feed, and what follows it. -/
def splitLine (cs : List Char) : List Char × List Char :=
  let line := cs.takeWhile (· != '\n')
  match cs.dropWhile (· != '\n') with
  | [] => (line, [])
  | feed :: rest => (line ++ [feed], rest)

theorem append_splitLine (cs : List Char) : (splitLine cs).1 ++ (splitLine cs).2 = cs := by
  have h := List.takeWhile_append_dropWhile (p := (· != '\n')) (l := cs)
  simp only [splitLine]
  split
  · next hd => simpa [hd] using h
  · next hd => simpa [hd] using h

/-- The text without the characters of class `p` at its end. -/
def trimEnd (p : Char → Bool) (cs : List Char) : List Char := (cs.reverse.dropWhile p).reverse

/-- The text without white space at either end. -/
def trim (cs : List Char) : List Char := trimEnd isSpace (cs.dropWhile isSpace)

/-- The maximal runs of the text that hold no white space. -/
def words (cs : List Char) : List (List Char) :=
  (cs.splitOnP isSpace).filter fun w => !w.isEmpty

/-- The letters and digits that the text begins with, after white space. -/
def leadingWord (cs : List Char) : List Char :=
  (cs.dropWhile isSpace).takeWhile Char.isAlphanum

end Markup.Text
