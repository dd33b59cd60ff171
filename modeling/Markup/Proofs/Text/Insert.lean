import Markup.Proofs.Text.Slice

/-!
# Proofs/Text/Insert — words put into a text

`insertFrom` puts words into a text, each at **a position that is counted in the text as it was**;
where several are put in at one position they follow each other as they are listed.  Words at the
beginning can be taken off (`insertFrom_append_words`), and a text before all of them is kept as it
is (`insertFrom_append`).
-/

namespace Markup.Text

/-- A word that is to be put into a text, and the position in bytes where. -/
structure Insertion where
  position : Nat
  word : List Char
deriving DecidableEq, Repr

/-- All that is put in at a position. -/
def wordsAt (words : List Insertion) (position : Nat) : List Char :=
  (words.filter (·.position == position)).flatMap Insertion.word

/-- **The text from an offset on, with the words put in.** -/
def insertFrom (words : List Insertion) (offset : Nat) : List Char → List Char
  | [] => wordsAt words offset
  | c :: cs => wordsAt words offset ++ c :: insertFrom words (offset + c.utf8Size) cs

variable {words : List Insertion} {offset : Nat} {as : List Char}

theorem wordsAt_of_lt (h : ∀ w ∈ words, offset < w.position) : wordsAt words offset = [] := by
  have hnone : words.filter (·.position == offset) = [] :=
    List.filter_eq_nil_iff.2 fun w hw => by simpa using Nat.ne_of_gt (h w hw)
  rw [wordsAt, hnone, List.flatMap_nil]

/-- What has been passed is not put in. -/
theorem insertFrom_cons_of_lt {w : Insertion} (h : w.position < offset) (cs : List Char) :
    insertFrom (w :: words) offset cs = insertFrom words offset cs := by
  have hpassed : ∀ n, w.position < n → wordsAt (w :: words) n = wordsAt words n := fun n hn => by
    rw [wordsAt, List.filter_cons_of_neg (by simpa using Nat.ne_of_lt hn), wordsAt]
  induction cs generalizing offset with
  | nil => exact hpassed offset h
  | cons c cs ih => rw [insertFrom, insertFrom, hpassed offset h, ih (Nat.lt_add_right _ h)]

/-- **The first word is put in first**, if it stands at the beginning. -/
theorem insertFrom_cons (word cs : List Char) :
    insertFrom (⟨offset, word⟩ :: words) offset cs = word ++ insertFrom words offset cs := by
  have hhere : wordsAt (⟨offset, word⟩ :: words) offset = word ++ wordsAt words offset := by
    rw [wordsAt, List.filter_cons_of_pos (by simp), List.flatMap_cons, wordsAt]
  cases cs with
  | nil => exact hhere
  | cons c cs =>
    have hlt : offset < offset + c.utf8Size := Nat.lt_add_of_pos_right c.utf8Size_pos
    rw [insertFrom, insertFrom, hhere, insertFrom_cons_of_lt hlt, List.append_assoc]

/-- …and so are several. -/
theorem insertFrom_append_words (here : List (List Char)) (cs : List Char) :
    insertFrom (here.map (⟨offset, ·⟩) ++ words) offset cs =
      here.flatten ++ insertFrom words offset cs := by
  induction here with
  | nil => rfl
  | cons word here ih =>
    rw [List.map_cons, List.cons_append, insertFrom_cons, ih, List.flatten_cons,
      List.append_assoc]

/-- What is put into nothing is all there is then. -/
theorem insertFrom_words (offset : Nat) (here : List (List Char)) :
    insertFrom (here.map (⟨offset, ·⟩)) offset [] = here.flatten := by
  rw [← List.append_nil (here.map _), insertFrom_append_words]
  exact List.append_nil _

/-- **A text before all words is kept.** -/
theorem insertFrom_append (h : ∀ w ∈ words, offset + byteSize as ≤ w.position) (bs : List Char) :
    insertFrom words offset (as ++ bs) = as ++ insertFrom words (offset + byteSize as) bs := by
  induction as generalizing offset with
  | nil => rfl
  | cons a as ih =>
    rw [byteSize_cons, ← Nat.add_assoc] at h
    have hlt : ∀ w ∈ words, offset < w.position := fun w hw => by
      have := a.utf8Size_pos
      have := h w hw
      omega
    rw [List.cons_append, insertFrom, wordsAt_of_lt hlt, ih h, List.nil_append, byteSize_cons,
      ← Nat.add_assoc]
    rfl

end Markup.Text
