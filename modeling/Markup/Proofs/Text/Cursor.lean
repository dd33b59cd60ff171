import Mathlib.Logic.Relation
import Markup.Proofs.Text.Slice
import Markup.Text.Cursor

/-!
# Proofs/Text/Cursor — a cursor stays in its text

A move either jumps to an offset that is not past the end or **skips a text that stands at the
cursor** (`Moves.cases`).  So wherever a cursor goes from the beginning of a text, it is never past
the end of that text (`offset_le_of_moves`).
-/

namespace Markup.Text.Cursor

/-- **One move of a cursor.** -/
inductive Moves (c : Cursor) : Cursor → Prop
  | setOffset (offset : Nat) : Moves c (c.setOffset offset)
  | toEnd : Moves c c.toEnd
  | advance : Moves c c.advance
  | eat {c' : Cursor} (word : List Char) (found : c.eat? word = some c') : Moves c c'
  | eatWhile (p : Char → Bool) : Moves c (c.eatWhile p).2
  | seek {c' : Cursor} (word : List Char) (found : c.seek? word = some c') : Moves c c'
  | seekIgnoreCase {c' : Cursor} (word : List Char) (found : c.seekIgnoreCase? word = some c') :
      Moves c c'

variable {c c' : Cursor}

/-- **A move jumps to an offset of the text or skips what stands at the cursor.** -/
theorem Moves.cases (h : Moves c c') :
    (∃ offset ≤ byteSize c.source, c' = { c with offset }) ∨
      ∃ read, read <+: c.rest ∧ c' = c.skip read := by
  cases h with
  | setOffset offset => exact Or.inl ⟨_, Nat.min_le_right _ _, rfl⟩
  | toEnd => exact Or.inl ⟨_, Nat.le_refl _, rfl⟩
  | advance => exact Or.inr ⟨_, List.take_prefix _ _, rfl⟩
  | eat word found =>
    obtain ⟨hstarts, heq⟩ := Option.ite_none_right_eq_some.1 found
    exact Or.inr ⟨word, List.isPrefixOf_iff_prefix.1 hstarts, (Option.some.inj heq).symm⟩
  | eatWhile p => exact Or.inr ⟨_, List.takeWhile_prefix p, rfl⟩
  | seek word found | seekIgnoreCase word found =>
    obtain ⟨⟨read, tail⟩, hcut, rfl⟩ := Option.map_eq_some_iff.1 found
    exact Or.inr ⟨read, ⟨tail, append_of_cutWhere hcut⟩, rfl⟩

/-- What stands at the cursor ends in the text. -/
theorem offset_skip_le {read : List Char} (hread : read <+: c.rest)
    (hle : c.offset ≤ byteSize c.source) : (c.skip read).offset ≤ byteSize c.source := by
  obtain ⟨tail, htail⟩ := hread
  rw [rest] at htail
  cases hdrop : dropBytes? c.offset c.source with
  | none =>
    rw [hdrop, Option.getD_none, List.append_eq_nil_iff] at htail
    obtain ⟨rfl, rfl⟩ := htail
    exact hle
  | some bs =>
    rw [hdrop, Option.getD_some] at htail
    obtain ⟨as, hsource, hsize⟩ := dropBytes?_eq_some_iff.1 hdrop
    change c.offset + byteSize read ≤ byteSize c.source
    rw [hsource, ← htail, byteSize_append, byteSize_append, hsize]
    omega

/-- **No move takes a cursor past the end**, and none changes its text. -/
theorem Moves.offset_le (h : Moves c c') (hle : c.offset ≤ byteSize c.source) :
    c'.source = c.source ∧ c'.offset ≤ byteSize c.source := by
  rcases h.cases with ⟨offset, hoffset, rfl⟩ | ⟨read, hread, rfl⟩
  · exact ⟨rfl, hoffset⟩
  · exact ⟨rfl, offset_skip_le hread hle⟩

/-- **A cursor that starts at the beginning of a text stays in it**, however it moves. -/
theorem offset_le_of_moves {source : List Char}
    (h : Relation.ReflTransGen Moves { source } c) :
    c.source = source ∧ c.offset ≤ byteSize source := by
  induction h with
  | refl => exact ⟨rfl, Nat.zero_le _⟩
  | tail _ hmove ih =>
    obtain ⟨rfl, hle⟩ := ih
    exact hmove.offset_le hle

end Markup.Text.Cursor
