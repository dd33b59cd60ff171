import Markup.Error
import Markup.Proofs.Text.Slice

/-!
# Proofs/Source/Token — the token of a range

A token that a source answers for a range **has the range's ends and the text between them**; it is
empty exactly when the range is.
-/

namespace Markup.Source

variable {source : Source} {start stop : Nat} {token : Token}

/-- **A range has a token exactly if it has a text.** -/
theorem slice_eq_ok_iff {span : Span} :
    source.slice span = .ok token ↔ ∃ raw, Text.slice? span.start span.stop source.text = some raw ∧
      source.tokenOf raw span.start span.stop = token := by
  rw [slice]
  split
  · next raw h => simp [h]
  · next h =>
    rw [h]
    split <;> simp

/-- …and it is the token's. -/
theorem exists_slice {raw : List Char} (h : Text.slice? start stop source.text = some raw) :
    ∃ token, source.slice ⟨start, stop⟩ = .ok token ∧ token.raw.toList = raw :=
  ⟨_, slice_eq_ok_iff.2 ⟨raw, h, rfl⟩, String.toList_ofList⟩

theorem startOffset_of_slice (h : source.slice ⟨start, stop⟩ = .ok token) :
    token.startOffset = start + source.base.offset := by
  obtain ⟨raw, -, rfl⟩ := slice_eq_ok_iff.1 h
  rfl

theorem endOffset_of_slice (h : source.slice ⟨start, stop⟩ = .ok token) :
    token.endOffset = stop + source.base.offset := by
  obtain ⟨raw, -, rfl⟩ := slice_eq_ok_iff.1 h
  rfl

/-- The local offsets of a token are the ends of its range. -/
theorem toLocal_startOffset (h : source.slice ⟨start, stop⟩ = .ok token) :
    source.toLocal token.startOffset = start := by
  rw [startOffset_of_slice h, toLocal, Nat.add_sub_cancel]

theorem toLocal_endOffset (h : source.slice ⟨start, stop⟩ = .ok token) :
    source.toLocal token.endOffset = stop := by
  rw [endOffset_of_slice h, toLocal, Nat.add_sub_cancel]

/-- The text of a token is that of its range… -/
theorem slice?_of_slice (h : source.slice ⟨start, stop⟩ = .ok token) :
    Text.slice? start stop source.text = some token.raw.toList := by
  obtain ⟨raw, hraw, rfl⟩ := slice_eq_ok_iff.1 h
  exact hraw.trans (congrArg some String.toList_ofList.symm)

/-- …which ends as many bytes further on… -/
theorem stop_of_slice (h : source.slice ⟨start, stop⟩ = .ok token) :
    start + Text.byteSize token.raw.toList = stop := by
  obtain ⟨-, -, -, -, hstop⟩ := Text.slice?_eq_some_iff.1 (slice?_of_slice h)
  exact hstop

theorem le_of_slice (h : source.slice ⟨start, stop⟩ = .ok token) : start ≤ stop :=
  Nat.le.intro (stop_of_slice h)

/-- …and **empty exactly when the range is**. -/
theorem raw_eq_empty_iff_of_slice (h : source.slice ⟨start, stop⟩ = .ok token) :
    token.raw = "" ↔ start = stop := by
  have hstop := stop_of_slice h
  rw [← String.toList_eq_nil_iff, ← Text.byteSize_eq_zero]
  omega

/-- **The empty token at the end of a token is the empty slice there.** -/
theorem slice_emptyToken (h : source.slice ⟨start, stop⟩ = .ok token) :
    source.slice ⟨stop, stop⟩ = .ok (source.emptyToken stop) := by
  have hraw := slice?_of_slice h
  refine slice_eq_ok_iff.2 ⟨[], ?_, ?_⟩
  · obtain ⟨before, after, htext, hbefore, hstop⟩ := Text.slice?_eq_some_iff.1 hraw
    refine Text.slice?_eq_some_iff.2 ⟨before ++ token.raw.toList, after, ?_, ?_, rfl⟩
    · rw [htext, List.append_nil]
    · rw [Text.byteSize_append, hbefore, hstop]
  · rw [emptyToken, Text.floorBoundary_of_slice? hraw]

end Markup.Source
