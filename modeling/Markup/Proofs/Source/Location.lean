import Mathlib.Data.List.DropRight
import Markup.Proofs.Source.Refusal

/-!
# Proofs/Source/Location — the index finds what counting finds

`Base.after` counts from the beginning of a text: **each line feed begins a line**, and the
characters behind the last one make the column.  The index answers the same by two bisections
(`Source.location_byteSize`): the line starts up to an offset are as many as the line feeds before
it (`LineIndex.lineOf_byteSize`), and the bytes that wide characters add on its line are what the
surpluses at its two ends differ by (`LineIndex.column_byteSize`).
-/

namespace Markup

/-- The partition point of what satisfies a test and what does not is **where the two meet**. -/
theorem partitionPoint_append {α : Type} {p : α → Bool} {xs ys : List α}
    (hxs : ∀ x ∈ xs, p x = true) (hys : ∀ y ∈ ys, p y = false) :
    partitionPoint p (xs ++ ys).toArray = xs.length := by
  have hsize : xs.length ≤ (xs ++ ys).toArray.size := by simp
  refine partitionPoint_eq hsize (fun i hi hlt => ?_) (fun i hi hle => ?_)
  · rw [List.getElem_toArray, List.getElem_append_left hlt]
    exact hxs _ (List.getElem_mem hlt)
  · rw [List.getElem_toArray, List.getElem_append_right hle]
    exact hys _ (List.getElem_mem _)

/-! ## Counting -/

/-- The test of a character that goes on with its line. -/
abbrev Text.staysOnLine (c : Char) : Bool := c != '\n'

/-- **The line and column behind a text**, found by counting: one line for each line feed, and one
column for each character behind the last of them; the base moves the columns of the first line. -/
def Base.after (base : Base) (before : List Char) : Nat × Nat :=
  (base.line + before.count '\n',
    (before.rtakeWhile Text.staysOnLine).length + if '\n' ∈ before then 1 else base.col)

/-- **The token of a text that stands behind another**, found by counting. -/
def Source.counted (source : Source) (before raw : List Char) : Token where
  raw := String.ofList raw
  startOffset := Text.byteSize before + source.base.offset
  endOffset := Text.byteSize (before ++ raw) + source.base.offset
  startLine := (source.base.after before).1
  endLine := (source.base.after (before ++ raw)).1
  startCol := (source.base.after before).2
  endCol := (source.base.after (before ++ raw)).2

namespace Text

variable {offset surplus : Nat} {as bs cs before after : List Char}

/-- No character takes less than a byte. -/
theorem length_le_byteSize (cs : List Char) : cs.length ≤ byteSize cs := by
  induction cs with
  | nil => exact Nat.le_refl 0
  | cons c cs ih =>
    have := c.utf8Size_pos
    rw [List.length_cons, byteSize_cons]
    omega

/-- A text is its finished lines and the one that it ends in. -/
theorem rdropWhile_append_rtakeWhile (p : Char → Bool) (cs : List Char) :
    cs.rdropWhile p ++ cs.rtakeWhile p = cs := by
  rw [List.rdropWhile, List.rtakeWhile, ← List.reverse_append, List.takeWhile_append_dropWhile,
    List.reverse_reverse]

/-- A range has a text exactly if **its ends are boundaries in order**. -/
theorem isRange_iff {start stop : Nat} : IsRange cs start stop ↔
    start ≤ stop ∧ stop ≤ byteSize cs ∧ isBoundary start cs = true ∧ isBoundary stop cs = true := by
  refine ⟨fun h => ?_, fun ⟨hle, _, hstart, hstop⟩ => isRange_of_isBoundary hstart hstop hle⟩
  obtain ⟨hstart, hstop⟩ := h.isBoundary
  obtain ⟨raw, hslice⟩ := h
  obtain ⟨before, after, rfl, hbefore, hsize⟩ := slice?_eq_some_iff.1 hslice
  simp only [byteSize_append]
  exact ⟨by omega, by omega, hstart, hstop⟩

/-! ## Line starts -/

theorem lineStartsFrom_append (offset : Nat) (as bs : List Char) :
    lineStartsFrom offset (as ++ bs) =
      lineStartsFrom offset as ++ lineStartsFrom (offset + byteSize as) bs := by
  induction as generalizing offset with
  | nil => rfl
  | cons a as ih =>
    rw [List.cons_append, lineStartsFrom, lineStartsFrom, byteSize_cons, ← Nat.add_assoc]
    split
    · next hfeed =>
      subst hfeed
      rw [ih, List.cons_append]
      rfl
    · exact ih _

/-- A line starts within the text behind the offset that it begins at. -/
theorem bounds_of_mem_lineStartsFrom {start : Nat} (h : start ∈ lineStartsFrom offset cs) :
    offset < start ∧ start ≤ offset + byteSize cs := by
  induction cs generalizing offset with
  | nil => exact absurd h List.not_mem_nil
  | cons c cs ih =>
    rw [lineStartsFrom] at h
    rw [byteSize_cons]
    have hpos := c.utf8Size_pos
    split at h
    · next hfeed =>
      subst hfeed
      have hsize : '\n'.utf8Size = 1 := rfl
      rcases List.mem_cons.1 h with rfl | hlater
      · omega
      · have := ih hlater
        omega
    · have := ih h
      omega

/-- **There is a line start for each line feed**… -/
theorem length_lineStartsFrom (offset : Nat) (cs : List Char) :
    (lineStartsFrom offset cs).length = cs.count '\n' := by
  induction cs generalizing offset with
  | nil => rfl
  | cons c cs ih =>
    rw [lineStartsFrom]
    split
    · next hfeed => rw [hfeed, List.length_cons, ih, List.count_cons_self]
    · next hfeed => rw [ih, List.count_cons_of_ne hfeed]

/-- …and the last of them is **where the finished lines end**. -/
theorem getElem?_lineStartsFrom (offset : Nat) (cs : List Char) :
    (offset :: lineStartsFrom offset cs)[cs.count '\n']? =
      some (offset + byteSize (cs.rdropWhile staysOnLine)) := by
  -- From the right, as a line start is added by the last character only.
  induction cs using List.reverseRecOn with
  | nil => rfl
  | append_singleton cs c ih =>
    rw [lineStartsFrom_append, ← List.cons_append, List.count_append]
    by_cases hfeed : c = '\n'
    · subst hfeed
      have hlast : (offset :: lineStartsFrom offset cs).length = cs.count '\n' + 1 := by
        rw [List.length_cons, length_lineStartsFrom]
      have hstart : lineStartsFrom (offset + byteSize cs) ['\n'] = [offset + byteSize cs + 1] := rfl
      rw [hstart, List.rdropWhile_concat_neg _ _ _ (by decide), byteSize_append,
        List.count_singleton_self, ← hlast, List.getElem?_concat_length]
      rfl
    · have hstays : staysOnLine c = true := by simpa using hfeed
      have hnone : lineStartsFrom (offset + byteSize cs) [c] = [] := if_neg hfeed
      rw [List.rdropWhile_concat_pos _ _ _ hstays, hnone, List.append_nil,
        List.count_singleton, if_neg (by simpa using hfeed), Nat.add_zero, ih]

/-! ## Wide characters -/

theorem wideCharsFrom_append (offset surplus : Nat) (as bs : List Char) :
    wideCharsFrom offset surplus (as ++ bs) = wideCharsFrom offset surplus as ++
      wideCharsFrom (offset + byteSize as) (surplus + (byteSize as - as.length)) bs := by
  induction as generalizing offset surplus with
  | nil => rfl
  | cons a as ih =>
    have hle := length_le_byteSize as
    have hpos := a.utf8Size_pos
    rw [List.cons_append, wideCharsFrom, wideCharsFrom, byteSize_cons, List.length_cons,
      ← Nat.add_assoc]
    have hcounts : surplus + (a.utf8Size - 1) + (byteSize as - as.length) =
        surplus + (a.utf8Size + byteSize as - (as.length + 1)) := by omega
    split
    · next hsize => rw [ih, ← hcounts, hsize, Nat.sub_self, Nat.add_zero surplus]
    · dsimp only
      rw [ih, hcounts, List.cons_append]

/-- A wide character begins within the text. -/
theorem bounds_of_mem_wideCharsFrom {w : Nat × Nat} (h : w ∈ wideCharsFrom offset surplus cs) :
    offset ≤ w.1 ∧ w.1 < offset + byteSize cs := by
  induction cs generalizing offset surplus with
  | nil => exact absurd h List.not_mem_nil
  | cons c cs ih =>
    have hpos := c.utf8Size_pos
    rw [wideCharsFrom] at h
    rw [byteSize_cons]
    split at h
    · have := ih h
      omega
    · rcases List.mem_cons.1 h with rfl | hlater
      · dsimp only
        omega
      · have := ih hlater
        omega

/-- **The surplus at the last wide character is that of the whole text.** -/
theorem getLast?_wideCharsFrom (offset surplus : Nat) (cs : List Char) :
    ((wideCharsFrom offset surplus cs).getLast?.map Prod.snd).getD surplus =
      surplus + (byteSize cs - cs.length) := by
  induction cs generalizing offset surplus with
  | nil => rfl
  | cons c cs ih =>
    have hle := length_le_byteSize cs
    have hpos := c.utf8Size_pos
    rw [wideCharsFrom, byteSize_cons, List.length_cons]
    split
    · rw [ih]
      omega
    · have hcons : ∀ (w : Nat × Nat) (ws : List (Nat × Nat)),
          ((w :: ws).getLast?.map Prod.snd).getD surplus =
            (ws.getLast?.map Prod.snd).getD w.2 := by
        intro w ws
        cases hlast : ws.getLast? <;> simp [List.getLast?_cons, hlast]
      rw [hcons, ih]
      omega

end Text

/-! ## Looking up -/

namespace LineIndex

open Text

variable (before after : List Char)

/-- **The line of a boundary** is the number of line feeds before it… -/
theorem lineOf_byteSize :
    (ofText (before ++ after)).lineOf (byteSize before) = before.count '\n' := by
  have hpoint : partitionPoint (fun start => start ≤ byteSize before)
      (ofText (before ++ after)).lineStarts = (0 :: lineStartsFrom 0 before).length := by
    rw [ofText, lineStartsFrom_append, ← List.cons_append]
    refine partitionPoint_append (fun start hstart => ?_) (fun start hstart => ?_)
    · rcases List.mem_cons.1 hstart with rfl | hlater
      · simp
      · have := bounds_of_mem_lineStartsFrom hlater
        simp only [decide_eq_true_eq]
        omega
    · have := bounds_of_mem_lineStartsFrom hstart
      simp only [decide_eq_false_iff_not]
      omega
  rw [lineOf, hpoint, List.length_cons, length_lineStartsFrom, Nat.add_sub_cancel]

/-- …which begins where the finished lines end. -/
theorem getElem?_lineStarts :
    (ofText (before ++ after)).lineStarts[before.count '\n']? =
      some (byteSize (before.rdropWhile staysOnLine)) := by
  have hlast := getElem?_lineStartsFrom 0 before
  have hlt : before.count '\n' < (0 :: lineStartsFrom 0 before).length := by
    rw [List.length_cons, length_lineStartsFrom]
    exact Nat.lt_succ_self _
  rw [ofText, List.getElem?_toArray, lineStartsFrom_append, ← List.cons_append,
    List.getElem?_append_left hlt, hlast, Nat.zero_add]

/-- **The surplus before a boundary** is what the text before it takes beyond a byte for each
character. -/
theorem surplusBefore_byteSize :
    (ofText (before ++ after)).surplusBefore (byteSize before) =
      byteSize before - before.length := by
  have hsplit := wideCharsFrom_append 0 0 before after
  have hpoint : partitionPoint (fun w => w.1 < byteSize before)
      (ofText (before ++ after)).wideChars = (wideCharsFrom 0 0 before).length := by
    rw [ofText, hsplit]
    refine partitionPoint_append (fun w hw => ?_) (fun w hw => ?_)
    · have := bounds_of_mem_wideCharsFrom hw
      simp only [decide_eq_true_eq]
      omega
    · have := bounds_of_mem_wideCharsFrom hw
      simp only [decide_eq_false_iff_not]
      omega
  have hlast := getLast?_wideCharsFrom 0 0 before
  rw [Nat.zero_add] at hlast
  rw [surplusBefore, hpoint, ← hlast]
  split
  · next hnone => simp [List.length_eq_zero_iff.1 hnone]
  · next n hsome =>
    have hlt : n < (wideCharsFrom 0 0 before).length := by omega
    have hn : (wideCharsFrom 0 0 before).length - 1 = n := by omega
    rw [ofText, hsplit, List.getElem?_toArray, List.getElem?_append_left hlt,
      List.getLast?_eq_getElem?, hn]

/-- **The column of a boundary** is one more than the characters of its line before it. -/
theorem column_byteSize :
    (ofText (before ++ after)).column (byteSize (before.rdropWhile staysOnLine))
      (byteSize before) = (before.rtakeWhile staysOnLine).length + 1 := by
  have hlines := rdropWhile_append_rtakeWhile staysOnLine before
  have hhere := surplusBefore_byteSize before after
  have hstart := surplusBefore_byteSize (before.rdropWhile staysOnLine)
    (before.rtakeWhile staysOnLine ++ after)
  rw [← List.append_assoc, hlines] at hstart
  have hsize := congrArg byteSize hlines
  have hlength := congrArg List.length hlines
  rw [byteSize_append] at hsize
  rw [List.length_append] at hlength
  have hle := length_le_byteSize (before.rdropWhile staysOnLine)
  have hle' := length_le_byteSize (before.rtakeWhile staysOnLine)
  rw [column, hhere, hstart]
  omega

end LineIndex

namespace Source

variable {source : Source}

/-- **A place is where counting finds it**: the line and column of a boundary are those behind the
text before it. -/
theorem location_byteSize {before after : List Char} (htext : source.text = before ++ after) :
    source.location (Text.byteSize before) = source.base.after before := by
  have hindex : source.index = LineIndex.ofText (before ++ after) := by
    rw [source.index_eq, htext]
  have hmin : min (Text.byteSize before) source.size = Text.byteSize before := by
    rw [size_eq, htext, Text.byteSize_append]
    omega
  rw [location, hmin, hindex, LineIndex.lineOf_byteSize, LineIndex.getElem?_lineStarts,
    Option.getD_some, LineIndex.column_byteSize, Base.after]
  by_cases hfeed : '\n' ∈ before
  · have hcount : before.count '\n' ≠ 0 := (List.count_pos_iff.2 hfeed).ne'
    rw [if_neg hcount, if_pos hfeed, Nat.add_comm source.base.line]
  · have hcount : before.count '\n' = 0 := List.count_eq_zero.2 hfeed
    rw [if_pos hcount, if_neg hfeed, hcount, Nat.add_zero]
    refine Prod.ext rfl ?_
    dsimp only
    omega

/-- The token between two boundaries is the one that counting finds. -/
theorem tokenOf_eq_counted {before raw after : List Char}
    (htext : source.text = before ++ raw ++ after) :
    source.tokenOf raw (Text.byteSize before) (Text.byteSize (before ++ raw)) =
      source.counted before raw := by
  have hstart : source.text = before ++ (raw ++ after) := by rw [htext, List.append_assoc]
  simp only [tokenOf, counted, location_byteSize htext, location_byteSize hstart]

/-- What is no range of the text is refused as a fragment. -/
theorem kind_of_slice_eq_error {span : Span} {e : Error} (h : source.slice span = .error e) :
    e.kind = .fragment := by
  rw [slice] at h
  split at h
  · cases h
  · split at h
    · obtain rfl := Except.error.inj h
      rfl
    · obtain rfl := Except.error.inj h
      rfl

/-- **The index agrees with counting.**  A slice is found exactly where its ends are boundaries of
the text in order, and otherwise refused as a fragment; its token is the one that counting finds for
the text between them, it begins where it was asked for, and it ends where a token that follows it
begins. -/
theorem slice_eq_counted (source : Source) (start stop : Nat) :
    ((∃ token, source.slice ⟨start, stop⟩ = .ok token) ↔
      start ≤ stop ∧ stop ≤ Text.byteSize source.text ∧
        Text.isBoundary start source.text = true ∧ Text.isBoundary stop source.text = true) ∧
    (∀ token, source.slice ⟨start, stop⟩ = .ok token →
      (∃ before raw after, source.text = before ++ raw ++ after ∧ Text.byteSize before = start ∧
        Text.byteSize (before ++ raw) = stop ∧ token = source.counted before raw) ∧
      source.toLocal token.startOffset = start ∧
      ∀ next follower, source.slice ⟨stop, next⟩ = .ok follower →
        (token.endOffset, token.endLine, token.endCol) =
          (follower.startOffset, follower.startLine, follower.startCol)) ∧
    ∀ e, source.slice ⟨start, stop⟩ = .error e → e.kind = .fragment := by
  refine ⟨?_, fun token htoken => ⟨?_, ?_, ?_⟩, fun e he => kind_of_slice_eq_error he⟩
  · rw [← Text.isRange_iff]
    exact ⟨fun ⟨token, htoken⟩ => ⟨_, slice?_of_slice htoken⟩, exists_slice_of_isRange⟩
  · obtain ⟨raw, hraw, htokenOf⟩ := slice_eq_ok_iff.1 htoken
    obtain ⟨before, after, htext, hbefore, hstop⟩ := Text.slice?_eq_some_iff.1 hraw
    have hsize : Text.byteSize (before ++ raw) = stop := by
      rw [Text.byteSize_append, hbefore]
      exact hstop
    refine ⟨before, raw, after, htext, hbefore, hsize, ?_⟩
    rw [← htokenOf, ← tokenOf_eq_counted htext, hbefore, hsize]
  · exact toLocal_startOffset htoken
  · intro next follower hfollower
    -- Both ends are the location of one offset, whatever the texts on its sides are.
    obtain ⟨raw, -, rfl⟩ := slice_eq_ok_iff.1 htoken
    obtain ⟨raw', -, rfl⟩ := slice_eq_ok_iff.1 hfollower
    rfl

/-- A text of two lines with characters of one to four bytes, in the middle of a file. -/
def wideLines : Source := .ofString "é\n€𝔘x" ⟨10, 3, 5⟩

theorem slice_eq_counted_wideLines :
    ∃ token, wideLines.slice ⟨2, 10⟩ = .ok token ∧ (token.startLine, token.startCol) = (3, 6) ∧
      (token.endLine, token.endCol) = (4, 3) := by
  obtain ⟨token, htoken⟩ := (slice_eq_counted wideLines 2 10).1.2 (by decide)
  obtain ⟨⟨before, raw, after, htext, hbefore, hraw, rfl⟩, -⟩ :=
    (slice_eq_counted wideLines 2 10).2.1 token htoken
  have hsplit : before ++ raw ++ after = ['é', '\n', '€', '𝔘'] ++ ['x'] := htext.symm
  obtain ⟨hends, -⟩ := Text.append_inj_of_byteSize hsplit hraw
  have hline : before ++ raw = ['é'] ++ ['\n', '€', '𝔘'] := hends
  obtain ⟨rfl, rfl⟩ := Text.append_inj_of_byteSize hline hbefore
  exact ⟨_, htoken, by decide, by decide⟩

end Source

end Markup
