import Markup.Text.Bytes

/-!
# Proofs/Text/Slice — a slice is the middle of a decomposition of its text

`slice?_eq_some_iff` reads a slice **in both directions**: it is found exactly where the text falls
apart into what stands before the slice, the slice and what follows it.  Two slices that meet are
one (`slice?_join`), and at an end of a slice the last boundary is the place itself
(`floorBoundary_of_slice?`).  Between any two boundaries in order there is one
(`isRange_of_isBoundary`).
-/

namespace Markup.Text

variable {n start mid stop : Nat} {as bs as' bs' cs : List Char}

/-- A text that is not empty takes bytes. -/
theorem byteSize_pos (h : cs ≠ []) : 0 < byteSize cs :=
  Nat.pos_of_ne_zero fun hzero => h (byteSize_eq_zero.1 hzero)

/-- **What is dropped and what is left are the text.** -/
theorem dropBytes?_eq_some_iff :
    dropBytes? n cs = some bs ↔ ∃ as, cs = as ++ bs ∧ byteSize as = n := by
  refine ⟨fun h => ?_, ?_⟩
  · induction cs generalizing n with
    | nil =>
      match n, h with
      | 0, h => exact ⟨[], Option.some.inj h, rfl⟩
    | cons c cs ih =>
      match n, h with
      | 0, h => exact ⟨[], Option.some.inj h, rfl⟩
      | n + 1, h =>
        simp only [dropBytes?] at h
        split at h
        · obtain ⟨as, rfl, has⟩ := ih h
          exact ⟨c :: as, rfl, by rw [byteSize_cons, has]; omega⟩
        · simp at h
  · rintro ⟨as, rfl, rfl⟩
    exact dropBytes?_byteSize as bs

/-- What is left is dropped further. -/
theorem dropBytes?_of_append (h : dropBytes? n cs = some (as ++ bs)) :
    dropBytes? (n + byteSize as) cs = some bs := by
  obtain ⟨before, rfl, rfl⟩ := dropBytes?_eq_some_iff.1 h
  refine dropBytes?_eq_some_iff.2 ⟨before ++ as, ?_, byteSize_append before as⟩
  rw [List.append_assoc]

/-- …and so are what is taken and what follows it. -/
theorem takeBytes?_eq_some_iff :
    takeBytes? n cs = some as ↔ ∃ bs, cs = as ++ bs ∧ byteSize as = n := by
  refine ⟨fun h => ?_, ?_⟩
  · induction cs generalizing n as with
    | nil =>
      match n, h with
      | 0, h => exact ⟨[], by simp [← Option.some.inj h], by simp [← Option.some.inj h]⟩
    | cons c cs ih =>
      match n, h with
      | 0, h => exact ⟨c :: cs, by simp [← Option.some.inj h], by simp [← Option.some.inj h]⟩
      | n + 1, h =>
        simp only [takeBytes?] at h
        split at h
        · obtain ⟨as', h', rfl⟩ := Option.map_eq_some_iff.1 h
          obtain ⟨bs, rfl, has⟩ := ih h'
          exact ⟨bs, rfl, by rw [byteSize_cons, has]; omega⟩
        · simp at h
  · rintro ⟨bs, rfl, rfl⟩
    exact takeBytes?_byteSize as bs

/-- **A slice is found exactly where the text falls apart around it.** -/
theorem slice?_eq_some_iff :
    slice? start stop cs = some bs ↔
      ∃ before after, cs = before ++ bs ++ after ∧ byteSize before = start ∧
        start + byteSize bs = stop := by
  refine ⟨fun h => ?_, ?_⟩
  · rw [slice?] at h
    split at h
    · obtain ⟨rest, hdrop, htake⟩ := Option.bind_eq_some_iff.1 h
      obtain ⟨before, rfl, hbefore⟩ := dropBytes?_eq_some_iff.1 hdrop
      obtain ⟨after, rfl, hbs⟩ := takeBytes?_eq_some_iff.1 htake
      exact ⟨before, after, by rw [List.append_assoc], hbefore, by omega⟩
    · simp at h
  · rintro ⟨before, after, rfl, rfl, rfl⟩
    exact slice?_append before bs after

/-- Two decompositions of a text at the same number of bytes are the same. -/
theorem append_inj_of_byteSize (h : as ++ bs = as' ++ bs') (hsize : byteSize as = byteSize as') :
    as = as' ∧ bs = bs' := by
  have hdrop := dropBytes?_byteSize as bs
  rw [h, hsize, dropBytes?_byteSize] at hdrop
  obtain rfl := Option.some.inj hdrop
  exact ⟨List.append_cancel_right h, rfl⟩

/-- **Two slices that meet are one.** -/
theorem slice?_join (h₁ : slice? start mid cs = some as) (h₂ : slice? mid stop cs = some bs) :
    slice? start stop cs = some (as ++ bs) := by
  obtain ⟨before, after, rfl, hbefore, hmid⟩ := slice?_eq_some_iff.1 h₁
  obtain ⟨before', after', htext, hbefore', hstop⟩ := slice?_eq_some_iff.1 h₂
  rw [List.append_assoc before' bs after'] at htext
  obtain ⟨-, rfl⟩ := append_inj_of_byteSize htext (by rw [byteSize_append]; omega)
  refine slice?_eq_some_iff.2 ⟨before, after', by simp only [List.append_assoc], hbefore, ?_⟩
  rw [byteSize_append]
  omega

/-- **A slice begins with slices.** -/
theorem slice?_of_append (h : slice? start stop cs = some (as ++ bs)) :
    slice? start (start + byteSize as) cs = some as ∧ start + byteSize as ≤ stop := by
  obtain ⟨before, after, htext, hbefore, hstop⟩ := slice?_eq_some_iff.1 h
  rw [byteSize_append] at hstop
  refine ⟨slice?_eq_some_iff.2 ⟨before, bs ++ after, ?_, hbefore, rfl⟩, by omega⟩
  rw [htext, List.append_assoc, List.append_assoc, List.append_assoc]

/-- What follows some text of a slice is a slice. -/
theorem slice?_of_append_right (h : slice? start stop cs = some (as ++ bs)) :
    slice? (start + byteSize as) stop cs = some bs := by
  obtain ⟨before, after, hcs, hbefore, hstop⟩ := slice?_eq_some_iff.1 h
  refine slice?_eq_some_iff.2 ⟨before ++ as, after, ?_, ?_, ?_⟩
  · simp [hcs]
  · rw [byteSize_append, hbefore]
  · rw [← hstop, byteSize_append, Nat.add_assoc]

/-- What a text goes on with at an offset is the slice there. -/
theorem slice?_of_dropBytes? (h : dropBytes? start cs = some (as ++ bs)) :
    slice? start (start + byteSize as) cs = some as := by
  obtain ⟨before, rfl, hsize⟩ := dropBytes?_eq_some_iff.1 h
  exact slice?_eq_some_iff.2 ⟨before, bs, (List.append_assoc _ _ _).symm, hsize, rfl⟩

/-- Dropping the bytes of what a text begins with leaves the rest. -/
theorem dropBytes_byteSize (as bs : List Char) : dropBytes (byteSize as) (as ++ bs) = bs := by
  induction as with
  | nil => rw [byteSize_nil, List.nil_append, dropBytes]
  | cons a as ih =>
    obtain ⟨n, hn⟩ := Nat.exists_eq_succ_of_ne_zero (Nat.pos_iff_ne_zero.1 a.utf8Size_pos)
    have hsize : byteSize (a :: as) = n + byteSize as + 1 := by
      rw [byteSize_cons]
      omega
    rw [List.cons_append, hsize, dropBytes]
    rwa [show n + byteSize as + 1 - a.utf8Size = byteSize as by omega]

/-- At the beginning of a text there is an empty slice. -/
theorem slice?_zero (cs : List Char) : slice? 0 0 cs = some [] :=
  slice?_eq_some_iff.2 ⟨[], cs, rfl, rfl, rfl⟩

/-- The whole text is the slice between its ends. -/
theorem slice?_whole (cs : List Char) : slice? 0 (byteSize cs) cs = some cs :=
  slice?_eq_some_iff.2 ⟨[], [], by simp, rfl, Nat.zero_add _⟩

/-- An empty range has no text, whether it is one of the text or not. -/
theorem getD_slice?_self (n : Nat) (cs : List Char) : (slice? n n cs).getD [] = [] := by
  cases h : slice? n n cs with
  | none => rfl
  | some bs =>
    obtain ⟨before, after, -, -, hsize⟩ := slice?_eq_some_iff.1 h
    exact byteSize_eq_zero.1 (Nat.add_eq_left.1 hsize)

/-- **A slice begins with the character that stands there**, if with any. -/
theorem takeWhile_slice?_eq_nil {p : Char → Bool} {c : Char}
    (h : dropBytes? start cs = some (c :: as)) (hc : p c = false) :
    ((slice? start stop cs).getD []).takeWhile p = [] := by
  cases hslice : slice? start stop cs with
  | none => rfl
  | some bs =>
    obtain ⟨before, after, rfl, rfl, -⟩ := slice?_eq_some_iff.1 hslice
    rw [List.append_assoc, dropBytes?_byteSize, Option.some.injEq] at h
    cases bs with
    | nil => rfl
    | cons b bs =>
      obtain ⟨rfl, -⟩ := List.cons.inj h
      exact List.takeWhile_cons_of_neg (by simp [hc])

/-- At the end of a beginning of the text the last boundary is the place itself. -/
theorem floorBoundary_append (as bs : List Char) :
    floorBoundary (byteSize as) (as ++ bs) = byteSize as := by
  induction as with
  | nil =>
    cases bs with
    | nil => rfl
    | cons b bs =>
      have hb := b.utf8Size_pos
      simp only [List.nil_append, byteSize_nil, floorBoundary]
      exact if_neg (by omega)
  | cons a as ih =>
    have hsub : a.utf8Size + byteSize as - a.utf8Size = byteSize as := by omega
    simp only [List.cons_append, byteSize_cons, floorBoundary]
    rw [if_pos (by omega), hsub, ih]

/-- **The end of a slice is a boundary.** -/
theorem floorBoundary_of_slice? (h : slice? start stop cs = some bs) :
    floorBoundary stop cs = stop := by
  obtain ⟨before, after, rfl, rfl, rfl⟩ := slice?_eq_some_iff.1 h
  rw [← byteSize_append]
  exact floorBoundary_append _ _

/-! ## Boundaries -/

/-- **A range of the text**: both ends lie in it at boundaries, and in order. -/
def IsRange (cs : List Char) (start stop : Nat) : Prop := ∃ bs, slice? start stop cs = some bs

/-- A boundary is where some beginning of the text ends. -/
theorem isBoundary_iff : isBoundary n cs = true ↔ ∃ as bs, cs = as ++ bs ∧ byteSize as = n := by
  rw [isBoundary, Option.isSome_iff_exists]
  simp only [dropBytes?_eq_some_iff]
  exact exists_comm

/-- **Between two boundaries in order lies a range**… -/
theorem isRange_of_isBoundary (hstart : isBoundary start cs = true)
    (hstop : isBoundary stop cs = true) (hle : start ≤ stop) : IsRange cs start stop := by
  obtain ⟨as, rest, rfl, rfl⟩ := isBoundary_iff.1 hstart
  obtain ⟨as', after, htext, rfl⟩ := isBoundary_iff.1 hstop
  -- Of two beginnings of one text the longer goes on from the shorter.
  obtain ⟨bs, rfl, rfl⟩ | ⟨bs, rfl, rfl⟩ := List.append_eq_append_iff.1 htext
  · exact ⟨bs, slice?_eq_some_iff.2 ⟨as, after, by rw [List.append_assoc], rfl, by simp⟩⟩
  · rw [byteSize_append] at hle
    obtain rfl : bs = [] := byteSize_eq_zero.1 (by omega)
    exact ⟨[], slice?_eq_some_iff.2 ⟨as' ++ [], rest, by simp, rfl, by simp⟩⟩

/-- …and the ends of a range are such. -/
theorem IsRange.isBoundary (h : IsRange cs start stop) :
    isBoundary start cs = true ∧ isBoundary stop cs = true := by
  obtain ⟨bs, hslice⟩ := h
  obtain ⟨before, after, rfl, rfl, rfl⟩ := slice?_eq_some_iff.1 hslice
  exact ⟨isBoundary_iff.2 ⟨before, bs ++ after, List.append_assoc _ _ _, rfl⟩,
    isBoundary_iff.2 ⟨before ++ bs, after, rfl, byteSize_append _ _⟩⟩

/-- What a text goes on with at an offset is a range of it. -/
theorem isRange_of_dropBytes? (h : dropBytes? start cs = some (as ++ bs)) :
    IsRange cs start (start + byteSize as) :=
  ⟨as, slice?_of_dropBytes? h⟩

/-- **The last boundary at or before a position is one.** -/
theorem isBoundary_floorBoundary (n : Nat) (cs : List Char) :
    isBoundary (floorBoundary n cs) cs = true := by
  induction cs generalizing n with
  | nil => rfl
  | cons c cs ih =>
    rw [floorBoundary]
    split
    · obtain ⟨as, bs, rfl, hsize⟩ := isBoundary_iff.1 (ih (n - c.utf8Size))
      exact isBoundary_iff.2 ⟨c :: as, bs, rfl, by rw [byteSize_cons, hsize]⟩
    · exact isBoundary_iff.2 ⟨[], c :: cs, rfl, rfl⟩

/-- **The bytes of a string are those of its characters.** -/
theorem utf8ByteSize_ofList (cs : List Char) : (String.ofList cs).utf8ByteSize = byteSize cs := by
  induction cs with
  | nil => rfl
  | cons c cs ih =>
    have hcons : String.ofList (c :: cs) = String.singleton c ++ String.ofList cs := by
      rw [String.singleton_eq_ofList, ← String.ofList_append, List.singleton_append]
    rw [hcons, String.utf8ByteSize_append, String.utf8ByteSize_singleton, ih, byteSize_cons]

theorem byteSize_toList (s : String) : byteSize s.toList = s.utf8ByteSize := by
  rw [← utf8ByteSize_ofList, String.ofList_toList]

end Markup.Text
