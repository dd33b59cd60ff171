import Markup.Proofs.Attribute.Cover
import Markup.Proofs.StartTag

/-!
# Proofs/StartTag/Cover — a start tag accounts for all that is read of it

The walk through a start tag goes over gaps of blanks and slashes and reads the attributes between
them, one behind the other (`Covered`), until it stands where a tag may end: nothing but blanks is
left there, or the bracket comes next (`EndsPlainly`), or a slash that only blanks separate from it
(`ClosesItself`).  Each step leaves less of the text, so **the walk ends, and covers what it read**
(`decides_attributesFrom`); behind the bracket and the name, that is what the tag covers
(`StartTag.Covers`).
-/

namespace Markup.StartTag

variable {source : Source} {read : AttributeReader} {cs gap rest remainder blanks : List Char}
  {start stop offset : Nat} {attributes : List Attribute}

/-! ## Ends of tags -/

/-- **A tag may end here**: behind blanks there is nothing, or the bracket. -/
def EndsPlainly (cs : List Char) : Prop :=
  ∃ blanks rest, Text.Blanks blanks ∧ cs = blanks ++ rest ∧ rest.head?.all (· == '>') = true

/-- **A tag closes itself here**: behind blanks there are a slash, blanks and the bracket. -/
def ClosesItself (cs : List Char) : Prop :=
  ∃ blanks more rest, Text.Blanks blanks ∧ Text.Blanks more ∧
    cs = blanks ++ '/' :: (more ++ '>' :: rest)

theorem endsPlainly_iff :
    EndsPlainly cs ↔ (cs.dropWhile Text.isBlank).head?.all (· == '>') = true := by
  refine ⟨?_, fun h => ⟨_, _, Text.blanks_takeWhile cs,
    List.takeWhile_append_dropWhile.symm, h⟩⟩
  rintro ⟨blanks, rest, hblanks, rfl, hrest⟩
  have hends : ∀ c, rest.head? = some c → Text.isBlank c = false := fun c hc => by
    rw [hc] at hrest
    rw [beq_iff_eq.1 hrest]
    rfl
  rwa [Text.dropWhile_append_of_ends hblanks hends]

theorem closesItself_iff :
    ClosesItself cs ↔ isClosingSlash (cs.dropWhile Text.isBlank) = true := by
  rw [isClosingSlash_iff]
  constructor
  · rintro ⟨blanks, more, rest, hblanks, hmore, rfl⟩
    exact ⟨more, rest, hmore, Text.dropWhile_blanks hblanks rfl _⟩
  · rintro ⟨more, rest, hmore, hdrop⟩
    refine ⟨_, more, rest, Text.blanks_takeWhile cs, hmore, ?_⟩
    rw [← hdrop, List.takeWhile_append_dropWhile]

/-- **Where the walk stops, a tag may end**: nothing but blanks is left… -/
theorem endsPlainly_of_nil (hnil : cs.dropWhile Text.isBlank = []) : EndsPlainly cs := by
  rw [endsPlainly_iff, hnil]
  rfl

/-- …or the bracket comes next, or a slash that closes the tag. -/
theorem ends_of_stop {c : Char} {tail : List Char} (hcons : cs.dropWhile Text.isBlank = c :: tail)
    (hstop : c = '>' ∨ isClosingSlash (c :: tail) = true) : EndsPlainly cs ∨ ClosesItself cs := by
  rw [endsPlainly_iff, closesItself_iff, hcons]
  refine hstop.imp_left fun hc => ?_
  rw [hc]
  rfl

/-! ## Gaps and what they separate -/

/-- **A gap between attributes**: blanks, and slashes that do not close the tag before what follows
the gap. -/
def IsGap : List Char → List Char → Prop
  | [], _ => True
  | c :: gap, rest =>
    (Text.isBlank c = true ∨ c = '/' ∧ ¬ ClosesItself (c :: (gap ++ rest))) ∧ IsGap gap rest

/-- **Attributes cover a text** from an offset on: each accounts for a text that is not empty,
behind a gap, and behind the last there is one more gap before the remainder. -/
inductive Covered (source : Source) : Nat → List Char → List Attribute → List Char → Prop
  | stop {offset : Nat} {gap remainder : List Char} (separates : IsGap gap remainder) :
      Covered source offset (gap ++ remainder) [] remainder
  | cons {offset : Nat} {gap used after remainder : List Char} {a : Attribute}
      {attributes : List Attribute} (separates : IsGap gap (used ++ after)) (nonempty : used ≠ [])
      (accounts : a.Accounts source (offset + Text.byteSize gap) used)
      (rest : Covered source (offset + Text.byteSize gap + Text.byteSize used) after attributes
        remainder) :
      Covered source offset (gap ++ (used ++ after)) (a :: attributes) remainder

theorem IsGap.nil : IsGap [] cs := trivial

/-- Blanks lead a gap. -/
theorem IsGap.blanks_append (hblanks : Text.Blanks blanks) (h : IsGap gap cs) :
    IsGap (blanks ++ gap) cs := by
  induction blanks with
  | nil => exact h
  | cons c blanks ih =>
    obtain ⟨hblank, hothers⟩ := List.forall_mem_cons.1 hblanks
    exact ⟨Or.inl hblank, ih hothers⟩

/-- **A gap may begin with blanks and a slash** that does not close the tag. -/
theorem IsGap.slash (hblanks : Text.Blanks blanks) (h : IsGap gap cs)
    (hopen : isClosingSlash ('/' :: (gap ++ cs)) = false) : IsGap (blanks ++ '/' :: gap) cs := by
  have hcloses : ¬ ClosesItself ('/' :: (gap ++ cs)) := fun hcloses => by
    rw [closesItself_iff, List.dropWhile_cons_of_neg (by decide), hopen] at hcloses
    exact Bool.false_ne_true hcloses
  exact .blanks_append hblanks ⟨Or.inr ⟨rfl, hcloses⟩, h⟩

/-- **Attributes cover a text with blanks and a slash before it.** -/
theorem Covered.slash (hblanks : Text.Blanks blanks) (hopen : isClosingSlash ('/' :: cs) = false)
    (h : Covered source (offset + Text.byteSize blanks + 1) cs attributes remainder) :
    Covered source offset (blanks ++ '/' :: cs) attributes remainder := by
  have hsize : ∀ gap, offset + Text.byteSize (blanks ++ '/' :: gap) =
      offset + Text.byteSize blanks + 1 + Text.byteSize gap := fun gap => by
    rw [Text.byteSize_append, Text.byteSize_cons, ← Nat.add_assoc, ← Nat.add_assoc]
    rfl
  cases h with
  | @stop _ gap _ separates =>
    rw [← List.cons_append, ← List.append_assoc]
    exact .stop (separates.slash hblanks hopen)
  | @cons _ gap used after _ _ _ separates nonempty accounts rest =>
    rw [← List.cons_append, ← List.append_assoc]
    rw [← hsize] at accounts rest
    exact .cons (separates.slash hblanks hopen) nonempty accounts rest

/-- **An attribute more** stands directly before them. -/
theorem Covered.attribute {used after : List Char} {a : Attribute} (hne : used ≠ [])
    (ha : a.Accounts source offset used)
    (h : Covered source (offset + Text.byteSize used) after attributes remainder) :
    Covered source offset (used ++ after) (a :: attributes) remainder :=
  .cons .nil hne ha h

/-- **There are no more attributes than characters.** -/
theorem Covered.length_add_le (h : Covered source offset cs attributes remainder) :
    attributes.length + remainder.length ≤ cs.length := by
  induction h with
  | stop => simp
  | cons separates nonempty accounts rest ih =>
    have hpos := List.length_pos_iff.2 nonempty
    simp only [List.length_cons, List.length_append]
    omega

/-! ## The walk -/

/-- **The walk decides the source**: it covers what it reads, up to a place where a tag may end. -/
theorem decides_attributesFrom (hread : read.Covers)
    (hslice : Text.slice? offset stop source.text = some rest) :
    source.Decides (fun parts => Covered source offset rest parts.1 parts.2 ∧
      (EndsPlainly parts.2 ∨ ClosesItself parts.2))
      (attributesFrom read source stop offset rest) := by
  induction hlength : rest.length using Nat.strongRecOn generalizing rest offset with
  | ind n ih =>
    subst hlength
    cases hdrop : rest.dropWhile Text.isBlank with
    | nil =>
      rw [attributesFrom_of_nil hdrop]
      exact .ok ⟨.stop .nil, Or.inl (endsPlainly_of_nil hdrop)⟩
    | cons c tail =>
      by_cases hstop : c = '>' ∨ isClosingSlash (c :: tail) = true
      · rw [attributesFrom_of_stop hdrop hstop]
        exact .ok ⟨.stop .nil, ends_of_stop hdrop hstop⟩
      by_cases hc : c = '/'
      · subst hc
        have hopen : isClosingSlash ('/' :: tail) = false := by simpa using hstop
        have htail := ih tail.length (length_lt_of_dropWhile_eq_cons hdrop)
          (slice?_behind_slash hslice hdrop) rfl
        rw [attributesFrom_of_slash hdrop hopen]
        refine htail.mono fun parts ⟨hcovered, hends⟩ => ⟨?_, hends⟩
        rw [← List.takeWhile_append_dropWhile (p := Text.isBlank) (l := rest), hdrop]
        exact hcovered.slash (Text.blanks_takeWhile rest) hopen
      obtain ⟨token, htoken, rfl⟩ := Source.exists_slice hslice
      rw [attributesFrom_of_begin hdrop hstop hc, htoken]
      refine (hread htoken).bind fun a _ ⟨used, after, hraw, haccounts⟩ => ?_
      simp only [haccounts.endOffset, Nat.add_sub_cancel_left]
      split
      · exact .refused (Source.located_emptyToken rfl _)
      · next hne =>
        have hused : used ≠ [] := fun h => hne (congrArg Text.byteSize h)
        have hlt : after.length < token.raw.toList.length := by
          rw [hraw, List.length_append]
          exact Nat.lt_add_of_pos_left (List.length_pos_iff.2 hused)
        rw [hraw] at hslice ⊢
        rw [Text.dropBytes_byteSize]
        exact (ih _ hlt (Text.slice?_of_append_right hslice) rfl).bind
          fun _ _ ⟨hcovered, hends⟩ => .ok ⟨.attribute hused haccounts hcovered, hends⟩

/-! ## Tags -/

/-- **A start tag covers a text** that begins at an offset: behind the bracket and the name, its
attributes cover all of it up to a remainder where a tag may end, and where the tag closes itself if
it says so. -/
structure Covers (tag : StartTag) (source : Source) (start : Nat) (raw remainder : List Char) :
    Prop where
  named : tag.name ≠ "" ∧ ∀ c ∈ tag.name.toList, Text.isNameEnd c = false
  covered : ∃ text, raw = '<' :: (tag.name.toList ++ text) ∧
    Covered source (start + 1 + Text.byteSize tag.name.toList) text tag.attributes remainder
  ends : EndsPlainly remainder ∨ ClosesItself remainder
  selfClosing : tag.selfClosing = true ↔ ClosesItself remainder

variable {token : Token} {inner : List Char}

/-- **A token that begins with the bracket of a tag is split and covered, or the source refused
there.** -/
theorem decides_read (hread : read.Covers) (hslice : source.slice ⟨start, stop⟩ = .ok token)
    (hraw : token.raw.toList = '<' :: inner) :
    source.Decides (fun tag => ∃ remainder, tag.Covers source start token.raw.toList remainder)
      (StartTag.read read source token) := by
  have hstart := Source.toLocal_startOffset hslice
  have hstop : start + Text.byteSize ('<' :: inner) = stop := hraw ▸ Source.stop_of_slice hslice
  have hwhole : Text.slice? start stop source.text = some (['<'] ++ inner) :=
    (Source.slice?_of_slice hslice).trans (congrArg some hraw)
  have htail : Text.slice? (start + 1) stop source.text = some inner :=
    Text.slice?_of_append_right hwhole
  have hword : ∀ c ∈ inner.takeWhile (fun c => !Text.isNameEnd c), Text.isNameEnd c = false :=
    fun c hc => by simpa using List.mem_takeWhile_imp hc
  have hname : inner.takeWhile (fun c => !Text.isNameEnd c) ++
      inner.drop (inner.takeWhile fun c => !Text.isNameEnd c).length = inner :=
    List.prefix_iff_eq_append.1 (List.takeWhile_prefix _)
  rw [StartTag.read, hraw]
  simp only [hstart, hstop]
  generalize inner.takeWhile (fun c => !Text.isNameEnd c) = name at hword hname ⊢
  generalize inner.drop name.length = text at hname ⊢
  subst hname
  split
  · exact .refused (Source.located_slice rfl hslice)
  · next hne =>
    have hnamed : String.ofList name ≠ "" := fun hempty => hne (by simpa using hempty)
    have hwalk := decides_attributesFrom hread (Text.slice?_of_append_right htail)
    refine hwalk.bind ?_
    rintro ⟨attributes, remainder⟩ - ⟨hcovered, hends⟩
    have htoList : (String.ofList name).toList = name := String.toList_ofList
    exact .ok ⟨remainder, ⟨hnamed, htoList.symm ▸ hword⟩,
      ⟨text, htoList.symm ▸ rfl, htoList.symm ▸ hcovered⟩, hends, closesItself_iff.symm⟩

/-- **A start tag is split and covered by any rules**, into no more attributes than it has
characters, or it is refused where it is at fault. -/
theorem covered_of_read (rules : Attribute.Rules)
    (hslice : source.slice ⟨start, stop⟩ = .ok token) (hraw : token.raw.toList = '<' :: inner) :
    source.Decides
      (fun tag => ∃ remainder, tag.Covers source start token.raw.toList remainder ∧
        tag.attributes.length + remainder.length ≤ token.raw.toList.length)
      (StartTag.read (Attribute.read rules) source token) := by
  refine (decides_read (Attribute.covers_read rules) hslice hraw).mono ?_
  rintro tag ⟨remainder, hcovers⟩
  obtain ⟨text, htext, hcovered⟩ := hcovers.covered
  refine ⟨remainder, hcovers, ?_⟩
  calc
    tag.attributes.length + remainder.length ≤ text.length := hcovered.length_add_le
    _ ≤ token.raw.toList.length := by
      rw [htext, List.length_cons, List.length_append]
      omega

/-- An expression with a bracket and a spread, with slashes between them and before the last one. -/
def slashedTag : Source := .ofString "é<a b=\x7bc>d\x7d / \x7b...e\x7d //>" ⟨7, 2, 3⟩

theorem covered_slashedTag : ∃ token tag remainder, slashedTag.slice ⟨2, 25⟩ = .ok token ∧
    StartTag.read (Attribute.read ⟨[.braces], .beforeName, ['>']⟩) slashedTag token = .ok tag ∧
      tag.attributes.map Attribute.isSpread = [false, true] ∧ tag.selfClosing = true ∧
        tag.Covers slashedTag 2 token.raw.toList remainder ∧
          tag.attributes.length + remainder.length ≤ token.raw.toList.length := by
  have hfound : (slashedTag.slice ⟨2, 25⟩).toOption.any (fun token =>
      token.raw.toList.head? == some '<' &&
        (StartTag.read (Attribute.read ⟨[.braces], .beforeName, ['>']⟩) slashedTag
          token).toOption.any fun tag =>
            tag.attributes.map Attribute.isSpread == [false, true] && tag.selfClosing) = true := by
    decide +kernel
  obtain ⟨token, hslice, hfound⟩ := exists_of_any hfound
  obtain ⟨hhead, hfound⟩ := Bool.and_eq_true_iff.1 hfound
  obtain ⟨inner, hraw⟩ := List.head?_eq_some_iff.1 (beq_iff_eq.1 hhead)
  obtain ⟨tag, hread, htag⟩ := exists_of_any hfound
  obtain ⟨hspreads, hclosing⟩ := Bool.and_eq_true_iff.1 htag
  obtain ⟨remainder, hcovers, hlength⟩ :=
    (covered_of_read ⟨[.braces], .beforeName, ['>']⟩ hslice hraw).holds hread
  exact ⟨token, tag, remainder, hslice, hread, beq_iff_eq.1 hspreads, hclosing, hcovers, hlength⟩

/-- A slash that does not close the tag, behind the last attribute. -/
def slashedEnd : Source := .ofString "<a //>"

/-- **Attributes with the gaps before them do not reach the end of every tag**: what follows the
last one may begin with a slash that does not close it. -/
theorem not_adjoining_slashedEnd : ∃ token tag, slashedEnd.slice ⟨0, 6⟩ = .ok token ∧
    StartTag.read (Attribute.read {}) slashedEnd token = .ok tag ∧
      ¬∃ (gaps : List (List Char)) (remainder : List Char),
        gaps.length = tag.attributes.length ∧
          (∀ gap ∈ gaps, ∀ c ∈ gap, Text.isBlank c = true ∨ c = '/') ∧
            token.raw.toList = '<' :: (tag.name.toList ++ (List.zipWith
              (fun gap a => gap ++ a.fullRaw.toList) gaps tag.attributes).flatten ++ remainder) ∧
              (EndsPlainly remainder ∨ ClosesItself remainder) := by
  have hfound : (slashedEnd.slice ⟨0, 6⟩).toOption.any (fun token =>
      token.raw.toList == ['<', 'a', ' ', '/', '/', '>'] &&
        (StartTag.read (Attribute.read {}) slashedEnd token).toOption.any fun tag =>
          tag.name.toList == ['a'] && tag.attributes.isEmpty) = true := by
    decide +kernel
  obtain ⟨token, hslice, hfound⟩ := exists_of_any hfound
  obtain ⟨hraw, hfound⟩ := Bool.and_eq_true_iff.1 hfound
  obtain ⟨tag, hread, htag⟩ := exists_of_any hfound
  obtain ⟨hname, hnone⟩ := Bool.and_eq_true_iff.1 htag
  refine ⟨token, tag, hslice, hread, ?_⟩
  rintro ⟨gaps, remainder, -, -, htext, hends⟩
  rw [beq_iff_eq.1 hraw, beq_iff_eq.1 hname, List.isEmpty_iff.1 hnone,
    List.zipWith_nil_right] at htext
  obtain rfl : [' ', '/', '/', '>'] = remainder := by simpa using htext
  rw [endsPlainly_iff, closesItself_iff] at hends
  exact absurd hends (by decide)

end Markup.StartTag
