import Mathlib.Data.List.TakeWhile
import Markup.Text.Search

/-!
# Proofs/Text/Search — a text is cut where it was joined

Case is a matter of letters alone (`eq_of_toLower_eq`).  `cutWhere_append` says when a cut falls
between two texts: the test holds of the second, and **of none that begins in the first**.  A single
character is found behind a text without it (`cut_singleton`), and the end of a comment behind a
body without one (`cut_commentEnd`), since no end of a comment begins with the hyphens of another.
Where a text has been cut it may go on in any way (`cut_congr`).  White space between two texts
separates their words (`words_append_cons`), and none of them is trimmed away (`words_trimEnd`).
A run of a class ends where a character follows that is not of it (`takeWhile_append_of_ends`).
-/

namespace Markup.Text

variable {test : List Char → Bool} {as bs : List Char}

/-- **A run ends where a character follows that is none of it**… -/
theorem takeWhile_append_of_ends {p : Char → Bool} (has : ∀ c ∈ as, p c = true)
    (hbs : ∀ c, bs.head? = some c → p c = false) : (as ++ bs).takeWhile p = as := by
  rw [List.takeWhile_append_of_pos has]
  cases bs with
  | nil => rw [List.takeWhile_nil, List.append_nil]
  | cons c bs => rw [List.takeWhile_cons_of_neg (by simp [hbs c rfl]), List.append_nil]

/-- …which begins what is behind it. -/
theorem dropWhile_append_of_ends {p : Char → Bool} (has : ∀ c ∈ as, p c = true)
    (hbs : ∀ c, bs.head? = some c → p c = false) : (as ++ bs).dropWhile p = bs := by
  rw [List.dropWhile_append_of_pos has]
  cases bs with
  | nil => rfl
  | cons c bs => rw [List.dropWhile_cons_of_neg (by simp [hbs c rfl])]

/-- **A run goes no further than a character that is none of it**, whatever follows. -/
theorem run_append_cons {p : Char → Bool} {c : Char} (hc : p c = false) (as bs : List Char) :
    (as ++ c :: bs).takeWhile p = as.takeWhile p ∧
      (as ++ c :: bs).dropWhile p = as.dropWhile p ++ c :: bs := by
  induction as with
  | nil => simp [hc]
  | cons a as ih => cases ha : p a <;> simp [ha, ih]

/-- **A run that ends in a text ends there in a longer one.** -/
theorem run_append_of_ends {p : Char → Bool} (h : as.dropWhile p ≠ []) (bs : List Char) :
    (as ++ bs).takeWhile p = as.takeWhile p ∧ (as ++ bs).dropWhile p = as.dropWhile p ++ bs := by
  have hlength := congrArg List.length (List.takeWhile_append_dropWhile (p := p) (l := as))
  have hpos := List.length_pos_iff.2 h
  rw [List.length_append] at hlength
  constructor
  · rw [List.takeWhile_append, if_neg (by omega)]
  · rw [List.dropWhile_append, if_neg (by simpa using h)]

/-- All characters of the text are blanks. -/
abbrev Blanks (cs : List Char) : Prop := ∀ c ∈ cs, isBlank c = true

/-- The blanks that a text begins with. -/
theorem blanks_takeWhile (cs : List Char) : Blanks (cs.takeWhile isBlank) :=
  fun _ hc => List.mem_takeWhile_imp hc

/-- Blanks end where something else begins… -/
theorem takeWhile_blanks {blanks : List Char} {c : Char} (hblanks : Blanks blanks)
    (hc : isBlank c = false) (cs : List Char) :
    (blanks ++ c :: cs).takeWhile isBlank = blanks :=
  takeWhile_append_of_ends hblanks fun _ hd => Option.some.inj hd ▸ hc

/-- …and that is what is behind them. -/
theorem dropWhile_blanks {blanks : List Char} {c : Char} (hblanks : Blanks blanks)
    (hc : isBlank c = false) (cs : List Char) :
    (blanks ++ c :: cs).dropWhile isBlank = c :: cs :=
  dropWhile_append_of_ends hblanks fun _ hd => Option.some.inj hd ▸ hc

/-- **Only letters change their case**: what is no letter in small is not one at all. -/
theorem eq_of_toLower_eq {c d : Char} (hd : d.isAlpha = false) (h : c.toLower = d) : c = d := by
  by_cases hupper : 'A'.val ≤ c.val ∧ c.val ≤ 'Z'.val
  · have hlow : 65 ≤ c.toNat := UInt32.le_iff_toNat_le.1 hupper.1
    have hhigh : c.toNat ≤ 90 := UInt32.le_iff_toNat_le.1 hupper.2
    have hmoved : c.toLower = _ := dif_pos hupper
    have hsum : d.val.toNat = c.toNat + 32 := by
      rw [← h, hmoved, UInt32.toNat_add]
      exact Nat.mod_eq_of_lt (by change c.toNat + 32 < 2 ^ 32; omega)
    have hlower : 'a'.val ≤ d.val ∧ d.val ≤ 'z'.val :=
      ⟨UInt32.le_iff_toNat_le.2 (by change 97 ≤ d.val.toNat; omega),
        UInt32.le_iff_toNat_le.2 (by change d.val.toNat ≤ 122; omega)⟩
    have halpha : d.isAlpha = true := Bool.or_eq_true_iff.2
      (Or.inr (Bool.and_eq_true_iff.2 ⟨decide_eq_true hlower.1, decide_eq_true hlower.2⟩))
    exact absurd halpha (Bool.eq_false_iff.1 hd)
  · have hkept : c.toLower = c := dif_neg hupper
    exact hkept.symm.trans h

/-- A text begins with a word if with one that is equal to it but for case. -/
theorem startsWithIgnoreCase_append {word : List Char} (h : equalIgnoreCase word as = true) :
    startsWithIgnoreCase word (as ++ bs) = true := by
  have hlength : word.length = as.length := by
    simpa using congrArg List.length (beq_iff_eq.1 h)
  rwa [startsWithIgnoreCase, hlength, List.take_left]

/-- What is equal to a text but for case begins as the text does, if that is no letter. -/
theorem exists_of_equalIgnoreCase_cons {c : Char} (hc : c.isAlpha = false)
    (h : equalIgnoreCase (c :: as) bs = true) :
    ∃ others, bs = c :: others ∧ equalIgnoreCase as others = true := by
  have hmap := beq_iff_eq.1 h
  rw [List.map_cons, eq_comm] at hmap
  obtain ⟨d, others, rfl, hd, hothers⟩ := List.map_eq_cons_iff.1 hmap
  have hsmall : c.toLower = c := by
    refine dif_neg fun hupper => Bool.eq_false_iff.1 hc ?_
    exact Bool.or_eq_true_iff.2 (Or.inl (decide_eq_true hupper))
  exact ⟨others, by rw [eq_of_toLower_eq hc (hd.trans hsmall)], beq_iff_eq.2 hothers.symm⟩

/-- What ends a name ends it in any case of the other letters. -/
theorem isNameEnd_of_toLower_eq {c d : Char} (h : c.toLower = d.toLower)
    (hc : isNameEnd c = false) : isNameEnd d = false := by
  refine Bool.eq_false_iff.2 fun hd => ?_
  have hend : d.isAlpha = false ∧ d.toLower = d := by
    simp only [isNameEnd, isBlank, Bool.or_eq_true, beq_iff_eq, or_assoc] at hd
    rcases hd with rfl | rfl | rfl | rfl | rfl | rfl | rfl | rfl <;> decide
  obtain rfl := eq_of_toLower_eq hend.1 (h.trans hend.2)
  exact absurd hd (Bool.eq_false_iff.1 hc)

/-- …so **what is equal to a name but for case is one**. -/
theorem isNameEnd_of_equalIgnoreCase (h : equalIgnoreCase as bs = true)
    (has : ∀ c ∈ as, isNameEnd c = false) : ∀ c ∈ bs, isNameEnd c = false := by
  intro d hd
  have hmem : d.toLower ∈ as.map Char.toLower :=
    beq_iff_eq.1 h ▸ List.mem_map_of_mem (f := Char.toLower) hd
  obtain ⟨c, hc, hlower⟩ := List.mem_map.1 hmem
  exact isNameEnd_of_toLower_eq hlower (has c hc)

/-- A letter is one in any case. -/
theorem isLetter_of_toLower_eq {c d : Char} (h : c.toLower = d.toLower)
    (hc : isLetter c = true) : isLetter d = true := by
  by_contra hd
  have hsmall : d.toLower = d :=
    dif_neg fun hupper => hd (Bool.or_eq_true_iff.2 (Or.inl (decide_eq_true hupper)))
  obtain rfl := eq_of_toLower_eq (Bool.eq_false_iff.2 hd) (h.trans hsmall)
  exact hd hc

/-- **A cut falls where the test first holds.** -/
theorem cutWhere_append
    (hno : ∀ front back, as = front ++ back → back ≠ [] → test (back ++ bs) = false)
    (hbs : test bs = true) : cutWhere test (as ++ bs) = some (as, bs) := by
  induction as with
  | nil =>
    cases bs with
    | nil => exact if_pos hbs
    | cons b bs => exact if_pos hbs
  | cons a as ih =>
    have hfirst : test (a :: (as ++ bs)) = false := hno [] (a :: as) rfl (List.cons_ne_nil _ _)
    have hrest := ih fun front back heq hne => hno (a :: front) back (by rw [heq]; rfl) hne
    rw [List.cons_append, cutWhere, hfirst, if_neg Bool.false_ne_true, hrest]
    rfl

/-- …and nowhere if it never does. -/
theorem cutWhere_eq_none (hno : ∀ front back, as = front ++ back → test back = false) :
    cutWhere test as = none := by
  induction as with
  | nil => exact if_neg (by simp [hno [] [] rfl])
  | cons a as ih =>
    have hrest := ih fun front back heq => hno (a :: front) back (by rw [heq]; rfl)
    rw [cutWhere, hno [] (a :: as) rfl, if_neg Bool.false_ne_true, hrest]
    rfl

/-- What ends a comment. -/
def commentEnd : List Char := ['-', '-', '>']

/-- **The end of a comment is found behind a body without one**, whatever the body ends in. -/
theorem cut_commentEnd (h : ¬ commentEnd <:+: as) :
    cut commentEnd (as ++ (commentEnd ++ bs)) = some (as, commentEnd ++ bs) := by
  refine cutWhere_append (fun front back heq hne => ?_) (by simp)
  refine Bool.eq_false_iff.2 fun hstarts => ?_
  rw [List.isPrefixOf_iff_prefix] at hstarts
  -- The bracket of an earlier end would have to be one of the hyphens of this one.
  match back, hne with
  | [a], _ => simp [commentEnd] at hstarts
  | [a, b], _ => simp [commentEnd] at hstarts
  | a :: b :: c :: others, _ =>
    obtain ⟨rfl, rfl, rfl⟩ : '-' = a ∧ '-' = b ∧ '>' = c := by simpa [commentEnd] using hstarts
    exact h ⟨front, others, by simp [heq, commentEnd]⟩

/-! ## Cuts before other texts -/

/-- **The test holds nowhere before a cut.** -/
theorem test_of_cutWhere {cs : List Char} (h : cutWhere test cs = some (as, bs)) :
    ∀ front back, as = front ++ back → back ≠ [] → test (back ++ bs) = false := by
  induction cs generalizing as with
  | nil =>
    rw [cutWhere] at h
    split at h
    · cases h
      intro front back heq hne
      exact absurd (List.append_eq_nil_iff.1 heq.symm).2 hne
    · cases h
  | cons c cs ih =>
    rw [cutWhere] at h
    split at h
    · cases h
      intro front back heq hne
      exact absurd (List.append_eq_nil_iff.1 heq.symm).2 hne
    · next hfirst =>
      obtain ⟨⟨as, bs⟩, hcut, h⟩ := Option.map_eq_some_iff.1 h
      cases h
      intro front back heq hne
      cases front with
      | nil =>
        obtain rfl := heq
        rw [List.cons_append, append_of_cutWhere hcut]
        exact Bool.eq_false_iff.2 hfirst
      | cons d front =>
        rw [List.cons_append, List.cons.injEq] at heq
        exact ih hcut front back heq.2 hne

/-- So a word is not in the text before the first place where it stands. -/
theorem not_infix_of_cut {word cs : List Char} (hword : word ≠ [])
    (h : cut word cs = some (as, bs)) : ¬word <:+: as := by
  rintro ⟨front, back, heq⟩
  have htest := test_of_cutWhere h front (word ++ back) (by rw [← heq, List.append_assoc])
    (List.append_ne_nil_of_left_ne_nil hword _)
  rw [List.append_assoc, List.isPrefixOf_iff_prefix.2 (List.prefix_append _ _)] at htest
  cases htest

/-- …and nowhere at all where no cut is found. -/
theorem test_of_cutWhere_eq_none {cs : List Char} (h : cutWhere test cs = none) :
    ∀ front back, cs = front ++ back → test back = false := by
  induction cs with
  | nil =>
    intro front back heq
    rw [cutWhere, ite_eq_right_iff] at h
    rw [(List.append_eq_nil_iff.1 heq.symm).2]
    exact Bool.eq_false_iff.2 fun htest => absurd (h htest) (Option.some_ne_none _)
  | cons c cs ih =>
    rw [cutWhere] at h
    split at h
    · cases h
    · next hfirst =>
      intro front back heq
      cases front with
      | nil =>
        rw [List.nil_append] at heq
        exact heq ▸ Bool.eq_false_iff.2 hfirst
      | cons d front =>
        rw [List.cons_append, List.cons.injEq] at heq
        exact ih (Option.map_eq_none_iff.1 h) front back heq.2

/-- A text begins with a word in any case if it does so in small letters. -/
theorem startsWithIgnoreCase_eq (word cs : List Char) : startsWithIgnoreCase word cs =
    (word.map Char.toLower).isPrefixOf (cs.map Char.toLower) := by
  rw [Bool.eq_iff_iff, List.isPrefixOf_iff_prefix, List.prefix_iff_eq_take, startsWithIgnoreCase,
    equalIgnoreCase, beq_iff_eq, List.map_take, List.length_map]

/-- **What a text begins with is not a matter of what follows** a character that is not in the
word. -/
theorem isPrefixOf_append_cons {word : List Char} {c : Char} (h : c ∉ word) (as bs : List Char) :
    word.isPrefixOf (as ++ c :: bs) = word.isPrefixOf as := by
  induction word generalizing as with
  | nil => rw [List.isPrefixOf_nil_left, List.isPrefixOf_nil_left]
  | cons w word ih =>
    rw [List.mem_cons, not_or] at h
    cases as with
    | nil =>
      rw [List.nil_append, List.isPrefixOf_cons_cons, beq_false_of_ne (Ne.symm h.1),
        Bool.false_and]
      rfl
    | cons a as =>
      rw [List.cons_append, List.isPrefixOf_cons_cons, List.isPrefixOf_cons_cons, ih h.2]

/-- …nor of what follows as many characters as the word has. -/
theorem isPrefixOf_append_of_le {word : List Char} (h : word.length ≤ as.length) (bs : List Char) :
    word.isPrefixOf (as ++ bs) = word.isPrefixOf as := by
  rw [Bool.eq_iff_iff, List.isPrefixOf_iff_prefix, List.isPrefixOf_iff_prefix,
    List.prefix_iff_eq_take, List.prefix_iff_eq_take, List.take_append_of_le_length h]

/-- **A word is found behind a text without it**, if its first character does not come again in
it. -/
theorem cut_of_not_infix {c : Char} {word : List Char} (hc : c ∉ word)
    (h : ¬(c :: word) <:+: as) :
    cut (c :: word) (as ++ (c :: word ++ bs)) = some (as, c :: word ++ bs) := by
  refine cutWhere_append (fun front back heq hne => ?_) (by simp)
  obtain ⟨d, others, rfl⟩ := List.exists_cons_of_ne_nil hne
  refine Bool.eq_false_iff.2 fun hstarts => h ?_
  rw [List.cons_append, List.isPrefixOf_cons_cons, Bool.and_eq_true] at hstarts
  obtain ⟨hd, hword⟩ := hstarts
  obtain rfl := beq_iff_eq.1 hd
  rw [List.cons_append, isPrefixOf_append_cons hc] at hword
  obtain ⟨more, hmore⟩ := List.isPrefixOf_iff_prefix.1 hword
  exact ⟨front, more, by simp [heq, ← hmore]⟩

/-- …so is a character. -/
theorem cut_singleton {c : Char} (h : c ∉ as) : cut [c] (as ++ c :: bs) = some (as, c :: bs) :=
  cut_of_not_infix List.not_mem_nil fun hfound => h (hfound.subset (List.mem_singleton_self c))

/-- Nothing is found that begins with a character which is not there. -/
theorem cut_eq_none_of_not_mem {c : Char} {cs : List Char} (h : c ∉ cs) (word : List Char) :
    cut (c :: word) cs = none := by
  refine cutWhere_eq_none fun front back heq => Bool.eq_false_iff.2 fun hprefix => ?_
  have hback := (List.isPrefixOf_iff_prefix.1 hprefix).subset List.mem_cons_self
  exact h (heq ▸ List.mem_append_right _ hback)

/-- **Behind the word at which a text is cut** it may go on in any way. -/
theorem cut_congr {word : List Char} (h : cut word (as ++ (word ++ bs)) = some (as, word ++ bs))
    (bs' : List Char) : cut word (as ++ (word ++ bs')) = some (as, word ++ bs') := by
  refine cutWhere_append (fun front back heq hne => ?_) (by simp)
  have hle : word.length ≤ (back ++ word).length := by simp
  have hbefore := test_of_cutWhere h front back heq hne
  rw [← List.append_assoc, isPrefixOf_append_of_le hle] at hbefore ⊢
  exact hbefore

/-- …also where case is not looked at. -/
theorem cutIgnoreCase_congr {word written : List Char} (hword : equalIgnoreCase word written = true)
    (h : cutIgnoreCase word (as ++ (written ++ bs)) = some (as, written ++ bs)) (bs' : List Char) :
    cutIgnoreCase word (as ++ (written ++ bs')) = some (as, written ++ bs') := by
  have hlength : word.length = written.length := by
    simpa using congrArg List.length (beq_iff_eq.1 hword)
  refine cutWhere_append (fun front back heq hne => ?_) (startsWithIgnoreCase_append hword)
  have hle : (word.map Char.toLower).length ≤ ((back ++ written).map Char.toLower).length := by
    simp [hlength]
  have hbefore := test_of_cutWhere h front back heq hne
  rw [← List.append_assoc, startsWithIgnoreCase_eq, List.map_append,
    isPrefixOf_append_of_le hle] at hbefore ⊢
  exact hbefore

/-! ## Words -/

variable {cs word : List Char} {c : Char} {p : Char → Bool}

/-- What is trimmed off the end of a text is all of the class. -/
theorem exists_append_trimEnd (p : Char → Bool) (cs : List Char) :
    ∃ back, cs = trimEnd p cs ++ back ∧ ∀ c ∈ back, p c = true := by
  refine ⟨(cs.reverse.takeWhile p).reverse, ?_, fun c hc => ?_⟩
  · rw [trimEnd, ← List.reverse_append, List.takeWhile_append_dropWhile, List.reverse_reverse]
  · exact List.mem_takeWhile_imp (List.mem_reverse.1 hc)

/-- A text that ends in another character is not trimmed away. -/
theorem trimEnd_append (h : as.getLast?.all p = false) :
    trimEnd p (as ++ bs) = as ++ trimEnd p bs := by
  obtain ⟨front, last, rfl⟩ : ∃ front last, as = front ++ [last] := by
    rcases List.eq_nil_or_concat as with rfl | ⟨front, last, rfl⟩
    · exact absurd h (by simp)
    · exact ⟨front, last, List.concat_eq_append⟩
  rw [List.getLast?_concat, Option.all_some] at h
  rw [trimEnd, List.reverse_append, List.dropWhile_append]
  split
  · next hempty =>
    rw [trimEnd, List.isEmpty_iff.1 hempty]
    simp [h]
  · rw [List.reverse_append, List.reverse_reverse]
    rfl

/-- **White space separates words.** -/
theorem words_append_cons (as : List Char) (hc : isSpace c = true) :
    words (as ++ c :: bs) = words as ++ words bs := by
  rw [words, List.splitOnP_append_cons _ _ hc, List.filter_append]
  rfl

/-- **Trimming loses no word.** -/
theorem words_trimEnd (cs : List Char) : words (trimEnd isSpace cs) = words cs := by
  obtain ⟨back, hcs, hback⟩ := exists_append_trimEnd isSpace cs
  have hspace : ∀ back : List Char, (∀ c ∈ back, isSpace c = true) →
      ∀ as, words (as ++ back) = words as := by
    intro back
    induction back with
    | nil => exact fun _ as => by rw [List.append_nil]
    | cons c back ih =>
      intro h as
      obtain ⟨hc, hback⟩ := List.forall_mem_cons.1 h
      have hnone : words back = words [] := ih hback []
      rw [words_append_cons as hc, hnone]
      exact List.append_nil _
  have hwords := hspace back hback (trimEnd isSpace cs)
  rw [← hcs] at hwords
  exact hwords.symm

theorem toNat_of_isAlpha {c : Char} (h : c.isAlpha = true) :
    65 ≤ c.toNat ∧ c.toNat ≤ 90 ∨ 97 ≤ c.toNat ∧ c.toNat ≤ 122 := by
  rcases Bool.or_eq_true_iff.1 h with hupper | hlower
  · obtain ⟨hlow, hhigh⟩ := of_decide_eq_true hupper
    exact Or.inl ⟨UInt32.le_iff_toNat_le.1 hlow, UInt32.le_iff_toNat_le.1 hhigh⟩
  · obtain ⟨hlow, hhigh⟩ := Bool.and_eq_true_iff.1 hlower
    exact Or.inr ⟨UInt32.le_iff_toNat_le.1 (of_decide_eq_true hlow),
      UInt32.le_iff_toNat_le.1 (of_decide_eq_true hhigh)⟩

/-- **A letter or digit is none of the other characters.** -/
theorem not_mem_of_isAlphanum {others : List Char} (hothers : others.any Char.isAlphanum = false)
    {c : Char} (h : c.isAlphanum = true) : c ∉ others := fun hmem =>
  List.any_eq_false.1 hothers c hmem h

/-- Letters and digits are no white space. -/
theorem isSpace_of_isAlphanum {c : Char} (h : c.isAlphanum = true) : isSpace c = false := by
  have hrange : 48 ≤ c.toNat ∧ c.toNat ≤ 57 ∨ 65 ≤ c.toNat ∧ c.toNat ≤ 90 ∨
      97 ≤ c.toNat ∧ c.toNat ≤ 122 := by
    rcases Bool.or_eq_true_iff.1 h with halpha | hdigit
    · exact Or.inr (toNat_of_isAlpha halpha)
    · exact Or.inl (Char.isDigit_iff_toNat.1 hdigit)
  simp only [isSpace, whiteSpace, List.any_cons, List.any_nil, Bool.or_false, Bool.or_eq_false_iff,
    Bool.and_eq_false_iff, decide_eq_false_iff_not]
  omega

theorem isSpace_of_isLetter {c : Char} (h : isLetter c = true) : isSpace c = false :=
  isSpace_of_isAlphanum (Bool.or_eq_true_iff.2 (Or.inl h))

/-- A text without white space is one word… -/
theorem words_of_solid (hne : word ≠ []) (h : ∀ c ∈ word, isSpace c = false) :
    words word = [word] := by
  rw [words, List.splitOnP_eq_singleton h, List.filter_cons_of_pos (by simpa using hne)]
  rfl

/-- …so **letters and digits are**… -/
theorem words_of_isAlphanum (hne : word ≠ []) (h : ∀ c ∈ word, c.isAlphanum = true) :
    words word = [word] :=
  words_of_solid hne fun c hc => isSpace_of_isAlphanum (h c hc)

/-- …and the word that leads where something else follows them. -/
theorem leadingWord_append (hne : word ≠ []) (h : ∀ c ∈ word, c.isAlphanum = true)
    (hcs : cs.head?.any Char.isAlphanum = false) : leadingWord (word ++ cs) = word := by
  obtain ⟨c, others, rfl⟩ := List.exists_cons_of_ne_nil hne
  have hspace := isSpace_of_isAlphanum (h c List.mem_cons_self)
  have hstop : cs.takeWhile Char.isAlphanum = [] := by
    cases cs with
    | nil => rfl
    | cons d cs => exact List.takeWhile_cons_of_neg (Bool.eq_false_iff.1 hcs)
  rw [leadingWord, List.cons_append, List.dropWhile_cons_of_neg (Bool.eq_false_iff.1 hspace),
    ← List.cons_append, List.takeWhile_append_of_pos h, hstop, List.append_nil]

end Markup.Text
