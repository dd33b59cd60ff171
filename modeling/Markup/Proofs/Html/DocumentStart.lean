import Markup.Proofs.Html.Doctype
import Mathlib.Data.List.DropRight

/-!
# Proofs/Html/DocumentStart — whole documents are told by what they begin with

Whether a text is a whole document is told by its characters (`isDocumentStart`), and its nodes come
from its lexemes.  The two agree on **a node that a document begins with** (`BeginsDocument`): the
declaration of `html`, if it is closed, or a start tag in which white space or the bracket follows
that name.
-/

namespace Markup.Html

variable {cs rest more word written b : List Char} {c : Char} {source : Source} {n : Node}
  {lexeme : Lexeme} {offset : Nat}

/-- **A node that a whole document begins with.** -/
def BeginsDocument (n : Node) : Prop :=
  (∃ d, n.data = .doctype d ∧ d.name.toList.map Char.toLower = "html".toList ∧
    '>' ∈ n.token.raw.toList) ∨
  ∃ e word c tail, n.data = .element e ∧ n.token.raw.toList = '<' :: (word ++ c :: tail) ∧
    word.map Char.toLower = "html".toList ∧ (Text.isSpace c = true ∨ c = '>')

theorem beginsDocument_doctype {d : Doctype} (h : n.data = .doctype d) : BeginsDocument n ↔
    d.name.toList.map Char.toLower = "html".toList ∧ '>' ∈ n.token.raw.toList := by
  simp [BeginsDocument, h]

theorem beginsDocument_element {e : Element} (h : n.data = .element e) : BeginsDocument n ↔
    ∃ word c tail, n.token.raw.toList = '<' :: (word ++ c :: tail) ∧
      word.map Char.toLower = "html".toList ∧ (Text.isSpace c = true ∨ c = '>') := by
  simp [BeginsDocument, h]

/-! ## Keywords without a long s or a Kelvin sign -/

/-- The letters that have a second small form, and these forms. -/
def doubleLetters : List Char := ['s', 'k', '\u017f', '\u212a']

/-- **The words are read in any case of their letters and in no other way**, for none of them holds
a letter that has a second small form. -/
theorem map_foldCase_eq_iff (h : word.any doubleLetters.contains = false) :
    written.map foldCase = word ↔ written.map Char.toLower = word := by
  induction written generalizing word with
  | nil => rfl
  | cons c written ih =>
    cases word with
    | nil => simp
    | cons d word =>
      rw [List.any_cons, Bool.or_eq_false_iff] at h
      obtain ⟨hd, hword⟩ := h
      obtain ⟨hs, hk, hlong, hkelvin⟩ :
          d ≠ 's' ∧ d ≠ 'k' ∧ d ≠ '\u017f' ∧ d ≠ '\u212a' := by
        simpa [doubleLetters] using hd
      have hfirst : foldCase c = d ↔ c.toLower = d := by
        refine ⟨fun hc => ?_, fun hc => foldCase_of_toLower hc hlong hkelvin⟩
        rw [foldCase] at hc
        split at hc
        · exact absurd hc.symm hs
        · split at hc
          · exact absurd hc.symm hk
          · exact hc
      rw [List.map_cons, List.map_cons, List.cons.injEq, List.cons.injEq, hfirst, ih hword]

/-- What a word that is read was written as. -/
theorem afterKeyword?_any_iff {test : List Char → Bool}
    (h : word.any doubleLetters.contains = false) : (afterKeyword? word cs).any test = true ↔
    ∃ written rest, cs = written ++ rest ∧ written.map Char.toLower = word ∧ test rest = true := by
  rw [Option.any_eq_true]
  constructor
  · rintro ⟨rest, hrest, htest⟩
    obtain ⟨written, rfl, hword⟩ := afterKeyword?_eq_some_iff.1 hrest
    exact ⟨written, rest, rfl, (map_foldCase_eq_iff h).1 hword, htest⟩
  · rintro ⟨written, rest, rfl, hword, htest⟩
    exact ⟨rest, afterKeyword?_eq_some_iff.2 ⟨written, rfl, (map_foldCase_eq_iff h).2 hword⟩, htest⟩

/-- A name is read up to white space or the bracket. -/
theorem endsName_iff : endsName cs = true ↔
    ∃ c tail, cs = c :: tail ∧ (Text.isSpace c = true ∨ c = '>') := by
  cases cs <;> simp [endsName]

/-- What a text declares that goes on behind the beginning of a declaration. -/
def declaresHtml (cs : List Char) : Bool :=
  ((afterSpace? cs).bind (afterKeyword? "html".toList)).any fun rest =>
    endsName rest && rest.contains '>'

/-- White space before what begins a document does not count. -/
theorem isDocumentStart_dropWhile (cs : List Char) :
    isDocumentStart (cs.dropWhile Text.isSpace) = isDocumentStart cs := by
  have htwice : (cs.dropWhile Text.isSpace).dropWhile Text.isSpace = cs.dropWhile Text.isSpace :=
    List.dropWhile_idempotent _ _
  rw [isDocumentStart, isDocumentStart, htwice]

/-- **What a whole document begins with**, as it is written. -/
theorem isDocumentStart_iff (h : cs.head?.any Text.isSpace = false) : isDocumentStart cs = true ↔
    (∃ written rest, cs = written ++ rest ∧ written.map Char.toLower = doctypeStart ∧
      declaresHtml rest = true) ∨
    ∃ word rest, cs = '<' :: (word ++ rest) ∧ word.map Char.toLower = "html".toList ∧
      endsName rest = true := by
  have hself : cs.dropWhile Text.isSpace = cs := by
    cases cs with
    | nil => rfl
    | cons c cs => exact List.dropWhile_cons_of_neg (Bool.eq_false_iff.1 h)
  have hdeclared : (((afterKeyword? doctypeStart cs).bind afterSpace?).bind
      (afterKeyword? ['h', 't', 'm', 'l'])).any (fun rest => endsName rest && rest.contains '>') =
        (afterKeyword? doctypeStart cs).any declaresHtml := by
    cases afterKeyword? doctypeStart cs <;> rfl
  rw [isDocumentStart, hself, hdeclared, Bool.or_eq_true, afterKeyword?_any_iff (by decide)]
  refine or_congr_right ((afterKeyword?_any_iff (by decide)).trans ⟨?_, ?_⟩)
  · rintro ⟨written, rest, rfl, hwritten, hends⟩
    obtain ⟨c, word, rfl, hc, hword⟩ := List.map_eq_cons_iff.1 hwritten
    obtain rfl := Text.eq_of_toLower_eq (by decide) hc
    exact ⟨word, rest, rfl, hword, hends⟩
  · rintro ⟨word, rest, rfl, hword, hends⟩
    exact ⟨'<' :: word, rest, rfl, congrArg ('<' :: ·) hword, hends⟩

/-! ## Declarations -/

/-- The name that a declaration states. -/
def declaredName (cs : List Char) : List Char :=
  ((afterSpace? cs).map (List.takeWhile fun c => !Text.isSpace c && c != '>')).getD []

theorem name_doctypeOf (h : written.map Char.toLower = doctypeStart) (cs : List Char) :
    (doctypeOf (written ++ cs)).name.toList = declaredName cs := by
  have hkeyword : afterKeyword? doctypeStart (written ++ cs) = some cs :=
    afterKeyword?_append h (by decide) cs
  rw [doctypeOf, hkeyword, Option.bind_some, declaredName]
  cases afterSpace? cs with
  | none => rfl
  | some rest =>
    simp only [Option.map_some, Option.getD_some]
    split
    · next hempty => rw [List.isEmpty_iff.1 hempty]; rfl
    · split <;> exact String.toList_ofList

/-- White space is left behind up to a bracket at most. -/
theorem afterSpace?_append_bracket (b rest : List Char) :
    afterSpace? (b ++ '>' :: rest) =
      if b.head?.any Text.isSpace then some (b.dropWhile Text.isSpace ++ '>' :: rest)
      else none := by
  rw [afterSpace?, (Text.run_append_cons (by decide) b rest).2]
  cases b <;> rfl

/-- What is written as `html` is a word of letters. -/
theorem isLetter_of_toLower_html (h : written.map Char.toLower = "html".toList) :
    ∀ c ∈ written, Text.isLetter c = true := by
  have hsmall : "html".toList.all (fun d => Text.isLetter d && d.toLower == d) = true := by decide
  intro c hc
  have hmem : c.toLower ∈ "html".toList := h ▸ List.mem_map_of_mem hc
  obtain ⟨hletter, hlower⟩ := Bool.and_eq_true_iff.1 (List.all_eq_true.1 hsmall _ hmem)
  exact Text.isLetter_of_toLower_eq (beq_iff_eq.1 hlower) hletter

/-- What follows a name up to a bracket ends it. -/
theorem endsName_dropWhile (b rest : List Char) :
    endsName ((b.dropWhile fun c => !Text.isSpace c && c != '>') ++ '>' :: rest) = true := by
  rw [endsName_iff]
  cases hrest : b.dropWhile fun c => !Text.isSpace c && c != '>' with
  | nil => exact ⟨'>', rest, rfl, Or.inr rfl⟩
  | cons c others =>
    have hc := List.head?_dropWhile_not (fun c => !Text.isSpace c && c != '>') b
    rw [hrest, List.head?_cons] at hc
    exact ⟨c, _, rfl, by simpa [Classical.or_iff_not_imp_left] using hc⟩

/-- **A name before a bracket is `html` if that is read there** and ends. -/
theorem takeWhile_eq_html_iff (hb : '>' ∉ b) (rest : List Char) :
    (b.takeWhile fun c => !Text.isSpace c && c != '>').map Char.toLower = "html".toList ↔
      ∃ written after, b ++ '>' :: rest = written ++ after ∧
        written.map Char.toLower = "html".toList ∧
          (endsName after && after.contains '>') = true := by
  constructor
  · intro hname
    have hsplit := List.takeWhile_append_dropWhile (p := fun c => !Text.isSpace c && c != '>')
      (l := b)
    refine ⟨_, (b.dropWhile fun c => !Text.isSpace c && c != '>') ++ '>' :: rest, ?_, hname, ?_⟩
    · rw [← List.append_assoc, hsplit]
    · simp [endsName_dropWhile]
  · rintro ⟨written, after, heq, hword, hends⟩
    obtain ⟨c, tail, rfl, hc⟩ := endsName_iff.1 (Bool.and_eq_true_iff.1 hends).1
    have hinside : ∀ c ∈ written, (!Text.isSpace c && c != '>') = true := fun c hc => by
      have hletter := isLetter_of_toLower_html hword c hc
      have hspace := Text.isSpace_of_isLetter hletter
      have hbracket : c ≠ '>' := by
        rintro rfl
        exact absurd hletter (by decide)
      simp [hspace, hbracket]
    obtain ⟨behind, rfl, hbehind⟩ : ∃ behind, b = written ++ behind ∧
        c :: tail = behind ++ '>' :: rest := by
      rcases List.append_eq_append_iff.1 heq with ⟨between, rfl, hbetween⟩ | hsplit
      · cases between with
        | nil => exact ⟨[], by simp, hbetween.symm⟩
        | cons d between =>
          obtain ⟨rfl, -⟩ := List.cons.inj hbetween
          exact absurd (hinside '>' (by simp)) (by decide)
      · exact hsplit
    have hout : ∀ d, behind.head? = some d → (!Text.isSpace d && d != '>') = false := by
      intro d hd
      cases behind with
      | nil => cases hd
      | cons e behind =>
        obtain rfl := Option.some.inj hd
        obtain ⟨rfl, -⟩ := List.cons.inj hbehind
        rcases hc with hc | rfl <;> simp_all
    rw [Text.takeWhile_append_of_ends hinside hout, hword]

/-- **`html` is declared if it is the name** up to the first bracket. -/
theorem declaresHtml_iff (hb : '>' ∉ b) (rest rest' : List Char) :
    declaresHtml (b ++ '>' :: rest) = true ↔
      (declaredName (b ++ '>' :: rest')).map Char.toLower = "html".toList := by
  rw [declaresHtml, declaredName, afterSpace?_append_bracket, afterSpace?_append_bracket]
  split
  · have hinner : '>' ∉ b.dropWhile Text.isSpace := fun hmem =>
      hb ((List.dropWhile_suffix _).subset hmem)
    rw [Option.bind_some, afterKeyword?_any_iff (by decide), Option.map_some, Option.getD_some,
      (Text.run_append_cons (by simp) _ _).1, takeWhile_eq_html_iff hinner rest]
  · exact iff_of_false (by simp) (by simp)

/-- `html` is declared before a bracket only. -/
theorem mem_of_declaresHtml (h : declaresHtml cs = true) : '>' ∈ cs := by
  obtain ⟨rest, hrest, hends⟩ := (Option.any_eq_true _ _).1 h
  obtain ⟨inner, hinner, hkeyword⟩ := Option.bind_eq_some_iff.1 hrest
  obtain ⟨word, rfl, -⟩ := afterKeyword?_eq_some_iff.1 hkeyword
  have hmem : '>' ∈ rest := by simpa using (Bool.and_eq_true_iff.1 hends).2
  rw [afterSpace?] at hinner
  split at hinner
  · refine (List.dropWhile_suffix Text.isSpace).subset ?_
    rw [Option.some.inj hinner]
    exact List.mem_append_right _ hmem
  · cases hinner

/-- **A text that begins as a declaration** is a whole document if it declares `html`. -/
theorem isDocumentStart_declaration (h : written.map Char.toLower = doctypeStart)
    (cs : List Char) : isDocumentStart (written ++ cs) = true ↔ declaresHtml cs = true := by
  obtain ⟨d, inner, hwritten, -⟩ := exists_of_toLower_doctypeStart h
  have hhead : (written ++ cs).head?.any Text.isSpace = false := by
    rw [hwritten]
    rfl
  rw [isDocumentStart_iff hhead]
  refine ⟨?_, fun hdeclares => Or.inl ⟨written, cs, rfl, h, hdeclares⟩⟩
  rintro (⟨other, rest, heq, hother, hdeclares⟩ | ⟨word, rest, heq, hword, -⟩)
  · have hlength := (length_of_toLower_doctypeStart h).trans
      (length_of_toLower_doctypeStart hother).symm
    obtain ⟨-, rfl⟩ := List.append_inj heq hlength
    exact hdeclares
  · -- A declaration goes on with an exclamation mark, and `html` with a letter.
    rw [hwritten] at heq
    obtain ⟨c, others, rfl, hc, -⟩ := List.map_eq_cons_iff.1 hword
    obtain rfl := (List.cons.inj (List.cons.inj heq).2).1
    exact absurd hc (by decide)

/-- What is read as a declaration begins as one. -/
theorem exists_of_opening_doctype {skip : Nat} {terminator : List Char}
    (h : opening cs = .mark .doctype skip terminator) : skip = 9 ∧ terminator = ['>'] ∧
      ∃ written rest, cs = written ++ rest ∧ written.map Char.toLower = doctypeStart := by
  have htag : ∀ inner, tagOpening inner ≠ .mark .doctype skip terminator := by
    intro inner
    unfold tagOpening
    split <;> (try split) <;> exact nofun
  unfold opening at h
  split at h
  · cases h
  split at h
  · cases h
  split at h
  · next hstart =>
    cases h
    refine ⟨rfl, rfl, cs.take doctypeStart.length, _, (List.take_append_drop _ cs).symm, ?_⟩
    rw [← beq_iff_eq.1 hstart]
    rfl
  split at h
  · cases h
  split at h
  · exact absurd h (htag _)
  · cases h

/-- **A declaration begins a whole document** if it is closed and its name is `html`. -/
theorem isDocumentStart_iff_of_doctype {skip : Nat} {terminator : List Char}
    (h : opening cs = .mark .doctype skip terminator) : isDocumentStart cs = true ↔
      (doctypeOf (throughTerminator skip terminator cs).1).name.toList.map Char.toLower =
          "html".toList ∧ '>' ∈ (throughTerminator skip terminator cs).1 := by
  obtain ⟨rfl, rfl, written, rest, rfl, hwritten⟩ := exists_of_opening_doctype h
  have hlength := length_of_toLower_doctypeStart hwritten
  have hbracket : '>' ∉ written := not_mem_of_toLower hwritten (by decide)
  rw [isDocumentStart_declaration hwritten]
  by_cases hmem : '>' ∈ rest
  · obtain ⟨b, behind, rfl, hb⟩ := List.eq_append_cons_of_mem hmem
    have hraw : (throughTerminator 9 ['>'] (written ++ (b ++ '>' :: behind))).1 =
        written ++ (b ++ ['>']) := by
      rw [throughTerminator, List.drop_left' hlength, Text.cut_singleton hb,
        List.take_left' hlength]
      simp
    rw [hraw, name_doctypeOf hwritten, declaresHtml_iff hb behind []]
    simp
  · have hraw : (throughTerminator 9 ['>'] (written ++ rest)).1 = written ++ rest := by
      rw [throughTerminator, List.drop_left' hlength, Text.cut_eq_none_of_not_mem hmem]
    rw [hraw]
    refine iff_of_false (fun hdeclares => hmem (mem_of_declaresHtml hdeclares)) fun hand => ?_
    exact (List.mem_append.1 hand.2).elim hbracket hmem

/-! ## Start tags -/

/-- **A word of letters that is read of a text stands in it**, if there is another character, and
does not end it. -/
theorem exists_of_append_eq_word {front : List Char} (hword : ∀ c ∈ word, Text.isLetter c = true)
    {d : Char} (hd : d ∈ front) (hother : Text.isLetter d = false)
    (heq : front ++ more = word ++ rest) :
    ∃ c after, front = word ++ c :: after ∧ rest = c :: after ++ more := by
  have hlonger : ∀ after, word ≠ front ++ after := by
    rintro after rfl
    exact absurd (hword d (List.mem_append_left _ hd)) (Bool.eq_false_iff.1 hother)
  rcases List.append_eq_append_iff.1 heq with ⟨after, hafter, -⟩ | ⟨after, hafter, hrest⟩
  · exact absurd hafter (hlonger after)
  · cases after with
    | nil => exact absurd (by simpa using hafter.symm) (hlonger [])
    | cons c after => exact ⟨c, after, hafter, hrest⟩

/-- **A tag begins a whole document** if white space or the bracket follows `html` in it. -/
theorem isDocumentStart_iff_of_startTag {raw : List Char} {name : String}
    (h : IsStartTag raw name) (more : List Char) : isDocumentStart (raw ++ more) = true ↔
      ∃ word c tail, raw = '<' :: (word ++ c :: tail) ∧
        word.map Char.toLower = "html".toList ∧ (Text.isSpace c = true ∨ c = '>') := by
  obtain @⟨name, behind, letter, hname, ends, -⟩ := h
  rw [isDocumentStart_iff rfl]
  constructor
  · rintro (⟨written, rest, heq, hwritten, -⟩ | ⟨word, rest, heq, hword, hends⟩)
    · -- A declaration goes on with an exclamation mark, and a tag with a letter.
      obtain ⟨d, inner, rfl, -⟩ := exists_of_toLower_doctypeStart hwritten
      cases name with
      | nil => cases letter
      | cons c others =>
        obtain rfl := (List.cons.inj (List.cons.inj heq).2).1
        exact absurd (show Text.isLetter '!' = true from letter) (by decide)
    · -- The name ends in the tag, so the word that is read there ends in it, too.
      obtain ⟨d, hd, hend⟩ := (Option.any_eq_true _ _).1 ends
      have hother : Text.isLetter d = false := Bool.eq_false_iff.2 fun hletter =>
        absurd hend (Bool.eq_false_iff.1 (Text.isNameEnd_of_isLetter hletter))
      have hmem := List.mem_append_right name (List.mem_of_head? hd)
      obtain ⟨c, after, hafter, rfl⟩ := exists_of_append_eq_word (isLetter_of_toLower_html hword)
        hmem hother (List.cons.inj heq).2
      obtain ⟨_, _, hrest, hc⟩ := endsName_iff.1 hends
      obtain ⟨rfl, -⟩ := List.cons.inj hrest
      exact ⟨word, c, after, congrArg ('<' :: ·) hafter, hword, hc⟩
  · rintro ⟨word, c, tail, heq, hword, hc⟩
    exact Or.inr ⟨word, c :: (tail ++ more), by rw [heq]; simp, hword,
      endsName_iff.2 ⟨c, _, rfl, hc⟩⟩

/-! ## Nodes -/

/-- Only a declaration or a start tag begins a whole document. -/
theorem opening_of_isDocumentStart (hhead : cs.head?.any Text.isSpace = false)
    (h : isDocumentStart cs = true) :
    opening cs = .mark .doctype 9 ['>'] ∨ opening cs = .startTag := by
  rcases (isDocumentStart_iff hhead).1 h with ⟨written, rest, rfl, hwritten, -⟩ |
    ⟨word, rest, rfl, hword, -⟩
  · exact Or.inl (opening_of_doctypeStart hwritten rest)
  · have hletters := isLetter_of_toLower_html hword
    obtain ⟨c, others, rfl, -, -⟩ := List.map_eq_cons_iff.1 hword
    have hletter := hletters c List.mem_cons_self
    obtain ⟨hmark, hquestion, -⟩ := ne_of_isLetter hletter
    exact Or.inr ((opening_tag ⟨hmark, hquestion⟩).trans (tagOpening_letter hletter))

/-- What a start tag begins is shown by an element. -/
theorem Lexeme.ShownBy.exists_element (hshown : lexeme.ShownBy source offset n)
    (hproper : lexeme.Proper) (hmark : ∀ kind raw, lexeme ≠ .mark kind raw)
    (hend : ∀ name raw, lexeme ≠ .endTag name raw) :
    ∃ name e, IsStartTag lexeme.head name ∧ n.data = .element e := by
  have hdata := hshown.data
  cases lexeme with
  | mark kind raw => exact absurd rfl (hmark kind raw)
  | endTag name raw => exact absurd rfl (hend name raw)
  | closedTag name raw => exact ⟨name, hdata.choose, hproper, hdata.choose_spec.1⟩
  | openTag name raw => exact ⟨name, hdata.choose, hproper.1, hdata.choose_spec.1⟩
  | rawElement name raw => exact ⟨name, hdata.choose, hproper.1, hdata.choose_spec.1⟩

/-- **A text that does not begin with white space is a whole document if its first node begins
one.** -/
theorem isDocumentStart_iff_of_next (hhead : cs.head?.any Text.isSpace = false) (hne : cs ≠ [])
    (hnext : Lexeme.next config cs = .ok (lexeme, more)) (hshown : lexeme.ShownBy source offset n) :
    isDocumentStart cs = true ↔ BeginsDocument n := by
  have hproper := Lexeme.proper_of_next hnext hne
  have hdata := hshown.data
  have hraw := hshown.raw_eq
  have hother : opening cs ≠ .mark .doctype 9 ['>'] → opening cs ≠ .startTag →
      (∀ d, n.data ≠ .doctype d) → (∀ e, n.data ≠ .element e) →
        (isDocumentStart cs = true ↔ BeginsDocument n) := by
    intro hdoctype htag hnd hne
    refine iff_of_false (fun h => ?_) ?_
    · exact (opening_of_isDocumentStart hhead h).elim hdoctype htag
    · rintro (⟨d, hd, -⟩ | ⟨e, word, c, tail, he, -⟩)
      · exact hnd d hd
      · exact hne e he
  cases Lexeme.begins_of_next hnext with
  | @mark kind skip terminator opens =>
    by_cases hkind : kind = .doctype
    · subst hkind
      rw [isDocumentStart_iff_of_doctype opens, beginsDocument_doctype hdata, hraw]
      rfl
    · refine hother (fun h => hkind ?_) (by simp [opens]) ?_ ?_
      · exact (Opening.mark.inj (opens.symm.trans h)).1
      · rintro d hd
        cases kind <;> simp_all [Lexeme.Is, Mark.data]
      · rintro e he
        cases kind <;> simp_all [Lexeme.Is, Mark.data]
  | startTag opens read starts =>
    obtain ⟨inner, htext⟩ := lexeme.exists_text
    obtain ⟨hmark, hend⟩ := Lexeme.ofStartTag_ne starts
    have hcs : lexeme.head ++ (inner ++ more) = cs := by
      rw [← List.append_assoc, ← htext, (Lexeme.append_of_next hnext).1]
    obtain ⟨name, e, htag, he⟩ := hshown.exists_element hproper hmark hend
    rw [← hcs, isDocumentStart_iff_of_startTag htag, beginsDocument_element he, hraw]
  | endTag opens read =>
    have hend : n.data = .endTag _ _ := hdata
    exact hother (by simp [opens]) (by simp [opens]) (by simp [hend]) (by simp [hend])
  | text opens =>
    have htext : n.data = .text := hdata
    exact hother (by simp [opens]) (by simp [opens]) (by simp [htext]) (by simp [htext])

/-! ## Documents -/

/-- Front matter. -/
def isFrontMatter (n : Node) : Bool :=
  match n.data with
  | .block name _ => name == "#front-matter"
  | _ => false

/-- A text that is white space only. -/
def isBlankText (n : Node) : Bool :=
  n.data == .text && n.token.raw.toList.all Text.isSpace

/-- Nodes without the first one, if that is of a kind. -/
def dropFirst (p : Node → Bool) : List Node → List Node
  | [] => []
  | n :: nodes => if p n then nodes else n :: nodes

/-- **The first node that counts** of a document: front matter does not, nor does white space. -/
def firstContent? (doc : Document) : Option Node :=
  (dropFirst isBlankText (dropFirst isFrontMatter doc.nodes.toList)).head?

/-- What is read as text is a run of it. -/
theorem exists_of_text (hnext : Lexeme.next config cs = .ok (lexeme, more)) (hne : cs ≠ [])
    (htext : lexeme.Is .text) : ∃ raw, lexeme = .mark .text raw ∧ cs = raw ++ more ∧
      EndsText more ∧ ∀ front back, raw = front ++ back → back ≠ [] → isMarkup back = false := by
  cases Lexeme.begins_of_next hnext with
  | @mark kind skip terminator opens =>
    cases kind with
    | text => cases ending?_of_opening opens
    | _ => cases htext
  | startTag opens read starts =>
    obtain ⟨hmark, hend⟩ := Lexeme.ofStartTag_ne starts
    cases lexeme with
    | mark kind raw => exact absurd rfl (hmark kind raw)
    | endTag name raw => exact absurd rfl (hend name raw)
    | closedTag | openTag | rawElement => cases htext.choose_spec.1
  | endTag => cases htext
  | text opens =>
    obtain ⟨c, run, rest, hrun, hrest, hno⟩ := exists_of_textRun hne opens
    have happ := append_textRun cs
    rw [hrun] at happ ⊢
    exact ⟨c :: run, rfl, happ.symm, hrest, hno⟩

/-- **A text that goes on after white space** begins no whole document. -/
theorem isDocumentStart_eq_false_of_text {raw : List Char} (hrest : EndsText more)
    (hno : ∀ front back, raw = front ++ back → back ≠ [] → isMarkup back = false)
    (hsolid : raw.all Text.isSpace = false) : isDocumentStart (raw ++ more) = false := by
  have hback : raw.dropWhile Text.isSpace ≠ [] := fun hnil => by
    rw [List.dropWhile_eq_nil_iff] at hnil
    exact absurd (List.all_eq_true.2 hnil) (Bool.eq_false_iff.1 hsolid)
  have htext : opening (raw.dropWhile Text.isSpace ++ more) = .text := by
    rw [opening_eq_text_iff, isMarkup_append hback hrest]
    exact hno _ _ (List.takeWhile_append_dropWhile).symm hback
  have hhead : (raw.dropWhile Text.isSpace ++ more).head?.any Text.isSpace = false := by
    rw [List.head?_append_of_ne_nil _ hback]
    cases hfirst : (raw.dropWhile Text.isSpace).head? with
    | none => rfl
    | some c => simpa [hfirst] using List.head?_dropWhile_not Text.isSpace raw
  rw [← isDocumentStart_dropWhile, (Text.run_append_of_ends hback more).2]
  refine Bool.eq_false_iff.2 fun h => ?_
  rcases opening_of_isDocumentStart hhead h with h | h <;> simp [htext] at h

/-- Nothing that is read is front matter. -/
theorem isFrontMatter_eq_false (hnext : Lexeme.next config cs = .ok (lexeme, more))
    (hdata : lexeme.Is n.data) : isFrontMatter n = false := by
  cases lexeme with
  | mark kind raw =>
    rw [isFrontMatter, show n.data = kind.data raw from hdata]
    cases kind with
    | frontMatter => exact absurd hnext Lexeme.ne_frontMatter_of_next
    | _ => rfl
  | endTag name raw => rw [isFrontMatter, show n.data = .endTag _ _ from hdata]
  | closedTag | openTag | rawElement =>
    obtain ⟨e, he, -⟩ := hdata
    rw [isFrontMatter, he]

/-- A text without white space at its beginning, or nothing. -/
theorem head?_of_endsText (h : EndsText cs) : cs.head?.any Text.isSpace = false := by
  rcases h with rfl | h
  · rfl
  · cases cs with
    | nil => rfl
    | cons c cs =>
      obtain rfl : c = '<' := by
        by_contra hc
        rw [isMarkup_of_ne hc] at h
        exact absurd h Bool.false_ne_true
      rfl

/-- **A row begins with what its text begins with.** -/
theorem isDocumentStart_iff_of_row {ls : List Lexeme} {here : Position} {start shift : Nat}
    {nodes : List Node} {tops : List NodeId} (hhead : cs.head?.any Text.isSpace = false)
    (hdrop : Text.dropBytes? shift source.text = some cs) (hls : lexemes config cs = .ok ls)
    (hrow : Row dialect source here .html start (Tree.blueprints source
      ((Tree.ofLexemes config ls).map (Tree.movedBy shift))) nodes tops) :
    isDocumentStart cs = true ↔ ∃ n, nodes.head? = some n ∧ BeginsDocument n := by
  cases cs with
  | nil =>
    rw [lexemes] at hls
    cases hls
    cases hrow
    exact iff_of_false (by decide) (by simp)
  | cons c cs =>
    have hne := List.cons_ne_nil c cs
    obtain ⟨lexeme, more, others, hnext, -, rfl⟩ := lexemes_cons_eq_ok hls
    obtain ⟨n, nodes, rfl, hshown⟩ := exists_first_of_row hnext hne hdrop hls hrow
    rw [isDocumentStart_iff_of_next hhead hne hnext hshown]
    simp

/-- The nodes behind the front matter. -/
theorem LeadsWith.dropFirst_eq {front : List Char} {doc : Document} {nodes : List Node}
    (hfirst : ∀ n, nodes.head? = some n → isFrontMatter n = false)
    (hnodes : front = [] ∧ doc.nodes.toList = nodes ∨ front ≠ [] ∧ ∃ n,
      doc.nodes.toList = n :: nodes ∧ (Lexeme.mark .frontMatter front).ShownBy source 0 n) :
    dropFirst isFrontMatter doc.nodes.toList = nodes := by
  obtain ⟨-, hnodes⟩ | ⟨-, n, hnodes, hshown⟩ := hnodes
  · rw [hnodes]
    cases nodes with
    | nil => rfl
    | cons n nodes => exact if_neg (Bool.eq_false_iff.1 (hfirst n rfl))
  · have hdata : n.data = .block "#front-matter" [] := hshown.data
    rw [hnodes, dropFirst, isFrontMatter, hdata]
    rfl

/-- **A text that begins with a node that counts** is a whole document if that begins one… -/
theorem isDocumentStart_iff_of_solid (hnext : Lexeme.next config cs = .ok (lexeme, more))
    (hne : cs ≠ []) (hshown : lexeme.ShownBy source offset n) (hsolid : isBlankText n = false) :
    isDocumentStart cs = true ↔ BeginsDocument n := by
  obtain ⟨c, inner, rfl⟩ := List.exists_cons_of_ne_nil hne
  cases hhead : Text.isSpace c with
  | false => exact isDocumentStart_iff_of_next hhead hne hnext hshown
  | true =>
    have hopens : opening (c :: inner) = .text := opening_of_ne (by rintro rfl; cases hhead)
    have hdata : n.data = .text := by
      cases Lexeme.begins_of_next hnext with
      | text => exact hshown.data
      | mark opens | startTag opens | endTag opens =>
        exact absurd (opens.symm.trans hopens) (by simp)
    obtain ⟨raw, rfl, heq, hends, hno⟩ := exists_of_text hnext hne (hdata ▸ hshown.data)
    have hall : raw.all Text.isSpace = false := by
      simpa [isBlankText, hdata, hshown.raw_eq, Lexeme.head] using hsolid
    rw [heq, isDocumentStart_eq_false_of_text hends hno hall]
    exact iff_of_false Bool.false_ne_true (by simp [BeginsDocument, hdata])

/-- …and one that begins with white space if what follows that is one. -/
theorem exists_of_isBlankText (hnext : Lexeme.next config cs = .ok (lexeme, more)) (hne : cs ≠ [])
    (hshown : lexeme.ShownBy source offset n) (hblank : isBlankText n = true) :
    ∃ raw, lexeme = .mark .text raw ∧ cs = raw ++ more ∧ EndsText more ∧
      isDocumentStart cs = isDocumentStart more := by
  obtain ⟨hdata, hspace⟩ := Bool.and_eq_true_iff.1 hblank
  rw [beq_iff_eq] at hdata
  obtain ⟨raw, rfl, rfl, hends, -⟩ := exists_of_text hnext hne (hdata ▸ hshown.data)
  rw [hshown.raw_eq] at hspace
  have hall : ∀ c ∈ raw, Text.isSpace c = true := List.all_eq_true.1 hspace
  refine ⟨raw, rfl, rfl, hends, ?_⟩
  rw [← isDocumentStart_dropWhile, List.dropWhile_append_of_pos hall, isDocumentStart_dropWhile]

/-- **The text behind the front matter is a whole document** if the first node that counts begins
one. -/
theorem LeadsWith.isDocumentStart_iff {front : List Char} {doc : Document}
    (h : LeadsWith source front rest doc) (htext : source.text = front ++ rest) :
    isDocumentStart rest = true ↔ ∃ n, firstContent? doc = some n ∧ BeginsDocument n := by
  obtain ⟨ls, here, start, nodes, tops, hls, hrow, hnodes⟩ := h.exists_row
  have hdrop : Text.dropBytes? (Text.byteSize front) source.text = some rest :=
    Text.dropBytes?_eq_some_iff.2 ⟨front, htext, rfl⟩
  cases rest with
  | nil =>
    rw [lexemes] at hls
    cases hls
    cases hrow
    rw [firstContent?, LeadsWith.dropFirst_eq (by simp) hnodes]
    exact iff_of_false (by decide) (by simp [dropFirst])
  | cons c inner =>
    obtain ⟨lexeme, more, others, hnext, hothers, rfl⟩ := lexemes_cons_eq_ok hls
    have hne := List.cons_ne_nil c inner
    obtain ⟨n, behind, rfl, hshown⟩ := exists_first_of_row hnext hne hdrop hls hrow
    have hmarkup : dropFirst isFrontMatter doc.nodes.toList = n :: behind :=
      LeadsWith.dropFirst_eq (by simp [isFrontMatter_eq_false hnext hshown.data]) hnodes
    rw [firstContent?, hmarkup, dropFirst]
    by_cases hblank : isBlankText n = true
    · obtain ⟨raw, rfl, heq, hends, hstart⟩ := exists_of_isBlankText hnext hne hshown hblank
      rw [heq] at hdrop
      obtain ⟨m, later, laterTops, hcons, -, hlater⟩ := exists_row_of_mark hdrop hrow
      obtain ⟨rfl, rfl⟩ := List.cons.inj hcons
      rw [if_pos hblank, hstart]
      exact isDocumentStart_iff_of_row (head?_of_endsText hends) (Text.dropBytes?_of_append hdrop)
        hothers hlater
    · rw [if_neg hblank]
      have hsolid := Bool.eq_false_iff.2 hblank
      simp [isDocumentStart_iff_of_solid hnext hne hshown hsolid]

/-- A document type, or an element that is named `html`. -/
def IsDoctypeOrHtml (n : Node) : Prop :=
  (∃ d, n.data = .doctype d) ∨
    ∃ e, n.data = .element e ∧ e.name.toList.map Char.toLower = "html".toList

/-- **A node that is written plainly**: a document type is `html` and is closed, and the name of an
element holds no white space and is followed by white space or the bracket. -/
def IsPlain (n : Node) : Prop :=
  (∀ d, n.data = .doctype d → d.name.toList.map Char.toLower = "html".toList ∧
    '>' ∈ n.token.raw.toList) ∧
  ∀ e, n.data = .element e → (∀ c ∈ e.name.toList, Text.isSpace c = false) ∧
    ∀ c tail, n.token.raw.toList = '<' :: (e.name.toList ++ c :: tail) → c ≠ '/' ∧ c ≠ '\x00'

/-- **A plain start tag begins a document** if its name is `html`. -/
theorem exists_html_iff {raw : List Char} {name : String} (htag : IsStartTag raw name)
    (hname : ∀ c ∈ name.toList, Text.isSpace c = false)
    (hbehind : ∀ c tail, raw = '<' :: (name.toList ++ c :: tail) → c ≠ '/' ∧ c ≠ '\x00') :
    (∃ word c tail, raw = '<' :: (word ++ c :: tail) ∧
      word.map Char.toLower = "html".toList ∧ (Text.isSpace c = true ∨ c = '>')) ↔
        name.toList.map Char.toLower = "html".toList := by
  obtain @⟨name, tail, -, hword, ends, -⟩ := htag
  simp only [String.toList_ofList] at hname hbehind ⊢
  obtain ⟨d, tail, rfl⟩ := List.exists_cons_of_ne_nil (l := tail) (by rintro rfl; cases ends)
  have hd : Text.isNameEnd d = true := ends
  constructor
  · rintro ⟨word, c, behind, heq, hhtml, hc⟩
    have hletters := isLetter_of_toLower_html hhtml
    rcases List.append_eq_append_iff.1 (List.cons.inj heq).2 with ⟨after, rfl, hafter⟩ |
      ⟨after, rfl, hafter⟩
    · -- What the word has beyond the name would begin with what ends a name.
      cases after with
      | nil => rwa [List.append_nil] at hhtml
      | cons f after =>
        obtain ⟨rfl, -⟩ := List.cons.inj hafter
        have hend := Text.isNameEnd_of_isLetter (hletters d (by simp))
        exact absurd hd (Bool.eq_false_iff.1 hend)
    · cases after with
      | nil => rwa [List.append_nil]
      | cons f after =>
        obtain ⟨rfl, -⟩ := List.cons.inj hafter
        have hmem : c ∈ word ++ c :: after := by simp
        rcases hc with hc | rfl
        · exact absurd hc (Bool.eq_false_iff.1 (hname c hmem))
        · exact absurd (hword '>' hmem) (by decide)
  · intro hhtml
    obtain ⟨hslash, hnul⟩ := hbehind d tail rfl
    refine ⟨name, d, tail, rfl, hhtml, ?_⟩
    simp only [Text.isNameEnd, Bool.or_eq_true, beq_iff_eq, hslash, hnul, or_false] at hd
    exact hd.imp_left Text.isSpace_of_isBlank

/-- **What is written plainly begins a document** if it is a document type or `html`. -/
theorem IsPlain.beginsDocument_iff (h : IsPlain n)
    (htag : ∀ e, n.data = .element e → IsStartTag n.token.raw.toList e.name) :
    BeginsDocument n ↔ IsDoctypeOrHtml n := by
  cases hdata : n.data with
  | doctype d =>
    rw [beginsDocument_doctype hdata]
    exact iff_of_true (h.1 d hdata) (Or.inl ⟨d, hdata⟩)
  | element e =>
    obtain ⟨hname, hbehind⟩ := h.2 e hdata
    rw [beginsDocument_element hdata, exists_html_iff (htag e hdata) hname hbehind]
    simp [IsDoctypeOrHtml, hdata]
  | text | comment | endTag | block | ghost =>
    exact iff_of_false (by simp [BeginsDocument, hdata]) (by simp [IsDoctypeOrHtml, hdata])

/-- The first node that counts is one of the document. -/
theorem mem_of_firstContent? {doc : Document} (h : firstContent? doc = some n) :
    n ∈ doc.nodes := by
  have hdrop : ∀ (p : Node → Bool) (nodes : List Node), dropFirst p nodes ⊆ nodes := by
    intro p nodes
    cases nodes with
    | nil => exact List.Subset.refl _
    | cons m nodes =>
      rw [dropFirst]
      split
      · exact List.subset_cons_self m nodes
      · exact List.Subset.refl _
  exact Array.mem_toList_iff.1 (hdrop _ _ (hdrop _ _ (List.mem_of_mem_head? h)))

/-- **A document is whole if the first node that counts begins one**; if that is written plainly,
if it is a document type or an `html` element. -/
theorem isFragment_eq_false_iff {text : String} {options : Options} {doc : Document}
    (h : Document.parse dialect text options = .ok doc) :
    (doc.isFragment = false ↔ ∃ n, firstContent? doc = some n ∧ BeginsDocument n) ∧
    ((∀ n, firstContent? doc = some n → IsPlain n) →
      (doc.isFragment = false ↔ ∃ n, firstContent? doc = some n ∧ IsDoctypeOrHtml n)) := by
  have hlead := leadsWith_of_parse h
  have hexact : doc.isFragment = false ↔ ∃ n, firstContent? doc = some n ∧ BeginsDocument n := by
    rw [hlead.isFragment_eq, Bool.not_eq_false']
    exact hlead.isDocumentStart_iff (append_splitFront _ _).symm
  refine ⟨hexact, fun hplain => hexact.trans (exists_congr fun n => and_congr_right fun hn => ?_)⟩
  exact (hplain n hn).beginsDocument_iff fun e he =>
    isStartTag_of_mem h (mem_of_firstContent? hn) he

/-- A document behind front matter and white space. -/
def framedDocument : String := "---\n---\n \n<!doctype HTML><p>"

theorem isFragment_eq_false_iff_framedDocument : ∃ doc,
    Document.parse dialect framedDocument { ignoreFrontMatter := true } = .ok doc ∧
      doc.isFragment = false ∧ ∃ n, firstContent? doc = some n ∧ BeginsDocument n ∧
        IsDoctypeOrHtml n := by
  obtain ⟨doc, hdoc, hfirst⟩ := Except.map_eq_ok.1 (show (Document.parse dialect framedDocument
    { ignoreFrontMatter := true }).map (fun doc => (firstContent? doc).map fun n =>
      (n.data, n.token.raw)) = .ok (some (.doctype ⟨"HTML", "", ""⟩, "<!doctype HTML>")) by
        decide +kernel)
  obtain ⟨n, hn, hparts⟩ := Option.map_eq_some_iff.1 hfirst
  obtain ⟨hdata, hraw⟩ := Prod.mk.inj hparts
  have hplain : ∀ m, firstContent? doc = some m → IsPlain m := by
    rintro m hm
    obtain rfl := Option.some.inj (hn.symm.trans hm)
    refine ⟨fun d hd => ?_, fun e he => by simp [hdata] at he⟩
    obtain rfl := NodeData.doctype.inj (hdata.symm.trans hd)
    rw [hraw]
    decide
  obtain ⟨hexact, hiff⟩ := isFragment_eq_false_iff hdoc
  have hwhole := (hiff hplain).2 ⟨n, hn, Or.inl ⟨_, hdata⟩⟩
  obtain ⟨m, hm, hbegins⟩ := hexact.1 hwhole
  obtain rfl := Option.some.inj (hn.symm.trans hm)
  exact ⟨doc, hdoc, hwhole, n, hn, hbegins, Or.inl ⟨_, hdata⟩⟩

/-- **Another document type** begins no whole document, **nor does an `html` tag that goes on with a
slash.** -/
theorem not_isDocument_svg :
    (∃ doc, Document.parse dialect "<!DOCTYPE svg>" {} = .ok doc ∧ doc.isFragment = true ∧
      ∃ n, firstContent? doc = some n ∧ IsDoctypeOrHtml n) ∧
    ∃ doc, Document.parse dialect "<html/>" {} = .ok doc ∧ doc.isFragment = true ∧
      ∃ n, firstContent? doc = some n ∧ IsDoctypeOrHtml n := by
  obtain ⟨svg, hsvg, hdoctype⟩ := Except.map_eq_ok.1 (show (Document.parse dialect "<!DOCTYPE svg>"
    {}).map (fun doc => (doc.isFragment, (firstContent? doc).map Node.data)) =
      .ok (true, some (.doctype ⟨"svg", "", ""⟩)) by decide +kernel)
  obtain ⟨html, hhtml, helement⟩ := Except.map_eq_ok.1 (show (Document.parse dialect "<html/>"
    {}).map (fun doc => (doc.isFragment,
      ((firstContent? doc).bind Node.element?).map Element.name)) = .ok (true, some "html") by
        decide +kernel)
  obtain ⟨hfragment, hfirst⟩ := Prod.mk.inj hdoctype
  obtain ⟨n, hn, hdata⟩ := Option.map_eq_some_iff.1 hfirst
  obtain ⟨hfragment', hname⟩ := Prod.mk.inj helement
  obtain ⟨e, he, hname⟩ := Option.map_eq_some_iff.1 hname
  obtain ⟨m, hm, he⟩ := Option.bind_eq_some_iff.1 he
  have hdata' : m.data = .element e := by
    rw [Node.element?] at he
    split at he
    · next heq => exact heq.trans (congrArg _ (Option.some.inj he))
    · cases he
  exact ⟨⟨svg, hsvg, hfragment, n, hn, Or.inl ⟨_, hdata⟩⟩, html, hhtml, hfragment', m, hm,
    Or.inr ⟨e, hdata', by rw [hname]; decide⟩⟩

end Markup.Html
