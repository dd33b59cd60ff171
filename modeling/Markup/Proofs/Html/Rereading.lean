import Markup.Proofs.Html.EndTag
import Markup.Proofs.Html.Page

/-!
# Proofs/Html/Rereading — a lexeme is read again before another text

What a lexeme is does not depend on what follows it (`Lexeme.next_closed`), with two exceptions.  A
mark that is left open and opaque content without an end tag run to the end of their text: the
former is left out here (`Lexeme.Ended`), the latter is **given its end tag** (`Lexeme.closed`).  A
run of text goes on to the next markup, so it must be followed by markup or by nothing.
-/

namespace Markup.Html

/-- Where the end of a mark is sought and what it is; a run of text has none. -/
def Mark.ending? : Mark → Option (Nat × List Char)
  | .comment => some (4, Text.commentEnd)
  | .cdata => some (9, [']', ']', '>'])
  | .doctype => some (9, ['>'])
  | .bogus => some (2, ['>'])
  | .text | .frontMatter => none

/-- **The text of a mark ends it**, if anything has to. -/
def Mark.isEnded (kind : Mark) (raw : List Char) : Bool :=
  kind.ending?.all fun ending => (Text.cut ending.2 (raw.drop ending.1)).isSome

/-- No mark is left open. -/
def Lexeme.Ended : Lexeme → Prop
  | .mark kind raw => kind.isEnded raw = true
  | _ => True

/-- **The lexeme with an end tag**, if it is opaque content that lacks one. -/
def Lexeme.closed : Lexeme → Lexeme
  | .rawElement name startTag content closing =>
    .rawElement name startTag content (some (closing.getD (Html.endTag name.toList)))
  | lexeme => lexeme

/-- The end tag that is put in then. -/
def Lexeme.lacks : Lexeme → List (List Char)
  | .rawElement name _ _ none => [Html.endTag name.toList]
  | _ => []

theorem Lexeme.text_closed (lexeme : Lexeme) :
    lexeme.closed.text = lexeme.text ++ lexeme.lacks.flatten := by
  cases lexeme with
  | rawElement name startTag content closing => cases closing <;> simp [closed, text, lacks]
  | _ => exact (List.append_nil _).symm

/-- A run of text. -/
def Lexeme.IsText (lexeme : Lexeme) : Prop := ∃ raw, lexeme = .mark .text raw

/-- A text before which a run of text ends. -/
def EndsText (cs : List Char) : Prop := cs = [] ∨ isMarkup cs = true

variable {cs rest raw : List Char}

/-! ## What a text begins with -/

/-- What a mark is told apart by tells how it ends. -/
theorem ending?_of_opening {kind : Mark} {skip : Nat} {terminator : List Char}
    (h : opening cs = .mark kind skip terminator) : kind.ending? = some (skip, terminator) := by
  have htag : ∀ inner, tagOpening inner ≠ .mark kind skip terminator := by
    intro inner
    unfold tagOpening
    split
    · split <;> simp
    · split <;> simp
    · simp
  unfold opening at h
  iterate 4
    split at h
    · cases h; rfl
  split at h
  · exact absurd h (htag _)
  · cases h

theorem bracket_mem_ending {kind : Mark} {skip : Nat} {terminator : List Char}
    (h : kind.ending? = some (skip, terminator)) : '>' ∈ terminator := by
  cases kind <;> cases h <;> decide

/-- **Either text or markup begins.** -/
theorem opening_eq_text_iff : opening cs = .text ↔ isMarkup cs = false := by
  cases cs with
  | nil => decide
  | cons c inner =>
    by_cases hc : c = '<'
    · subst hc
      cases inner with
      | nil => decide
      | cons d others =>
        by_cases hd : d ≠ '!' ∧ d ≠ '?'
        · rw [opening_tag hd]
          simp [isMarkup, hd.1, hd.2]
        · have hmarkup : isMarkup ('<' :: d :: others) = true := by
            rcases Classical.not_and_iff_not_or_not.1 hd with h | h <;>
              simp [isMarkup, not_not.1 h]
          have hmark : opening ('<' :: d :: others) ≠ .text := by
            unfold opening
            iterate 4
              split
              · simp
            · next hno =>
              rcases Classical.not_and_iff_not_or_not.1 hd with h | h <;>
                exact absurd (by simp [not_not.1 h]) hno
          simp [hmarkup, hmark]
    · simp [opening_of_ne hc, isMarkup_of_ne hc]

theorem tagOpening_append (h : '>' ∈ raw) (rest : List Char) :
    tagOpening (raw ++ rest) = tagOpening raw := by
  match raw with
  | [c] =>
    obtain rfl := List.mem_singleton.1 h
    rfl
  | c :: d :: others =>
    by_cases hc : c = '/'
    · subst hc
      rfl
    · simp [tagOpening, hc]

/-- **A text with a bracket in it shows what it begins with.** -/
theorem opening_append (h : '>' ∈ raw) (rest : List Char) :
    opening (raw ++ rest) = opening raw := by
  obtain ⟨front, back, rfl⟩ := List.append_of_mem h
  have hword : ∀ word : List Char, '>' ∉ word → word.isPrefixOf (front ++ '>' :: back ++ rest) =
      word.isPrefixOf (front ++ '>' :: back) := by
    intro word hword
    rw [List.append_assoc, List.cons_append, Text.isPrefixOf_append_cons hword,
      Text.isPrefixOf_append_cons hword]
  have hdoctype : Text.startsWithIgnoreCase doctypeStart (front ++ '>' :: back ++ rest) =
      Text.startsWithIgnoreCase doctypeStart (front ++ '>' :: back) := by
    have hbracket : '>'.toLower ∉ doctypeStart.map Char.toLower := by decide
    simp only [Text.startsWithIgnoreCase_eq, List.append_assoc, List.cons_append, List.map_append,
      List.map_cons, Text.isPrefixOf_append_cons hbracket]
  simp only [opening.eq_def, hdoctype, hword ['<', '!', '-', '-'] (by decide),
    hword ['<', '!', '[', 'C', 'D', 'A', 'T', 'A', '['] (by decide), hword ['<', '!'] (by decide),
    hword ['<', '?'] (by decide)]
  cases front with
  | nil => rfl
  | cons c front =>
    by_cases hc : c = '<'
    · subst hc
      have htag : tagOpening (front ++ '>' :: back ++ rest) = tagOpening (front ++ '>' :: back) :=
        tagOpening_append (by simp) rest
      simp only [List.cons_append, htag]
    · simp [hc]

/-- **A bracket begins no markup with what stands before it.** -/
theorem isMarkup_append (hcs : cs ≠ []) (hrest : EndsText rest) :
    isMarkup (cs ++ rest) = isMarkup cs := by
  rcases hrest with rfl | hrest
  · rw [List.append_nil]
  obtain ⟨inner, rfl⟩ : ∃ inner, rest = '<' :: inner := by
    unfold isMarkup at hrest
    split at hrest
    · exact ⟨_, rfl⟩
    · cases hrest
  match cs, hcs with
  | [c], _ =>
    by_cases hc : c = '<'
    · subst hc
      rfl
    · rw [List.singleton_append, isMarkup_of_ne hc, isMarkup_of_ne hc]
  | c :: d :: others, _ =>
    by_cases hc : c = '<'
    · subst hc
      have htag : tagOpening (d :: (others ++ '<' :: inner)) = tagOpening (d :: others) := by
        by_cases hd : d = '/'
        · subst hd
          cases others <;> rfl
        · simp [tagOpening, hd]
      simp only [List.cons_append, isMarkup, List.head?_cons, htag]
    · rw [List.cons_append, isMarkup_of_ne hc, isMarkup_of_ne hc]

/-! ## Marks, texts and tags -/

/-- **A mark that has an end ends with it**, which is found there again whatever follows. -/
theorem exists_of_cut {skip : Nat} {terminator body after : List Char} (hne : terminator ≠ [])
    (hcut : Text.cut terminator (cs.drop skip) = some (body, after)) :
    ∃ rest, throughTerminator skip terminator cs = (cs.take skip ++ (body ++ terminator), rest) ∧
      (cs.take skip).length = skip ∧ ∀ rest',
        Text.cut terminator (body ++ (terminator ++ rest')) = some (body, terminator ++ rest') := by
  obtain ⟨rest, rfl⟩ := List.isPrefixOf_iff_prefix.1 (Text.find_of_cutWhere hcut)
  have hdrop := Text.append_of_cut hcut
  refine ⟨rest, ?_, List.length_take_of_le (Nat.le_of_not_lt fun hlt => ?_), ?_⟩
  · rw [throughTerminator, hcut]
    simp only [List.take_left, List.drop_left, List.append_assoc]
  · rw [List.drop_of_length_le (Nat.le_of_lt hlt)] at hdrop
    simp [hne] at hdrop
  · rw [← hdrop] at hcut
    exact Text.cut_congr hcut

/-- **A mark that is not left open ends there**, whatever follows. -/
theorem throughTerminator_append {kind : Mark} {skip : Nat} {terminator : List Char}
    (hopening : opening cs = .mark kind skip terminator)
    (hended : kind.isEnded (throughTerminator skip terminator cs).1 = true) :
    '>' ∈ (throughTerminator skip terminator cs).1 ∧ ∀ rest',
      throughTerminator skip terminator ((throughTerminator skip terminator cs).1 ++ rest') =
        ((throughTerminator skip terminator cs).1, rest') := by
  have hending := ending?_of_opening hopening
  have hbracket := bracket_mem_ending hending
  rw [Mark.isEnded, hending, Option.all_some] at hended
  cases hcut : Text.cut terminator (cs.drop skip) with
  | none => simp [throughTerminator, hcut] at hended
  | some parts =>
    obtain ⟨rest, hparts, hlength, hagain⟩ := exists_of_cut (List.ne_nil_of_mem hbracket) hcut
    rw [hparts]
    refine ⟨by simp [hbracket], fun rest' => ?_⟩
    rw [throughTerminator, List.append_assoc, List.append_assoc, List.drop_left' hlength, hagain,
      List.take_left' hlength]
    simp only [List.take_left, List.drop_left, List.append_assoc]

/-- A run of text is not empty and ends where markup begins, and none begins in it. -/
theorem exists_of_textRun (hcs : cs ≠ []) (hopening : opening cs = .text) :
    ∃ c run rest, textRun cs = (c :: run, rest) ∧ EndsText rest ∧
      ∀ front back, c :: run = front ++ back → back ≠ [] → isMarkup back = false := by
  obtain ⟨c, inner, rfl⟩ := List.exists_cons_of_ne_nil hcs
  have hfirst := opening_eq_text_iff.1 hopening
  have hall : ∀ {run : List Char}, isMarkup (c :: run) = false →
      (∀ front back, run = front ++ back → back ≠ [] → isMarkup back = false) →
        ∀ front back, c :: run = front ++ back → back ≠ [] → isMarkup back = false := by
    intro run hfirst hrun front back heq hne
    cases front with
    | nil =>
      rw [List.nil_append] at heq
      exact heq ▸ hfirst
    | cons d front => exact hrun front back (List.cons.inj heq).2 hne
  cases hcut : Text.cutWhere isMarkup inner with
  | none =>
    refine ⟨c, inner, [], by rw [textRun, hcut], Or.inl rfl, hall hfirst fun front back heq _ => ?_⟩
    exact Text.test_of_cutWhere_eq_none hcut front back heq
  | some parts =>
    obtain ⟨run, rest⟩ := parts
    have hrest : EndsText rest := Or.inr (Text.find_of_cutWhere hcut)
    obtain rfl := Text.append_of_cutWhere hcut
    refine ⟨c, run, rest, by rw [textRun, hcut], hrest, hall ?_ fun front back heq hne => ?_⟩
    · rwa [← List.cons_append, isMarkup_append (List.cons_ne_nil c run) hrest] at hfirst
    · rw [← isMarkup_append hne hrest]
      exact Text.test_of_cutWhere hcut front back heq hne

/-- **A run of text is one before any other text that ends it.** -/
theorem next_text_append {config : Config} (hcs : cs ≠ []) (hopening : opening cs = .text)
    (hrest : EndsText rest) : Lexeme.next config ((textRun cs).1 ++ rest) =
      .ok (.mark .text (textRun cs).1, rest) := by
  obtain ⟨c, run, before, hrun, -, hno⟩ := exists_of_textRun hcs hopening
  have hagain : textRun (c :: (run ++ rest)) = (c :: run, rest) :=
    textRun_append (fun front back heq hne => by
      rw [isMarkup_append hne hrest]
      exact hno (c :: front) back (congrArg (c :: ·) heq) hne) hrest
  have htext : opening (c :: (run ++ rest)) = .text := by
    rw [opening_eq_text_iff, ← List.cons_append, isMarkup_append (List.cons_ne_nil c run) hrest]
    exact hno [] (c :: run) rfl (List.cons_ne_nil c run)
  rw [hrun, List.cons_append, Lexeme.next, htext]
  simp only [hagain]

/-- **A tag that has been read is read again before any other text.** -/
theorem readTag?_append {n : Nat} {tag : ReadTag} (hn : n ≤ cs.length)
    (h : readTag? (cs.take n) (cs.drop n) = some tag) (rest : List Char) :
    opening (tag.raw ++ rest) = opening cs ∧
      readTag? ((tag.raw ++ rest).take n) ((tag.raw ++ rest).drop n) = some { tag with rest } := by
  obtain ⟨tail, hraw, word, behind, ends⟩ := exists_tail_of_readTag? h
  have hbracket : '>' ∈ tag.raw := by
    rw [hraw, ends.eq_append]
    simp
  have happend : tag.raw ++ tag.rest = cs :=
    (append_of_readTag? h).1.trans (List.take_append_drop n cs)
  have hlength : (cs.take n).length = n := List.length_take_of_le hn
  have hsplit : tag.raw ++ rest = cs.take n ++ (tag.name ++ (tail ++ rest)) := by
    rw [hraw, List.append_assoc, List.append_assoc]
  refine ⟨?_, ?_⟩
  · rw [opening_append hbracket, ← opening_append hbracket tag.rest, happend]
  · rw [hsplit, List.take_left' hlength, List.drop_left' hlength,
      readTag?_of_ends _ word behind ends, ← hraw]

/-! ## Opaque content -/

/-- No bracket stands in the name of an element with opaque content. -/
theorem bracket_not_mem_of_isRawText {name : String} (h : (TagRule.ofName name).isRawText = true) :
    '<' ∉ name.toList := by
  have hnames : ∀ small ∈ opaqueNames, '<' ∉ small.toList := by decide
  intro hmem
  refine hnames _ (lowerName_mem_of_isRawText h) ?_
  rw [lowerName, String.toList_ofList]
  exact List.mem_map_of_mem (f := Char.toLower) hmem

/-- What ends opaque content is a bracket and no other. -/
theorem exists_closing {name closing : String} (h : rawTextEnd? config name = some closing) :
    ∃ word, closing.toList = '<' :: word ∧ '<' ∉ word.map Char.toLower ∧
      Text.equalIgnoreCase closing.toList ('<' :: '/' :: name.toList) = true := by
  obtain ⟨hraw, hequal⟩ := Lexeme.closing_of_rawTextEnd? h
  obtain ⟨word, hword, hcase⟩ := Text.exists_of_equalIgnoreCase_cons (by decide) hequal
  refine ⟨word, hword, ?_, beq_iff_eq.2 (beq_iff_eq.1 hequal).symm⟩
  rw [← beq_iff_eq.1 hcase, List.map_cons, List.mem_cons, not_or]
  refine ⟨by decide, fun hmem => ?_⟩
  obtain ⟨c, hc, hlower⟩ := List.mem_map.1 hmem
  obtain rfl := Text.eq_of_toLower_eq (by decide) hlower
  exact bracket_not_mem_of_isRawText hraw hc

/-- Where an end tag is found, opaque content ends with it. -/
theorem rawContent_eq {closing content written tail : List Char}
    (hequal : Text.equalIgnoreCase closing written = true) (hends : tagScanner.Ends .plain tail)
    (hcut : Text.cutIgnoreCase closing (content ++ (written ++ (tail ++ rest))) =
      some (content, written ++ (tail ++ rest))) :
    rawContent closing (content ++ (written ++ tail ++ rest)) =
      .ok (content, some (written ++ tail), rest) := by
  have hlength : closing.length = written.length := by
    simpa using congrArg List.length (beq_iff_eq.1 hequal)
  obtain ⟨c, after, hcons⟩ : ∃ c after, written ++ (tail ++ rest) = c :: after :=
    List.exists_cons_of_ne_nil (by simp [hends.ne_nil])
  have htake : (c :: after).take closing.length = written := by
    rw [← hcons, List.take_left' hlength.symm]
  have hdrop : (c :: after).drop closing.length = tail ++ rest := by
    rw [← hcons, List.drop_left' hlength.symm]
  rw [List.append_assoc, rawContent, hcut]
  simp only [hcons, htake, hdrop, tagTail?_of_ends hends]

/-- In opaque content without an end tag none begins. -/
theorem startsWith_eq_false_of_rawContent {closing content : List Char} (hne : closing ≠ [])
    (h : rawContent closing cs = .ok (content, none, rest)) (front back : List Char)
    (heq : content = front ++ back) : Text.startsWithIgnoreCase closing back = false := by
  rw [rawContent] at h
  split at h
  · next hcut =>
    cases h
    exact Text.test_of_cutWhere_eq_none hcut front back heq
  · next hcut =>
    -- The empty text begins with no end tag.
    have hempty := Text.find_of_cutWhere hcut
    obtain ⟨c, word, rfl⟩ := List.exists_cons_of_ne_nil hne
    cases hempty
  · split at h <;> cases h

/-- **Opaque content that has an end tag has it before any other text**… -/
theorem rawContent_append {closing content endTag : List Char}
    (h : rawContent closing cs = .ok (content, some endTag, rest)) (rest' : List Char) :
    rawContent closing (content ++ (endTag ++ rest')) = .ok (content, some endTag, rest') := by
  rw [rawContent] at h
  split at h
  · cases h
  · cases h
  · next before c after hcut =>
    split at h
    · cases h
    · next tail _ htail =>
      cases h
      have hstarts : Text.startsWithIgnoreCase closing (c :: after) = true :=
        Text.find_of_cutWhere hcut
      have hcs := Text.append_of_cutWhere hcut
      rw [← List.take_append_drop closing.length (c :: after)] at hcs hcut
      rw [← hcs] at hcut
      exact rawContent_eq hstarts (ends_of_tagTail? htail)
        (Text.cutIgnoreCase_congr hstarts hcut (tail ++ rest'))

/-- …and content without one **may be given it**. -/
theorem rawContent_open {name closing : String} {content : List Char}
    (hclosing : rawTextEnd? config name = some closing)
    (h : rawContent closing.toList cs = .ok (content, none, rest)) (rest' : List Char) :
    rawContent closing.toList (content ++ (endTag name.toList ++ rest')) =
      .ok (content, some (endTag name.toList), rest') := by
  obtain ⟨word, hword, hbracket, hequal⟩ := exists_closing hclosing
  have hno := startsWith_eq_false_of_rawContent (hword ▸ List.cons_ne_nil '<' word) h
  have hends : tagScanner.Ends .plain ['>'] := Scanner.ends_bracket rfl
  refine rawContent_eq hequal hends ?_
  refine Text.cutWhere_append (fun front back heq hne => ?_)
    (Text.startsWithIgnoreCase_append hequal)
  -- An end tag that began in the content would have the bracket of this one in its name.
  obtain ⟨b, back, rfl⟩ := List.exists_cons_of_ne_nil hne
  have hbefore := hno front (b :: back) heq
  rw [hword, Text.startsWithIgnoreCase_eq, List.map_cons] at hbefore ⊢
  have hsame := Text.isPrefixOf_append_cons (c := '<'.toLower) hbracket (back.map Char.toLower)
    (('/' :: name.toList ++ (['>'] ++ rest')).map Char.toLower)
  rw [List.map_cons, List.isPrefixOf_cons_cons, ← hsame] at hbefore
  rw [List.map_append, List.map_cons, List.cons_append, List.isPrefixOf_cons_cons]
  exact hbefore

/-! ## Lexemes -/

namespace Lexeme

variable {lexeme : Lexeme}

/-- **What a start tag begins** is the same before any other text, once it has its end tag. -/
theorem exists_of_ofStartTag {tag : ReadTag} (h : ofStartTag config tag = .ok (lexeme, rest)) :
    ∃ inner, lexeme.closed.text = tag.raw ++ inner ∧
      ∀ rest', ofStartTag config { tag with rest := inner ++ rest' } =
        .ok (lexeme.closed, rest') := by
  obtain ⟨hclosed, rfl, rfl⟩ | ⟨hopen, ⟨hnone, rfl, rfl⟩ |
    ⟨closing, content, endTag, hclosing, rfl, hcontent⟩⟩ := ofStartTag_eq_ok h
  · exact ⟨[], (List.append_nil _).symm, fun rest' => if_pos hclosed⟩
  · refine ⟨[], (List.append_nil _).symm, fun rest' => ?_⟩
    rw [ofStartTag, if_neg hopen]
    simp only [hnone]
    rfl
  · have hagain : ∀ rest', rawContent closing.toList
        (content ++ (endTag.getD (Html.endTag (String.ofList tag.name).toList) ++ rest')) =
          .ok (content, some (endTag.getD (Html.endTag (String.ofList tag.name).toList)),
            rest') := by
      cases endTag with
      | none => exact rawContent_open hclosing hcontent
      | some endTag => exact rawContent_append hcontent
    refine ⟨_, List.append_assoc .., fun rest' => ?_⟩
    rw [ofStartTag, if_neg hopen]
    simp only [hclosing, Option.getD_some, List.append_assoc, hagain]
    rfl

/-- **Only runs of text do not begin as markup.** -/
theorem isMarkup_iff_of_next (h : next config cs = .ok (lexeme, rest)) :
    isMarkup cs = true ↔ ¬lexeme.IsText := by
  have hmarkup : opening cs ≠ .text ↔ isMarkup cs = true := by
    rw [ne_eq, opening_eq_text_iff, Bool.not_eq_false]
  rw [← hmarkup]
  cases begins_of_next h with
  | mark opens =>
    have hending := ending?_of_opening opens
    refine iff_of_true (by simp [opens]) ?_
    rintro ⟨raw, heq⟩
    cases heq
    cases hending
  | startTag opens read starts =>
    refine iff_of_true (by simp [opens]) ?_
    rintro ⟨raw, heq⟩
    exact (ofStartTag_ne starts).1 .text raw heq
  | endTag opens read =>
    refine iff_of_true (by simp [opens]) ?_
    rintro ⟨raw, heq⟩
    cases heq
  | text opens => exact iff_of_false (by simp [opens]) fun hno => hno ⟨_, rfl⟩

/-- A run of text goes on to what ends it. -/
theorem endsText_of_next (h : next config cs = .ok (lexeme, rest)) (hcs : cs ≠ [])
    (htext : lexeme.IsText) : EndsText rest := by
  have hopening : opening cs = .text := by
    rw [opening_eq_text_iff, ← Bool.not_eq_true, isMarkup_iff_of_next h]
    exact not_not.2 htext
  rw [next, hopening] at h
  cases h
  obtain ⟨c, run, before, hrun, hends, -⟩ := exists_of_textRun hcs hopening
  rwa [hrun]

/-- **What is left open runs to the end of the text.** -/
theorem ended_of_next (h : next config cs = .ok (lexeme, rest)) (hrest : rest ≠ []) :
    lexeme.Ended := by
  cases begins_of_next h with
  | @mark kind skip terminator opens =>
    have hending := ending?_of_opening opens
    rw [Ended, Mark.isEnded, hending, Option.all_some]
    cases hcut : Text.cut terminator (cs.drop skip) with
    | none => exact absurd (by rw [throughTerminator, hcut]) hrest
    | some parts =>
      have hne := List.ne_nil_of_mem (bracket_mem_ending hending)
      obtain ⟨others, hparts, hlength, hagain⟩ := exists_of_cut hne hcut
      have hend := hagain []
      rw [List.append_nil] at hend
      rw [hparts, List.drop_left' hlength, hend]
      rfl
  | startTag opens read starts =>
    cases lexeme with
    | mark kind raw => exact absurd rfl ((ofStartTag_ne starts).1 kind raw)
    | _ => trivial
  | endTag => trivial
  | text => rfl

/-- **A lexeme that is not left open is the first of any text that begins with it**, once it has its
end tag; only a run of text has to be followed by what ends it. -/
theorem next_closed (h : next config cs = .ok (lexeme, rest)) (hcs : cs ≠ [])
    (hended : lexeme.Ended) {rest' : List Char} (hrest : lexeme.IsText → EndsText rest') :
    next config (lexeme.closed.text ++ rest') = .ok (lexeme.closed, rest') := by
  cases begins_of_next h with
  | @mark kind skip terminator opens =>
    obtain ⟨hbracket, hagain⟩ := throughTerminator_append opens hended
    have hopening : opening ((throughTerminator skip terminator cs).1 ++ rest') =
        .mark kind skip terminator := by
      rw [opening_append hbracket,
        ← opening_append hbracket (throughTerminator skip terminator cs).2,
        append_throughTerminator, opens]
    change next config ((throughTerminator skip terminator cs).1 ++ rest') = _
    rw [next, hopening]
    simp only [hagain]
    rfl
  | startTag opens read starts =>
    obtain ⟨inner, htext, hstart⟩ := exists_of_ofStartTag starts
    obtain ⟨hopening, hread⟩ := readTag?_append (List.length_pos_iff.2 hcs) read (inner ++ rest')
    rw [htext, List.append_assoc, next, hopening, opens]
    simp only [hread]
    exact hstart rest'
  | @endTag tag opens read =>
    have hlength : 2 ≤ cs.length := by
      obtain ⟨inner, rfl⟩ := exists_cons_of_opening opens
      simp
    obtain ⟨hopening, hread⟩ := readTag?_append hlength read rest'
    change next config (tag.raw ++ rest') = _
    rw [next, hopening, opens]
    simp only [hread]
    rfl
  | text opens => exact next_text_append hcs opens (hrest ⟨_, rfl⟩)

end Lexeme

end Markup.Html
