import Markup.Proofs.Html.Lexeme
import Markup.Proofs.Html.Written

/-!
# Proofs/Html/Page — the lexemes of a page that is written out

A `Page` is a forest of texts, comments and elements without ranges; `Page.render` writes it out.
If nothing in it would be taken for something else (`Page.WellFormed`), its text **falls apart into
the lexemes it was written as** (`Page.lexemes_render`): a text ends where markup begins, a comment
at the first end of one, and a tag with its own bracket.
-/

namespace Markup.Html

/-- **A forest of HTML**, as its first tree and what stands beside it. -/
inductive Page where
  | blank
  | text (raw : List Char) (rest : Page)
  | comment (body : List Char) (rest : Page)
  /-- An element that is a start tag and nothing else. -/
  | void (name : List Char) (attributes : List Pair) (rest : Page)
  | element (name : List Char) (attributes : List Pair) (children rest : Page)

/-- The names of the elements whose content is no markup. -/
def opaqueNames : List String := ["script", "style", "textarea", "title"]

namespace Page

/-- **A page as it is written.** -/
def render : Page → List Char
  | blank => []
  | text raw rest => raw ++ rest.render
  | comment body rest => writeComment body ++ rest.render
  | void name attributes rest => startTag name attributes ++ rest.render
  | element name attributes children rest =>
    startTag name attributes ++ children.render ++ endTag name ++ rest.render

/-- The names of the elements at the top of a page. -/
def topNames : Page → List String
  | blank => []
  | text _ rest | comment _ rest => rest.topNames
  | void name _ rest | element name _ _ rest => String.ofList name :: rest.topNames

/-- The page begins with a text. -/
def BeginsWithText : Page → Prop
  | text .. => True
  | _ => False

/-- **Nothing in a page is taken for something else**: no text holds or meets another, no comment
ends early, and no element is closed by the start tag of one of its children. -/
def WellFormed : Page → Prop
  | blank => True
  | text raw rest => raw ≠ [] ∧ '<' ∉ raw ∧ ¬rest.BeginsWithText ∧ rest.WellFormed
  | comment body rest => ¬Text.commentEnd <:+: body ∧ rest.WellFormed
  | void name attributes rest =>
    (IsTagName name ∧ (TagRule.ofName (String.ofList name)).isVoid = true) ∧
      (∀ a ∈ attributes, IsPair a) ∧ rest.WellFormed
  | element name attributes children rest =>
    (IsTagName name ∧ HoldsMarkup opaqueNames (String.ofList name)) ∧ (∀ a ∈ attributes, IsPair a) ∧
      (∀ child ∈ children.topNames,
        (TagRule.ofName (String.ofList name)).isClosedBy child = false) ∧
      children.WellFormed ∧ rest.WellFormed

instance (page : Page) : Decidable page.BeginsWithText :=
  match page with
  | text .. => isTrue trivial
  | blank | comment .. | void .. | element .. => isFalse not_false

instance decidableWellFormed : (page : Page) → Decidable page.WellFormed
  | blank => isTrue trivial
  | text raw rest =>
    have := decidableWellFormed rest
    inferInstanceAs (Decidable (raw ≠ [] ∧ '<' ∉ raw ∧ ¬rest.BeginsWithText ∧ rest.WellFormed))
  | comment body rest =>
    have := decidableWellFormed rest
    inferInstanceAs (Decidable (¬Text.commentEnd <:+: body ∧ rest.WellFormed))
  | void name attributes rest =>
    have := decidableWellFormed rest
    inferInstanceAs (Decidable
      ((IsTagName name ∧ (TagRule.ofName (String.ofList name)).isVoid = true) ∧
        (∀ a ∈ attributes, IsPair a) ∧ rest.WellFormed))
  | element name attributes children rest =>
    have := decidableWellFormed children
    have := decidableWellFormed rest
    inferInstanceAs (Decidable ((IsTagName name ∧ HoldsMarkup opaqueNames (String.ofList name)) ∧
      (∀ a ∈ attributes, IsPair a) ∧
        (∀ child ∈ children.topNames,
          (TagRule.ofName (String.ofList name)).isClosedBy child = false) ∧
        children.WellFormed ∧ rest.WellFormed))

/-- The lexemes that a page is written as. -/
def lexemes : Page → List Lexeme
  | blank => []
  | text raw rest => .mark .text raw :: rest.lexemes
  | comment body rest => .mark .comment (writeComment body) :: rest.lexemes
  | void name attributes rest =>
    .closedTag (String.ofList name) (startTag name attributes) :: rest.lexemes
  | element name attributes children rest =>
    .openTag (String.ofList name) (startTag name attributes) ::
      (children.lexemes ++ .endTag (String.ofList name) (endTag name) :: rest.lexemes)

end Page

/-! ## Elements that hold markup -/

/-- Only opaque names have a rule that keeps markup out. -/
theorem lowerName_mem_of_isRawText {name : String} (h : (TagRule.ofName name).isRawText = true) :
    lowerName name ∈ opaqueNames := by
  have hrules : ∀ p ∈ TagRule.rules, p.2.isRawText = true → p.1 ∈ opaqueNames := by decide +kernel
  rw [TagRule.ofName] at h
  cases hrule : TagRule.rules.lookup (lowerName name) with
  | none =>
    rw [hrule] at h
    exact absurd h (by decide)
  | some rule =>
    obtain ⟨before, after, heq, -⟩ := List.lookup_eq_some_iff.1 hrule
    rw [hrule] at h
    exact hrules (lowerName name, rule) (by simp [heq]) h

theorem HoldsMarkup.isRawText_eq_false {name : String} (h : HoldsMarkup opaqueNames name) :
    (TagRule.ofName name).isRawText = false :=
  Bool.eq_false_iff.2 fun hraw => h.not_opaque (lowerName_mem_of_isRawText hraw)

/-- **The content of an element that holds markup is read as markup.** -/
theorem HoldsMarkup.rawTextEnd?_eq_none {name : String} (h : HoldsMarkup opaqueNames name) :
    rawTextEnd? config name = none := by
  have hconfig : config.rawTextEnd? name = none := by
    have hkinds : ∀ tag ∈ config.ignored, lowerName tag.kind ∈ opaqueNames := by decide +kernel
    exact rawTextEnd?_eq_none_of_ne fun tag htag heq => h.not_opaque (heq ▸ hkinds tag htag)
  rw [rawTextEnd?, hconfig, h.isRawText_eq_false]
  rfl

/-! ## What begins a text -/

variable {config : Config} {name rest : List Char} {as : List Pair} {c : Char} {cs : List Char}

/-- Only a bracket and an exclamation mark begin a document type declaration. -/
theorem not_doctypeStart (h : c ≠ '<' ∨ ∀ d, cs.head? = some d → d ≠ '!') :
    Text.startsWithIgnoreCase doctypeStart (c :: cs) = false := by
  refine Bool.eq_false_iff.2 fun hstart => ?_
  cases cs with
  | nil => simp [Text.startsWithIgnoreCase, Text.equalIgnoreCase, doctypeStart] at hstart
  | cons d cs =>
    simp only [Text.startsWithIgnoreCase, Text.equalIgnoreCase, doctypeStart, List.length_cons,
      List.take_succ_cons, List.map_cons, beq_iff_eq, List.cons.injEq] at hstart
    rcases h with h | h
    · exact h (Text.eq_of_toLower_eq (by decide) hstart.1.symm)
    · exact h d rfl (Text.eq_of_toLower_eq (by decide) hstart.2.1.symm)

theorem opening_of_ne (h : c ≠ '<') : opening (c :: cs) = .text := by
  have hstarts : ∀ word, (('<' :: word).isPrefixOf (c :: cs)) = false := fun word => by
    rw [List.isPrefixOf_cons_cons, beq_false_of_ne (Ne.symm h), Bool.false_and]
  rw [opening]
  simp only [hstarts, not_doctypeStart (Or.inl h), Bool.false_eq_true, or_self, if_false]
  intro inner heq
  exact h (List.cons.inj heq).1

/-- Behind a bracket a tag begins with what follows it. -/
theorem opening_tag (h : c ≠ '!' ∧ c ≠ '?') : opening ('<' :: c :: cs) = tagOpening (c :: cs) := by
  have hstarts : ∀ d word, c ≠ d → (('<' :: d :: word).isPrefixOf ('<' :: c :: cs)) = false :=
    fun d word hd => by
      rw [List.isPrefixOf_cons_cons, List.isPrefixOf_cons_cons, beq_false_of_ne (Ne.symm hd),
        Bool.false_and, Bool.and_false]
  have hstart : Text.startsWithIgnoreCase doctypeStart ('<' :: c :: cs) = false :=
    not_doctypeStart (Or.inr fun d hd => Option.some.inj hd ▸ h.1)
  rw [opening]
  simp only [hstarts _ _ h.1, hstarts _ _ h.2, hstart, Bool.false_eq_true, or_self, if_false]

theorem tagOpening_letter (h : Text.isLetter c = true) : tagOpening (c :: cs) = .startTag := by
  rw [tagOpening.eq_def]
  split
  · next heq => exact absurd (List.cons.inj heq).1 (ne_of_isLetter h).2.2
  · next heq =>
    obtain ⟨rfl, -⟩ := List.cons.inj heq
    rw [h, if_pos rfl]
  · next heq => exact absurd heq (List.cons_ne_nil _ _)

theorem tagOpening_slash (h : Text.isLetter c = true) : tagOpening ('/' :: c :: cs) = .endTag :=
  if_pos h

theorem isMarkup_of_ne (h : c ≠ '<') : isMarkup (c :: cs) = false := by
  rw [isMarkup.eq_def]
  split
  · next heq => exact absurd (List.cons.inj heq).1 h
  · rfl

/-- **A run of text is cut off** before the first markup, or at the end. -/
theorem textRun_append {run : List Char}
    (hno : ∀ front back, run = front ++ back → back ≠ [] → isMarkup (back ++ rest) = false)
    (hrest : rest = [] ∨ isMarkup rest = true) :
    textRun (c :: (run ++ rest)) = (c :: run, rest) := by
  rcases hrest with rfl | hmarkup
  · have hnone : Text.cutWhere isMarkup (run ++ []) = none := by
      refine Text.cutWhere_eq_none fun front back heq => ?_
      rw [List.append_nil] at heq
      cases back with
      | nil => rfl
      | cons d back => simpa using hno front (d :: back) heq (List.cons_ne_nil d back)
    rw [textRun, hnone, List.append_nil]
  · rw [textRun, Text.cutWhere_append hno hmarkup]

/-! ## Written lexemes -/

namespace Lexeme

/-- **A written start tag is read**, and then what belongs to it. -/
theorem next_startTag (hname : IsTagName name) (has : ∀ a ∈ as, IsPair a) (rest : List Char) :
    next config (startTag name as ++ rest) = ofStartTag config ⟨name, startTag name as, rest⟩ := by
  have hopening : opening (startTag name as ++ rest) = .startTag := by
    obtain ⟨c, word, rfl, hletter⟩ := hname.exists_cons
    obtain ⟨hmark, hquestion, -⟩ := ne_of_isLetter hletter
    exact (opening_tag ⟨hmark, hquestion⟩).trans (tagOpening_letter hletter)
  have hread := readTag?_write ['<'] hname.word has rest
  rw [← List.append_assoc name] at hread
  have htake : (startTag name as ++ rest).take 1 = ['<'] := rfl
  have hdrop : (startTag name as ++ rest).drop 1 = name ++ writeTail as ++ rest := rfl
  rw [next, hopening]
  simp only [htake, hdrop, hread]
  rfl

/-- **…which is nothing for a void element, and for others what follows it.** -/
theorem next_void (hname : IsTagName name) (has : ∀ a ∈ as, IsPair a)
    (hvoid : (TagRule.ofName (String.ofList name)).isVoid = true) (rest : List Char) :
    next config (startTag name as ++ rest) =
      .ok (.closedTag (String.ofList name) (startTag name as), rest) := by
  rw [next_startTag hname has, ofStartTag, if_pos (Or.inl hvoid)]

theorem next_open (hname : IsTagName name) (has : ∀ a ∈ as, IsPair a)
    (holds : HoldsMarkup opaqueNames (String.ofList name)) (rest : List Char) :
    next Html.config (startTag name as ++ rest) =
      .ok (.openTag (String.ofList name) (startTag name as), rest) := by
  have hopen : ¬((TagRule.ofName (String.ofList name)).isVoid = true ∨
      isSelfClosing (startTag name as) = true) := by
    simp [holds.not_void, isSelfClosing_startTag hname]
  rw [next_startTag hname has, ofStartTag]
  simp only [if_neg hopen, holds.rawTextEnd?_eq_none]

/-- An end tag is read… -/
theorem next_endTag (hname : IsTagName name) (rest : List Char) :
    next config (Html.endTag name ++ rest) =
      .ok (.endTag (String.ofList name) (Html.endTag name), rest) := by
  have hopening : opening (Html.endTag name ++ rest) = .endTag := by
    obtain ⟨c, word, rfl, hletter⟩ := hname.exists_cons
    exact (opening_tag ⟨by decide, by decide⟩).trans (tagOpening_slash hletter)
  have hread := readTag?_write ['<', '/'] hname.word (List.forall_mem_nil IsPair) rest
  rw [← List.append_assoc name] at hread
  have htake : (Html.endTag name ++ rest).take 2 = ['<', '/'] := rfl
  have hdrop : (Html.endTag name ++ rest).drop 2 = name ++ writeTail [] ++ rest := rfl
  rw [next, hopening]
  simp only [htake, hdrop, hread]
  rfl

/-- …and so is a comment… -/
theorem next_comment {body : List Char} (h : ¬Text.commentEnd <:+: body) (rest : List Char) :
    next config (writeComment body ++ rest) = .ok (.mark .comment (writeComment body), rest) := by
  have hopening : opening (writeComment body ++ rest) = .mark .comment 4 Text.commentEnd := by
    unfold opening
    exact if_pos (by simp [writeComment])
  have hthrough : throughTerminator 4 Text.commentEnd (writeComment body ++ rest) =
      (writeComment body, rest) := by
    have hdrop : (writeComment body ++ rest).drop 4 = body ++ (Text.commentEnd ++ rest) := by
      simp [writeComment]
    have htake : (writeComment body ++ rest).take 4 = ['<', '!', '-', '-'] := rfl
    simp only [throughTerminator, hdrop, Text.cut_commentEnd h, htake, List.take_left,
      List.drop_left]
    rfl
  rw [next, hopening]
  simp only [hthrough]

/-- …and **a text up to where markup begins**, or to the end. -/
theorem next_text {raw : List Char} (hne : raw ≠ []) (hraw : '<' ∉ raw)
    (hrest : rest = [] ∨ isMarkup rest = true) :
    next config (raw ++ rest) = .ok (.mark .text raw, rest) := by
  obtain ⟨c, cs, rfl⟩ := List.exists_cons_of_ne_nil hne
  rw [List.mem_cons, not_or] at hraw
  have hopening : opening (c :: cs ++ rest) = .text := opening_of_ne (Ne.symm hraw.1)
  have hno : ∀ front back, cs = front ++ back → back ≠ [] → isMarkup (back ++ rest) = false := by
    intro front back heq hback
    obtain ⟨d, others, rfl⟩ := List.exists_cons_of_ne_nil hback
    exact isMarkup_of_ne fun hd => hraw.2 (by simp [heq, hd])
  have hrun : textRun (c :: (cs ++ rest)) = (c :: cs, rest) := textRun_append hno hrest
  rw [next, hopening]
  simp only [List.cons_append, hrun]

end Lexeme

/-! ## Whole pages -/

theorem isMarkup_endTag (hname : IsTagName name) (rest : List Char) :
    isMarkup (endTag name ++ rest) = true := by
  obtain ⟨c, word, rfl, hletter⟩ := hname.exists_cons
  simp [isMarkup, endTag, tagOpening_slash hletter]

theorem isMarkup_startTag (hname : IsTagName name) (rest : List Char) :
    isMarkup (startTag name as ++ rest) = true := by
  obtain ⟨c, word, rfl, hletter⟩ := hname.exists_cons
  simp [isMarkup, startTag, tagOpening_letter hletter]

namespace Page

variable {page : Page} {ls : List Lexeme}

/-- A page that does not begin with a text begins with markup. -/
theorem isMarkup_render (h : page.WellFormed) (htext : ¬page.BeginsWithText)
    (hrest : rest = [] ∨ isMarkup rest = true) :
    page.render ++ rest = [] ∨ isMarkup (page.render ++ rest) = true := by
  cases page with
  | blank => exact hrest
  | text => exact absurd trivial htext
  | comment body others => exact Or.inr rfl
  | void name attributes others =>
    rw [render, List.append_assoc]
    exact Or.inr (isMarkup_startTag h.1.1 _)
  | element name attributes children others =>
    rw [render, List.append_assoc, List.append_assoc, List.append_assoc]
    exact Or.inr (isMarkup_startTag h.1.1 _)

/-- **A page that is written out falls apart into its lexemes**, before those of what follows. -/
theorem lexemes_render (h : page.WellFormed) (hrest : rest = [] ∨ isMarkup rest = true)
    (hls : Html.lexemes Html.config rest = .ok ls) :
    Html.lexemes Html.config (page.render ++ rest) = .ok (page.lexemes ++ ls) := by
  induction page generalizing rest ls with
  | blank => exact hls
  | text raw others ih =>
    obtain ⟨hne, hraw, htext, hothers⟩ := h
    rw [render, List.append_assoc]
    exact lexemes_of_next (Lexeme.next_text hne hraw (isMarkup_render hothers htext hrest))
      (List.append_ne_nil_of_left_ne_nil hne _) (ih hothers hrest hls)
  | comment body others ih =>
    obtain ⟨hbody, hothers⟩ := h
    rw [render, List.append_assoc]
    exact lexemes_of_next (Lexeme.next_comment hbody _) (List.cons_ne_nil _ _)
      (ih hothers hrest hls)
  | void name attributes others ih =>
    obtain ⟨⟨hname, hvoid⟩, has, hothers⟩ := h
    rw [render, List.append_assoc]
    exact lexemes_of_next (Lexeme.next_void hname has hvoid _) (List.cons_ne_nil _ _)
      (ih hothers hrest hls)
  | element name attributes children others ihChildren ih =>
    obtain ⟨⟨hname, holds⟩, has, -, hchildren, hothers⟩ := h
    have hend := lexemes_of_next (Lexeme.next_endTag hname _) (List.cons_ne_nil _ _)
      (ih hothers hrest hls)
    have hinside := ihChildren hchildren (Or.inr (isMarkup_endTag hname _)) hend
    rw [render, List.append_assoc, List.append_assoc, List.append_assoc, lexemes, List.cons_append,
      List.append_assoc]
    exact lexemes_of_next (Lexeme.next_open hname has holds _) (List.cons_ne_nil _ _) hinside

end Page

end Markup.Html
