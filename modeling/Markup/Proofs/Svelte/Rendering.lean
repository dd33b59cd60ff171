import Markup.Proofs.Svelte.Written
import Markup.Svelte.Template

/-!
# Proofs/Svelte/Rendering — templates that are written out, lexeme by lexeme

A `Template` is a forest of texts, comments, tags in braces, elements and blocks without ranges;
`Template.render` writes it out and `Template.trees` are its trees, each part where it is written.
**Whatever follows, the first lexeme of what is written is the one that was meant**
(`Lexeme.next_text` and those after it), if nothing in the template would be taken for something
else (`Template.WellFormed`).
-/

namespace Markup.Svelte

open Expression (WellNested)
open Html (HoldsMarkup IsTagName writeComment)

/-! ## Templates -/

mutual

/-- **A forest of a template**, as its first tree and what stands beside it. -/
inductive Template where
  | blank
  | text (raw : List Char) (rest : Template)
  | comment (body : List Char) (rest : Template)
  | mustache (code : List Char) (rest : Template)
  | special (tag : SpecialTag) (code : List Char) (rest : Template)
  | element (name : List Char) (attributes : List Written) (children rest : Template)
  | block (head : Head) (body : Template) (clauses : Clauses) (rest : Template)

/-- **The clauses of a block**, in their order. -/
inductive Clauses where
  | done
  | clause (tag : Continuation) (body : Template) (more : Clauses)

end

/-- A special tag as it is written. -/
def writeSpecial (tag : SpecialTag) (code : List Char) : List Char :=
  writeBraces (wordTag '@' tag.word.toList code)

/-- The names of the elements whose content is no markup. -/
def opaqueNames : List String := ["script", "style"]

/-- **An expression that shows itself**: its tag is neither a clause nor a closing tag, nor does it
open a block or say something special. -/
structure IsShown (code : List Char) : Prop where
  wellNested : WellNested .code code
  first : code.head? ≠ some ':' ∧ code.head? ≠ some '/'
  sign : (Text.trim code).head? ≠ some '#' ∧ (Text.trim code).head? ≠ some '@'

mutual

/-- **A template as it is written.** -/
def Template.render : Template → List Char
  | .blank => []
  | .text raw rest => raw ++ rest.render
  | .comment body rest => writeComment body ++ rest.render
  | .mustache code rest => writeBraces code ++ rest.render
  | .special tag code rest => writeSpecial tag code ++ rest.render
  | .element name attributes children rest =>
    writeStartTag name attributes ++ children.render ++ Html.endTag name ++ rest.render
  | .block head body clauses rest =>
    head.write ++ body.render ++ clauses.render ++ writeCloser head.kind ++ rest.render

/-- Clauses as they are written. -/
def Clauses.render : Clauses → List Char
  | .done => []
  | .clause tag body more => tag.write ++ body.render ++ more.render

end

/-- The template begins with a text. -/
def Template.BeginsWithText : Template → Prop
  | .text .. => True
  | _ => False

mutual

/-- **Nothing in a template is taken for something else**: no text holds or meets another, no
comment ends early, all expressions are well nested, and blocks have the clauses that they may have.
Of headers more may be asked. -/
def Template.WellFormed (p : Head → Prop) : Template → Prop
  | .blank => True
  | .text raw rest =>
    raw ≠ [] ∧ ('{' ∉ raw ∧ '<' ∉ raw) ∧ ¬rest.BeginsWithText ∧ rest.WellFormed p
  | .comment body rest => ¬Text.commentEnd <:+: body ∧ rest.WellFormed p
  | .mustache code rest => IsShown code ∧ rest.WellFormed p
  | .special _ code rest => WellNested .code code ∧ rest.WellFormed p
  | .element name attributes children rest =>
    (IsTagName name ∧ HoldsMarkup opaqueNames (String.ofList name)) ∧
      (∀ a ∈ attributes, IsWritten a) ∧ children.WellFormed p ∧ rest.WellFormed p
  | .block head body clauses rest =>
    (head.WellNested ∧ p head) ∧ body.WellFormed p ∧ clauses.WellFormed p head.kind [] ∧
      rest.WellFormed p

/-- …which clauses are, behind those of the names before them. -/
def Clauses.WellFormed (p : Head → Prop) (kind : Block) (names : List String) : Clauses → Prop
  | .done => True
  | .clause tag body more =>
    (tag.WellNested ∧ kind.GoesOnWith names tag) ∧ body.WellFormed p ∧
      more.WellFormed p kind (tag.name :: names)

end

mutual

/-- What is asked of headers may be less. -/
theorem Template.WellFormed.mono {p q : Head → Prop} (hpq : ∀ head, p head → q head) :
    ∀ t : Template, t.WellFormed p → t.WellFormed q
  | .blank, _ => trivial
  | .text _ rest, ⟨hne, hraw, htext, hrest⟩ =>
    ⟨hne, hraw, htext, Template.WellFormed.mono hpq rest hrest⟩
  | .comment _ rest, ⟨hbody, hrest⟩ => ⟨hbody, Template.WellFormed.mono hpq rest hrest⟩
  | .mustache _ rest, ⟨hcode, hrest⟩ => ⟨hcode, Template.WellFormed.mono hpq rest hrest⟩
  | .special _ _ rest, ⟨hcode, hrest⟩ => ⟨hcode, Template.WellFormed.mono hpq rest hrest⟩
  | .element _ _ children rest, ⟨hname, has, hchildren, hrest⟩ =>
    ⟨hname, has, Template.WellFormed.mono hpq children hchildren,
      Template.WellFormed.mono hpq rest hrest⟩
  | .block head body clauses rest, ⟨hhead, hbody, hclauses, hrest⟩ =>
    ⟨⟨hhead.1, hpq head hhead.2⟩, Template.WellFormed.mono hpq body hbody,
      Clauses.WellFormed.mono hpq clauses hclauses, Template.WellFormed.mono hpq rest hrest⟩

theorem Clauses.WellFormed.mono {p q : Head → Prop} (hpq : ∀ head, p head → q head) {kind : Block}
    {names : List String} : ∀ clauses : Clauses, clauses.WellFormed p kind names →
      clauses.WellFormed q kind names
  | .done, _ => trivial
  | .clause _ body more, ⟨htag, hbody, hmore⟩ =>
    ⟨htag, Template.WellFormed.mono hpq body hbody, Clauses.WellFormed.mono hpq more hmore⟩

end

mutual

/-- **The trees of a template**, each part where it is written, from an offset on. -/
def Template.trees (offset : Nat) : Template → List Tree
  | .blank => []
  | .text raw rest =>
    let stop := offset + Text.byteSize raw
    .text ⟨offset, stop⟩ :: rest.trees stop
  | .comment body rest =>
    let stop := offset + Text.byteSize (writeComment body)
    .comment ⟨offset, stop⟩ :: rest.trees stop
  | .mustache code rest =>
    let stop := offset + Text.byteSize (writeBraces code)
    .mustache ⟨offset, stop⟩ :: rest.trees stop
  | .special tag code rest =>
    let stop := offset + Text.byteSize (writeSpecial tag code)
    .special tag ⟨⟨offset, stop⟩, stop, []⟩ :: rest.trees stop
  | .element name attributes children rest =>
    let inside := offset + Text.byteSize (writeStartTag name attributes)
    let content := inside + Text.byteSize children.render
    let stop := content + Text.byteSize (Html.endTag name)
    .element (String.ofList name) ⟨offset, stop⟩ inside (some ⟨content, stop⟩)
      (children.trees inside) :: rest.trees stop
  | .block head body clauses rest =>
    let inside := offset + Text.byteSize head.write
    let content := inside + Text.byteSize body.render
    let closing := content + Text.byteSize clauses.render
    let stop := closing + Text.byteSize (writeCloser head.kind)
    .block head.kind ⟨⟨offset, stop⟩, inside, body.trees inside⟩
      (clauses.sections closing content) :: rest.trees stop

/-- The sections that clauses open, from an offset on; a further alternative reaches to the closing
tag of the block. -/
def Clauses.sections (closing offset : Nat) : Clauses → List (String × Section Tree)
  | .done => []
  | .clause tag body more =>
    let inside := offset + Text.byteSize tag.write
    let stop := inside + Text.byteSize body.render
    (tag.name, ⟨⟨offset, if tag.name = "elseif" then closing else stop⟩, inside,
      body.trees inside⟩) :: more.sections closing stop

end

/-! ## What a text begins with -/

variable {context : Context} {offset : Nat} {name raw code rest cs : List Char} {c : Char}

theorem opening_of_ne (h : c ≠ '{' ∧ c ≠ '<') : opening (c :: cs) = .text := by
  rw [opening.eq_def]
  split <;> simp_all

theorem opening_letter (h : Text.isLetter c = true) : opening ('<' :: c :: cs) = .startTag := by
  obtain ⟨hmark, -, hslash⟩ := Html.ne_of_isLetter h
  rw [opening.eq_def]
  split <;> simp_all

/-- What is in braces is a node, unless its sign makes it a boundary. -/
theorem opening_writeBraces (h : code.head? ≠ some ':' ∧ code.head? ≠ some '/') (rest : List Char) :
    opening (writeBraces code ++ rest) = .brace := by
  cases code with
  | nil => rfl
  | cons d code =>
    rw [List.head?_cons, Ne, Option.some_inj, Ne, Option.some_inj] at h
    change opening ('{' :: d :: (code ++ ['}'] ++ rest)) = .brace
    rw [opening.eq_def]
    split <;> simp_all

/-- What follows a text and does not belong to it. -/
def EndsText (rest : List Char) : Prop := rest = [] ∨ opening rest ≠ .text

/-- **What a start tag begins**, told by its name and by what is behind it. -/
theorem startTag_of_tail {config : Config} {word : List Char} {t : TagTail}
    (hname : leadingName (cs.drop 1) = word) (htail : tagTail (afterName (cs.drop 1)) = .ok t) :
    startTag config offset cs =
      if t.selfClosing = true ∨ isVoidName (String.ofList word) = true then
        .ok (.closedTag (String.ofList word) (cs.take 1 ++ word ++ t.raw), t.rest)
      else match config.rawTextEnd? (String.ofList word) with
      | none => .ok (.openTag (String.ofList word) (cs.take 1 ++ word ++ t.raw), t.rest)
      | some closing => do
        let ((content, endTag), rest) ← rawContent config (String.ofList word) closing
          ⟨offset, offset + Text.byteSize (cs.take 1 ++ word ++ t.raw)⟩ t.rest
        return (.rawElement (String.ofList word) (cs.take 1 ++ word ++ t.raw) content endTag,
          rest) := by
  subst hname
  unfold startTag
  generalize tagTail (afterName (cs.drop 1)) = read at htail ⊢
  subst htail
  rfl

/-- An element whose name is not opaque in any case may hold markup. -/
theorem rawTextEnd?_eq_none {name : String} (h : Html.lowerName name ∉ opaqueNames) :
    config.rawTextEnd? name = none := by
  have hkinds : ∀ tag ∈ config.ignored, Html.lowerName tag.kind ∈ opaqueNames := by decide +kernel
  exact Html.rawTextEnd?_eq_none_of_ne fun tag htag heq => h (heq ▸ hkinds tag htag)

/-- **An opaque name in any case of its letters** has the end of the name itself. -/
theorem rawTextEnd?_of_lowerName {word : String} (hword : word ∈ opaqueNames)
    (h : name.map Char.toLower = word.toList) :
    config.rawTextEnd? (String.ofList name) = some ("</" ++ word) := by
  have hsame : ∀ kind : List Char, Text.equalIgnoreCase kind (String.ofList name).toList =
      (kind.map Char.toLower == word.toList) := fun kind => by
    rw [Text.equalIgnoreCase, String.toList_ofList, h]
  have hopens : ∀ opening : List Char,
      Text.equalIgnoreCase opening ('<' :: (String.ofList name).toList) =
        (opening.map Char.toLower == '<' :: word.toList) := fun opening => by
    rw [Text.equalIgnoreCase, List.map_cons, String.toList_ofList, h]
    rfl
  have hfind : ∀ word ∈ opaqueNames, (config.ignored.find? fun tag =>
      tag.kind.toList.map Char.toLower == word.toList &&
        (tag.opening.toList.map Char.toLower == '<' :: word.toList)) = some (.element word) := by
    decide +kernel
  rw [Config.rawTextEnd?]
  simp only [IgnoredTag.isElement, hsame, hopens, hfind word hword]
  rfl

/-- So what ends opaque content is told by the name in small letters… -/
theorem rawTextEnd?_eq_some {name closing : String} (h : config.rawTextEnd? name = some closing) :
    Html.lowerName name ∈ opaqueNames ∧ closing = "</" ++ Html.lowerName name := by
  by_cases hlisted : Html.lowerName name ∈ opaqueNames
  · have hend := rawTextEnd?_of_lowerName hlisted String.toList_ofList.symm
    rw [String.ofList_toList, h] at hend
    exact ⟨hlisted, Option.some.inj hend⟩
  · rw [rawTextEnd?_eq_none hlisted] at h
    cases h

/-- …and where nothing ends it, the name is not opaque. -/
theorem not_opaque_of_rawTextEnd? {name : String} (h : config.rawTextEnd? name = none) :
    Html.lowerName name ∉ opaqueNames := by
  intro hlisted
  have hend := rawTextEnd?_of_lowerName hlisted String.toList_ofList.symm
  rw [String.ofList_toList, h] at hend
  cases hend

theorem isVoidName_of_holdsMarkup {name : String} (h : HoldsMarkup opaqueNames name) :
    isVoidName name = false := by
  simp [isVoidName, h.not_void]

/-- **A written end tag** is that of its element. -/
theorem endTag_written {span : Span} (hname : IsTagName name) (rest : List Char) :
    endTag config (String.ofList name) span offset (Html.endTag name ++ rest) =
      .ok (Html.endTag name, rest) := by
  have hwritten : Html.endTag name ++ rest = '<' :: '/' :: (name ++ '>' :: rest) := by
    simp [Html.endTag]
  have hend : ('>' :: rest).head?.any Text.isNameEnd = true := rfl
  have hleading : leadingName (name ++ '>' :: rest) = name :=
    StartTag.takeWhile_eq_name hname.word hend
  have hafter : afterName (name ++ '>' :: rest) = '>' :: rest :=
    StartTag.behindName_eq hname.word hend
  have hsame : config.namesMatch (String.ofList name) (String.ofList name) = true :=
    beq_self_eq_true _
  have hblank : ¬Text.isBlank '>' = true := by decide
  rw [hwritten]
  simp only [endTag, hleading, hafter, hsame, if_true, List.takeWhile_cons_of_neg hblank,
    List.dropWhile_cons_of_neg hblank, List.append_nil]
  rfl

/-! ## Written lexemes -/

namespace Lexeme

/-- **A text is read up to where something else begins**, or to the end. -/
theorem next_text (hne : raw ≠ []) (hraw : '{' ∉ raw ∧ '<' ∉ raw) (hrest : EndsText rest) :
    next config context offset (raw ++ rest) = .ok (.text raw, rest) := by
  obtain ⟨c, cs, rfl⟩ := List.exists_cons_of_ne_nil hne
  simp only [List.mem_cons, not_or] at hraw
  obtain ⟨⟨hbrace, hbraces⟩, hbracket, hbrackets⟩ := hraw
  have hopening : opening (c :: cs ++ rest) = .text :=
    opening_of_ne ⟨Ne.symm hbrace, Ne.symm hbracket⟩
  have hno : ∀ front back, cs = front ++ back → back ≠ [] →
      (opening (back ++ rest) != .text) = false := by
    intro front back heq hback
    obtain ⟨d, others, rfl⟩ := List.exists_cons_of_ne_nil hback
    have hd : d ≠ '{' ∧ d ≠ '<' := by
      constructor
      · rintro rfl
        exact hbraces (by simp [heq])
      · rintro rfl
        exact hbrackets (by simp [heq])
    rw [List.cons_append, opening_of_ne hd]
    rfl
  have hrun : textRun (c :: (cs ++ rest)) = (c :: cs, rest) := by
    rcases hrest with rfl | hother
    · have hnone : Text.cutWhere (fun cs => opening cs != .text) (cs ++ []) = none := by
        refine Text.cutWhere_eq_none fun front back heq => ?_
        rw [List.append_nil] at heq
        cases back with
        | nil => rfl
        | cons d back => simpa using hno front (d :: back) heq (List.cons_ne_nil d back)
      rw [textRun, hnone, List.append_nil]
    · rw [textRun, Text.cutWhere_append hno (by simpa using hother)]
  rw [next, hopening]
  simp only [List.cons_append, hrun]

/-- A comment is read… -/
theorem next_comment {body : List Char} (h : ¬Text.commentEnd <:+: body) (rest : List Char) :
    next config context offset (writeComment body ++ rest) =
      .ok (.comment (writeComment body), rest) := by
  have hopening : opening (writeComment body ++ rest) = .comment := rfl
  have hdrop : (writeComment body ++ rest).drop 4 = body ++ (Text.commentEnd ++ rest) := by
    simp [writeComment]
  have htake : (writeComment body ++ rest).take 4 = ['<', '!', '-', '-'] := rfl
  have hcomment : Svelte.comment offset (writeComment body ++ rest) =
      .ok (writeComment body, rest) := by
    have hcut : Text.cut ['-', '-', '>'] (body ++ (Text.commentEnd ++ rest)) =
        some (body, Text.commentEnd ++ rest) := Text.cut_commentEnd h
    rw [Svelte.comment, hdrop, hcut, htake]
    rfl
  rw [next, hopening]
  simp only [hcomment]
  rfl

/-- …and so is an expression that shows itself… -/
theorem next_mustache (h : IsShown code) (rest : List Char) :
    next config context offset (writeBraces code ++ rest) =
      .ok (.mustache (writeBraces code), rest) := by
  rw [next, opening_writeBraces h.first, Svelte.mustache, readBraceTag_writeBraces h.wellNested]
  simp only [bind, Except.bind]
  split
  · next header hinner => exact absurd (congrArg List.head? hinner) h.sign.1
  · next header hinner => exact absurd (congrArg List.head? hinner) h.sign.2
  · rfl

/-- …a special tag… -/
theorem next_special (tag : SpecialTag) (h : WellNested .code code) (rest : List Char) :
    next config context offset (writeSpecial tag code ++ rest) =
      .ok (.special tag (writeSpecial tag code), rest) := by
  obtain ⟨header, htrim, hword, -⟩ :=
    (isKeyword_special tag).trim_wordTag '@' (by decide) code
  have hopening : opening (writeSpecial tag code ++ rest) = .brace :=
    opening_writeBraces (by simp [wordTag]) rest
  have hnested := (isKeyword_special tag).wellNested_wordTag '@' (by decide) h
  have hspecial : SpecialTag.ofWord? tag.word = some tag := by cases tag <;> decide
  rw [next, hopening, writeSpecial, Svelte.mustache, readBraceTag_writeBraces hnested]
  simp only [bind, Except.bind, htrim, hword, String.ofList_toList, hspecial]

/-- …the header of a block… -/
theorem next_head {head : Head} (h : head.WellNested) (hphase : head.ReadAsWritten)
    (rest : List Char) :
    next config context offset (head.write ++ rest) =
      .ok (.openBlock head.kind head.write, rest) := by
  obtain ⟨header, htrim, hword, hwords⟩ :=
    (isKeyword_block head.kind).trim_wordTag '#' (by decide) head.subject
  have hopening : opening (head.write ++ rest) = .brace :=
    opening_writeBraces (by simp [wordTag]) rest
  have hnested := (isKeyword_block head.kind).wellNested_wordTag '#' (by decide)
    (Head.wellNested_subject h)
  rw [next, hopening, Head.write, Svelte.mustache, readBraceTag_writeBraces hnested]
  simp only [bind, Except.bind, htrim, Head.ofHeader?_eq hphase hword hwords]

/-- …and a start tag is **what its name makes of it**… -/
theorem next_writeStartTag {as : List Written} (hname : IsTagName name)
    (has : ∀ a ∈ as, IsWritten a) (rest : List Char) :
    next config context offset (writeStartTag name as ++ rest) =
      if isVoidName (String.ofList name) = true then
        .ok (.closedTag (String.ofList name) (writeStartTag name as), rest)
      else match config.rawTextEnd? (String.ofList name) with
      | none => .ok (.openTag (String.ofList name) (writeStartTag name as), rest)
      | some closing => do
        let ((content, endTag), rest) ← rawContent config (String.ofList name) closing
          ⟨offset, offset + Text.byteSize (writeStartTag name as)⟩ rest
        return (.rawElement (String.ofList name) (writeStartTag name as) content endTag, rest) := by
  have hopening : opening (writeStartTag name as ++ rest) = .startTag := by
    obtain ⟨c, word, rfl, hletter⟩ := hname.exists_cons
    exact opening_letter hletter
  have hend : (writeTail as ++ rest).head?.any Text.isNameEnd = true := by cases as <;> rfl
  have htake : (writeStartTag name as ++ rest).take 1 = ['<'] := rfl
  have hdrop : (writeStartTag name as ++ rest).drop 1 = name ++ (writeTail as ++ rest) := by
    simp [writeStartTag]
  have hleading : leadingName (name ++ (writeTail as ++ rest)) = name :=
    StartTag.takeWhile_eq_name hname.word hend
  have hafter : afterName (name ++ (writeTail as ++ rest)) = writeTail as ++ rest :=
    StartTag.behindName_eq hname.word hend
  rw [next, hopening]
  rw [startTag_of_tail (by rw [hdrop, hleading]) (by rw [hdrop, hafter, tagTail_writeTail has])]
  simp only [htake, Bool.false_eq_true, false_or]
  rfl

/-- …which opens an element that may hold markup. -/
theorem next_startTag {as : List Written} (hname : IsTagName name)
    (hopen : isVoidName (String.ofList name) = false)
    (hmarkup : config.rawTextEnd? (String.ofList name) = none) (has : ∀ a ∈ as, IsWritten a)
    (rest : List Char) :
    next config context offset (writeStartTag name as ++ rest) =
      .ok (.openTag (String.ofList name) (writeStartTag name as), rest) := by
  rw [next_writeStartTag hname has, if_neg (Bool.eq_false_iff.1 hopen), hmarkup]

/-- **The end tag of an element closes it…** -/
theorem next_endTag {span : Span} (hname : IsTagName name) (rest : List Char) :
    next config (.element (String.ofList name) span) offset (Html.endTag name ++ rest) =
      .ok (.closer (Html.endTag name), rest) := by
  have hopening : opening (Html.endTag name ++ rest) = .boundary := rfl
  rw [next, hopening]
  simp only [boundary, endTag_written hname, bind, Except.bind, pure, Except.pure]

variable {kind : Block} {start : Nat} {names : List String}

/-- …as does the closing tag of a block… -/
theorem next_closer (rest : List Char) :
    next config (.block kind start names) offset (writeCloser kind ++ rest) =
      .ok (.closer (writeCloser kind), rest) := by
  have hword := isKeyword_block kind
  have hnested : WellNested .code ('/' :: kind.word.toList) :=
    .plain (by decide) (.of_plain fun c hc => isPlain_of_isAlphanum (hword.alphanum c hc))
  have htrim : Text.trim ((Text.trim ('/' :: kind.word.toList)).drop 1) = kind.word.toList := by
    have hwords : ∀ word ∈ ["if", "each", "await", "key", "snippet"],
        Text.trim ((Text.trim ('/' :: word.toList)).drop 1) = word.toList := by decide
    exact hwords kind.word (by cases kind <;> simp [Block.word])
  have hopening : opening (writeCloser kind ++ rest) = .boundary := rfl
  have hcloser : blockTag kind start names offset (writeCloser kind ++ rest) =
      (readBraceTag offset (writeCloser kind ++ rest)).bind fun tag =>
        if Text.trim (tag.inner.drop 1) = kind.word.toList then .ok (.closer tag.raw, tag.rest)
        else .error ((Fault.noBlockEnd kind.word).reject offset
          (offset + Text.byteSize tag.raw)) := rfl
  rw [next, hopening]
  simp only [boundary, hcloser]
  rw [writeCloser, readBraceTag_writeBraces hnested]
  exact if_pos htrim

/-- …which **goes on with the clauses that it may have**. -/
theorem next_clause {tag : Continuation} (h : tag.WellNested) (hgoes : kind.GoesOnWith names tag)
    (rest : List Char) :
    next config (.block kind start names) offset (tag.write ++ rest) =
      .ok (.clause tag.name tag.write, rest) := by
  obtain ⟨hadmits, hnamed⟩ := Block.clauseName_eq hgoes
  obtain ⟨cs, hwrite⟩ := tag.exists_write
  have hread : readBraceTag offset (tag.write ++ rest) =
      .ok ⟨Text.trim tag.inner, tag.write, rest⟩ :=
    readBraceTag_writeBraces (Continuation.wellNested_inner h) offset rest
  rw [hwrite, List.cons_append, List.cons_append] at hread ⊢
  have hopening : opening ('{' :: ':' :: (cs ++ rest)) = .boundary := rfl
  rw [next, hopening]
  simp only [boundary, blockTag, if_pos hadmits, hread, bind, Except.bind, hnamed]

end Lexeme

end Markup.Svelte
