import Markup.Config
import Markup.Html.Tag
import Markup.Text.Bytes

/-!
# Html/Lexeme — HTML text as a row of tags, marks and runs of text

A `Lexeme` carries the text it was read from.  `Lexeme.next` reads the first of a text: every text
begins with one, **unless a tag is left open to the end**.  `next_eq_ok` says what it may be, and
`append_of_next` that nothing is lost (a lexeme's text and the rest are the text that was read) and
something is read, so `lexemes` comes to an end and its texts in a row are the source.

An element whose content is opaque is one lexeme with its content and its end tag, because only
its name tells where they end.
-/

namespace Markup.Html

/-- Pieces that are neither elements nor tags. -/
inductive Mark where
  | doctype
  /-- A declaration or instruction that is taken for a comment. -/
  | bogus
  | comment
  | text
  | cdata
  | frontMatter
deriving DecidableEq, Repr

/-- **A piece of HTML**, with its text. -/
inductive Lexeme where
  | mark (kind : Mark) (raw : List Char)
  /-- A start tag that nothing belongs to: that of a void element, or one that closes itself. -/
  | closedTag (name : String) (raw : List Char)
  | openTag (name : String) (raw : List Char)
  /-- An element with opaque content; without an end tag it runs to the end of the text. -/
  | rawElement (name : String) (startTag content : List Char) (endTag : Option (List Char))
  | endTag (name : String) (raw : List Char)
deriving DecidableEq, Repr

/-- The text that a lexeme was read from. -/
def Lexeme.text : Lexeme → List Char
  | .mark _ raw | .closedTag _ raw | .openTag _ raw | .endTag _ raw => raw
  | .rawElement _ startTag content closing => startTag ++ content ++ closing.getD []

/-! ## The end of a tag -/

/-- Where a character of a tag stands. -/
inductive TagState where
  | plain
  /-- After an equals sign and blanks: a quote opens a value. -/
  | afterEqual
  | quoted (quote : Char)
deriving DecidableEq, Repr

namespace TagState

/-- The state after a character that does not end the tag. -/
def step (c : Char) : TagState → TagState
  | .quoted q => if c = q then .plain else .quoted q
  | .afterEqual =>
    if c = '"' ∨ c = '\'' then .quoted c
    else if c = '=' ∨ Text.isBlank c then .afterEqual else .plain
  | .plain => if c = '=' then .afterEqual else .plain

/-- A closing bracket ends the tag here. -/
def mayEnd : TagState → Bool
  | .quoted _ => false
  | _ => true

end TagState

/-- The text split behind the bracket that ends the tag; none if the tag is left open. -/
def tagTail? : TagState → List Char → Option (List Char × List Char)
  | _, [] => none
  | st, c :: cs =>
    if c = '>' ∧ st.mayEnd then some ([c], cs)
    else (tagTail? (st.step c) cs).map fun parts => (c :: parts.1, parts.2)

theorem append_of_tagTail? {st : TagState} {cs as bs : List Char}
    (h : tagTail? st cs = some (as, bs)) : as ++ bs = cs ∧ as ≠ [] := by
  induction cs generalizing st as with
  | nil => simp [tagTail?] at h
  | cons c cs ih =>
    simp only [tagTail?] at h
    split at h
    · simp only [Option.some.injEq, Prod.mk.injEq] at h
      obtain ⟨rfl, rfl⟩ := h
      simp
    · obtain ⟨⟨as', bs'⟩, h', h⟩ := Option.map_eq_some_iff.1 h
      simp only [Prod.mk.injEq] at h
      obtain ⟨rfl, rfl⟩ := h
      simp [(ih h').1]

/-- A tag: its name, its text and what follows it. -/
structure ReadTag where
  name : List Char
  raw : List Char
  rest : List Char

/-- The tag that begins with `opening` and goes on with a name; none if it is left open. -/
def readTag? (opening cs : List Char) : Option ReadTag :=
  let name := cs.takeWhile fun c => !Text.isNameEnd c
  (tagTail? .plain (cs.dropWhile fun c => !Text.isNameEnd c)).map fun parts =>
    ⟨name, opening ++ name ++ parts.1, parts.2⟩

theorem append_of_readTag? {opening cs : List Char} {tag : ReadTag}
    (h : readTag? opening cs = some tag) : tag.raw ++ tag.rest = opening ++ cs ∧ tag.raw ≠ [] := by
  obtain ⟨⟨as, bs⟩, h', rfl⟩ := Option.map_eq_some_iff.1 h
  obtain ⟨happ, hne⟩ := append_of_tagTail? h'
  refine ⟨?_, by simp [hne]⟩
  simp [happ]

/-- The tag ends in a slash before its bracket and the blanks there. -/
def isSelfClosing (raw : List Char) : Bool :=
  (Text.trimEnd Text.isBlank raw.dropLast).getLast? == some '/'

/-! ## What a text begins with -/

/-- The markup that begins a text. -/
inductive Opening where
  /-- A mark that runs through a terminator, sought after so many characters. -/
  | mark (kind : Mark) (skip : Nat) (terminator : List Char)
  | startTag
  | endTag
  | text
deriving DecidableEq, Repr

/-- A slash and the letter of a name, or such a letter at once. -/
def tagOpening : List Char → Opening
  | '/' :: c :: _ => if Text.isLetter c then .endTag else .text
  | c :: _ => if Text.isLetter c then .startTag else .text
  | [] => .text

/-- What a document type declaration begins with, in any case. -/
def doctypeStart : List Char := ['<', '!', 'd', 'o', 'c', 't', 'y', 'p', 'e']

/-- **What a text begins with.** -/
def opening (cs : List Char) : Opening :=
  if ['<', '!', '-', '-'].isPrefixOf cs then .mark .comment 4 ['-', '-', '>']
  else if ['<', '!', '[', 'C', 'D', 'A', 'T', 'A', '['].isPrefixOf cs then
    .mark .cdata 9 [']', ']', '>']
  else if Text.startsWithIgnoreCase doctypeStart cs then .mark .doctype 9 ['>']
  else if ['<', '!'].isPrefixOf cs ∨ ['<', '?'].isPrefixOf cs then .mark .bogus 2 ['>']
  else
    match cs with
    | '<' :: inner => tagOpening inner
    | _ => .text

/-- Markup begins here, so a run of text ends. -/
def isMarkup (cs : List Char) : Bool :=
  match cs with
  | '<' :: inner =>
    inner.head? == some '!' || inner.head? == some '?' || tagOpening inner != .text
  | _ => false

/-- A text split behind the first `terminator` that does not begin before `skip`; all of it, if
there is none. -/
def throughTerminator (skip : Nat) (terminator cs : List Char) : List Char × List Char :=
  match Text.cut terminator (cs.drop skip) with
  | none => (cs, [])
  | some (body, rest) =>
    (cs.take skip ++ body ++ rest.take terminator.length, rest.drop terminator.length)

/-- A mark takes at least the characters that its terminator is sought after. -/
theorem skip_pos_of_opening {cs : List Char} {kind : Mark} {skip : Nat} {terminator : List Char}
    (h : opening cs = .mark kind skip terminator) : 0 < skip := by
  have tagOpening_ne : ∀ inner, tagOpening inner ≠ .mark kind skip terminator := by
    intro inner; unfold tagOpening; split <;> (try split) <;> simp
  unfold opening at h
  split at h
  · cases h; decide
  split at h
  · cases h; decide
  split at h
  · cases h; decide
  split at h
  · cases h; decide
  · split at h
    · exact absurd h (tagOpening_ne _)
    · cases h

theorem throughTerminator_ne_nil {skip : Nat} {terminator cs : List Char} (hs : 0 < skip)
    (hc : cs ≠ []) : (throughTerminator skip terminator cs).1 ≠ [] := by
  simp only [throughTerminator]
  split
  · exact hc
  · simp [Nat.ne_of_gt hs, hc]

theorem append_throughTerminator (skip : Nat) (terminator cs : List Char) :
    (throughTerminator skip terminator cs).1 ++ (throughTerminator skip terminator cs).2 = cs := by
  simp only [throughTerminator]
  split
  · simp
  · next h => simp [Text.append_of_cut h]

/-- A text split before the first markup that follows its first character. -/
def textRun : List Char → List Char × List Char
  | [] => ([], [])
  | c :: cs =>
    match Text.cutWhere isMarkup cs with
    | none => (c :: cs, [])
    | some (run, rest) => (c :: run, rest)

theorem append_textRun (cs : List Char) : (textRun cs).1 ++ (textRun cs).2 = cs := by
  cases cs with
  | nil => rfl
  | cons c cs =>
    simp only [textRun]
    split
    · simp
    · next h => simp [Text.append_of_cutWhere h]

theorem textRun_ne_nil {cs : List Char} (h : cs ≠ []) : (textRun cs).1 ≠ [] := by
  cases cs with
  | nil => exact absurd rfl h
  | cons c cs => simp only [textRun]; split <;> simp

/-! ## Lexemes -/

/-- The text that ends the opaque content of an element, if it has such content: what the dialect
sets, or the beginning of its end tag. -/
def rawTextEnd? (config : Config) (name : String) : Option String :=
  match config.rawTextEnd? name with
  | some closing => some closing
  | none => if (TagRule.ofName name).isRawText then some ("</" ++ name) else none

/-- The content and end tag of an element whose content ends before `closing`, in any case of its
letters; or **the text from the end tag on, if that is left open**. -/
def rawContent (closing cs : List Char) :
    Except (List Char) (List Char × Option (List Char) × List Char) :=
  match Text.cutIgnoreCase closing cs with
  | none => .ok (cs, none, [])
  | some (content, []) => .ok (content, none, [])
  | some (content, c :: after) =>
    match tagTail? .plain ((c :: after).drop closing.length) with
    | none => .error (c :: after)
    | some (tail, rest) => .ok (content, some ((c :: after).take closing.length ++ tail), rest)

theorem append_of_rawContent {closing cs content rest : List Char} {endTag : Option (List Char)}
    (h : rawContent closing cs = .ok (content, endTag, rest)) :
    content ++ (endTag.getD [] ++ rest) = cs ∧ endTag ≠ some [] := by
  simp only [rawContent] at h
  split at h
  · cases h
    simp
  · next hc =>
    cases h
    exact ⟨Text.append_of_cutWhere hc, by simp⟩
  · next hc =>
    split at h
    · simp at h
    · next ht =>
      cases h
      obtain ⟨happ, hne⟩ := append_of_tagTail? ht
      simp [happ, hne, Text.append_of_cutWhere hc]

namespace Lexeme

/-- The lexeme of a start tag and what belongs to it. -/
def ofStartTag (config : Config) (tag : ReadTag) : Except (List Char) (Lexeme × List Char) :=
  let name := String.ofList tag.name
  if (TagRule.ofName name).isVoid ∨ isSelfClosing tag.raw then
    .ok (.closedTag name tag.raw, tag.rest)
  else
    match rawTextEnd? config name with
    | none => .ok (.openTag name tag.raw, tag.rest)
    | some closing =>
      (rawContent closing.toList tag.rest).map fun parts =>
        (.rawElement name tag.raw parts.1 parts.2.1, parts.2.2)

/-- **The first lexeme of a text and what follows it**; or the text from a tag on that is left
open. -/
def next (config : Config) (cs : List Char) : Except (List Char) (Lexeme × List Char) :=
  match opening cs with
  | .mark kind skip terminator =>
    let parts := throughTerminator skip terminator cs
    .ok (.mark kind parts.1, parts.2)
  | .startTag =>
    match readTag? (cs.take 1) (cs.drop 1) with
    | none => .error cs
    | some tag => ofStartTag config tag
  | .endTag =>
    match readTag? (cs.take 2) (cs.drop 2) with
    | none => .error cs
    | some tag => .ok (.endTag (String.ofList tag.name) tag.raw, tag.rest)
  | .text =>
    let parts := textRun cs
    .ok (.mark .text parts.1, parts.2)

variable {config : Config} {cs rest : List Char} {lexeme : Lexeme}

/-- **What a start tag begins** is the tag alone, or an element with opaque content. -/
theorem ofStartTag_eq_ok {tag : ReadTag} (h : ofStartTag config tag = .ok (lexeme, rest)) :
    let name := String.ofList tag.name
    ((TagRule.ofName name).isVoid = true ∨ isSelfClosing tag.raw = true) ∧ rest = tag.rest ∧
        lexeme = .closedTag name tag.raw ∨
      ¬((TagRule.ofName name).isVoid = true ∨ isSelfClosing tag.raw = true) ∧
        (rawTextEnd? config name = none ∧ rest = tag.rest ∧ lexeme = .openTag name tag.raw ∨
          ∃ closing content endTag, rawTextEnd? config name = some closing ∧
            lexeme = .rawElement name tag.raw content endTag ∧
              rawContent closing.toList tag.rest = .ok (content, endTag, rest)) := by
  simp only [ofStartTag] at h
  split at h
  · next hclosed =>
    cases h
    exact Or.inl ⟨hclosed, rfl, rfl⟩
  · next hopen =>
    refine Or.inr ⟨hopen, ?_⟩
    split at h
    · next hmarkup =>
      cases h
      exact Or.inl ⟨hmarkup, rfl, rfl⟩
    · next closing hraw =>
      cases hr : rawContent closing.toList tag.rest with
      | error unread => simp [hr, Except.map] at h
      | ok parts =>
        rw [hr] at h
        cases h
        exact Or.inr ⟨_, _, _, hraw, rfl, hr⟩

theorem append_of_ofStartTag {tag : ReadTag} (h : ofStartTag config tag = .ok (lexeme, rest)) :
    lexeme.text ++ rest = tag.raw ++ tag.rest ∧ (tag.raw ≠ [] → lexeme.text ≠ []) := by
  obtain ⟨-, rfl, rfl⟩ | ⟨-, ⟨-, rfl, rfl⟩ | ⟨closing, content, endTag, -, rfl, hcontent⟩⟩ :=
    ofStartTag_eq_ok h
  · exact ⟨rfl, id⟩
  · exact ⟨rfl, id⟩
  · rw [text, List.append_assoc, List.append_assoc, (append_of_rawContent hcontent).1]
    exact ⟨rfl, fun hne => by simp [hne]⟩

/-- A start tag begins with a bracket and a letter. -/
theorem exists_letter_of_opening (h : opening cs = .startTag) :
    ∃ c inner, cs = '<' :: c :: inner ∧ Text.isLetter c = true := by
  have hinner : ∀ inner, tagOpening inner = .startTag →
      ∃ c others, inner = c :: others ∧ Text.isLetter c = true := by
    intro inner hinner
    unfold tagOpening at hinner
    split at hinner
    · split at hinner <;> exact absurd hinner (by decide)
    · split at hinner
      · next hletter => exact ⟨_, _, rfl, hletter⟩
      · exact absurd hinner (by decide)
    · exact absurd hinner (by decide)
  unfold opening at h
  split at h
  · cases h
  split at h
  · cases h
  split at h
  · cases h
  split at h
  · cases h
  · split at h
    · obtain ⟨c, others, rfl, hletter⟩ := hinner _ h
      exact ⟨c, others, rfl, hletter⟩
    · exact absurd h (by decide)

/-- **What a text begins with** is a mark or an end tag, or what a start tag begins. -/
theorem next_eq_ok (h : next config cs = .ok (lexeme, rest)) :
    (∃ kind raw, lexeme = .mark kind raw ∧ raw ++ rest = cs ∧ (cs ≠ [] → raw ≠ [])) ∨
      (∃ name raw, lexeme = .endTag name raw ∧ raw ++ rest = cs ∧ raw ≠ []) ∨
        ∃ c inner tag, cs = '<' :: c :: inner ∧ Text.isLetter c = true ∧
          readTag? ['<'] (c :: inner) = some tag ∧ ofStartTag config tag = .ok (lexeme, rest) := by
  simp only [next] at h
  split at h
  · next hopening =>
    cases h
    exact Or.inl ⟨_, _, rfl, append_throughTerminator _ _ cs,
      throughTerminator_ne_nil (skip_pos_of_opening hopening)⟩
  · next hopening =>
    obtain ⟨c, inner, rfl, hletter⟩ := exists_letter_of_opening hopening
    split at h
    · simp at h
    · next tag htag => exact Or.inr (Or.inr ⟨c, inner, tag, rfl, hletter, htag, h⟩)
  · split at h
    · simp at h
    · next tag htag =>
      cases h
      obtain ⟨happ, hne⟩ := append_of_readTag? htag
      exact Or.inr (Or.inl ⟨_, tag.raw, rfl, happ.trans (List.take_append_drop 2 cs), hne⟩)
  · cases h
    exact Or.inl ⟨_, _, rfl, append_textRun cs, textRun_ne_nil⟩

/-- **Nothing is lost**, for what was read and what was not are the text, and something is read of a
text that is not empty. -/
theorem append_of_next (h : next config cs = .ok (lexeme, rest)) :
    lexeme.text ++ rest = cs ∧ (cs ≠ [] → lexeme.text ≠ []) := by
  obtain ⟨kind, raw, rfl, happ, hne⟩ | ⟨name, raw, rfl, happ, hne⟩ |
    ⟨c, inner, tag, rfl, -, htag, hstart⟩ := next_eq_ok h
  · exact ⟨happ, hne⟩
  · exact ⟨happ, fun _ => hne⟩
  · obtain ⟨htext, htext_ne⟩ := append_of_ofStartTag hstart
    obtain ⟨happ, hne⟩ := append_of_readTag? htag
    exact ⟨htext.trans happ, fun _ => htext_ne hne⟩

theorem length_lt_of_next (h : next config cs = .ok (lexeme, rest)) (hc : cs ≠ []) :
    rest.length < cs.length := by
  obtain ⟨happend, hne⟩ := append_of_next h
  have happ := congrArg List.length happend
  have hpos := List.length_pos_iff.2 (hne hc)
  simp only [List.length_append] at happ
  omega

end Lexeme

/-! ## Whole texts -/

/-- **The lexemes of a text**; or the text from the tag on that is left open. -/
def lexemes (config : Config) : List Char → Except (List Char) (List Lexeme)
  | [] => .ok []
  | c :: cs =>
    match h : Lexeme.next config (c :: cs) with
    | .error unread => .error unread
    | .ok (lexeme, rest) =>
      have : rest.length < cs.length + 1 := Lexeme.length_lt_of_next h (by simp)
      (lexemes config rest).map (lexeme :: ·)
termination_by cs => cs.length
decreasing_by simpa using this

/-- A text split behind its **front matter**: lines that a line of three dashes opens and the first
line closes that begins with three dashes, if nothing but white space follows them there. -/
def frontMatter? (cs : List Char) : Option (List Char × List Char) :=
  match cs with
  | '-' :: '-' :: '-' :: body =>
    if ['\n'].isPrefixOf body ∨ ['\r', '\n'].isPrefixOf body then
      match Text.cut ['\n', '-', '-', '-'] body with
      | none => none
      | some (inner, close) =>
        let line := Text.splitLine (close.drop 4)
        if line.1.all Text.isSpace then
          some ('-' :: '-' :: '-' :: inner ++ close.take 4 ++ line.1, line.2)
        else none
    else none
  | _ => none

theorem append_of_frontMatter? {cs as bs : List Char} (h : frontMatter? cs = some (as, bs)) :
    as ++ bs = cs ∧ as ≠ [] := by
  unfold frontMatter? at h
  split at h
  · split at h
    · split at h
      · simp at h
      · next hc =>
        simp only at h
        split at h
        · simp only [Option.some.injEq, Prod.mk.injEq] at h
          obtain ⟨rfl, rfl⟩ := h
          simp [Text.append_splitLine, Text.append_of_cut hc]
        · simp at h
    · simp at h
  · simp at h

/-- The lexemes of a text that may open with front matter. -/
def documentLexemes (config : Config) (withFrontMatter : Bool) (cs : List Char) :
    Except (List Char) (List Lexeme) :=
  match if withFrontMatter then frontMatter? cs else none with
  | none => lexemes config cs
  | some (front, rest) => (lexemes config rest).map (.mark .frontMatter front :: ·)

end Markup.Html
