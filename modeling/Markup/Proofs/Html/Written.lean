import Markup.Proofs.Html.Tag
import Markup.Proofs.Text.Search

/-!
# Proofs/Html/Written — tags that are written are read back

A start tag is written with its attributes in double quotes, an end tag with its name alone.
Whatever follows, the reader of lexemes ends a written tag **with its own bracket**
(`readTag?_startTag`), and the splitter finds in it the name and the attributes that it was written
with (`exists_read_startTag`).
-/

namespace Markup.Html

/-- An attribute to be written: its name and its value. -/
abbrev Pair := List Char × List Char

/-- What an attribute says, if it is no spread. -/
def pair? : Attribute → Option Pair
  | .plain a => some (a.parts.name.raw.toList, a.parts.value.raw.toList)
  | .spread .. => none

/-- **A name that can be written in a tag**: a letter, and after it what ends no name. -/
structure IsTagName (name : List Char) : Prop where
  letter : name.head?.any Text.isLetter = true
  word : ∀ c ∈ name, Text.isNameEnd c = false

/-- **The name of an element that has content, and markup in it**, where these names are opaque. -/
structure HoldsMarkup (opaqueNames : List String) (name : String) : Prop where
  not_void : (TagRule.ofName name).isVoid = false
  not_opaque : lowerName name ∉ opaqueNames

/-- A character of an attribute's name: it neither ends the name nor opens a value. -/
def isPairChar (c : Char) : Bool :=
  !Attribute.Recognizer.isNameStop c && (Quote.opened? Quote.html c).isNone

/-- **An attribute that can be written**: its name is one, and its value has no double quote. -/
structure IsPair (a : Pair) : Prop where
  name_ne : a.1 ≠ []
  name : ∀ c ∈ a.1, isPairChar c = true
  value : '"' ∉ a.2

/-- A comment as it is written. -/
def writeComment (body : List Char) : List Char := ['<', '!', '-', '-'] ++ body ++ Text.commentEnd

instance (name : List Char) : Decidable (IsTagName name) :=
  decidable_of_iff (name.head?.any Text.isLetter = true ∧ name.any Text.isNameEnd = false)
    ⟨fun h => ⟨h.1, by simpa using h.2⟩, fun h => ⟨h.letter, by simpa using h.word⟩⟩

instance (opaqueNames : List String) (name : String) : Decidable (HoldsMarkup opaqueNames name) :=
  decidable_of_iff ((TagRule.ofName name).isVoid = false ∧ lowerName name ∉ opaqueNames)
    ⟨fun h => ⟨h.1, h.2⟩, fun h => ⟨h.not_void, h.not_opaque⟩⟩

instance (a : Pair) : Decidable (IsPair a) :=
  decidable_of_iff (a.1 ≠ [] ∧ a.1.all isPairChar = true ∧ '"' ∉ a.2)
    ⟨fun h => ⟨h.1, List.all_eq_true.1 h.2.1, h.2.2⟩,
      fun h => ⟨h.name_ne, List.all_eq_true.2 h.name, h.value⟩⟩

/-- An attribute as it is written, with a space before it. -/
def writePair (a : Pair) : List Char := ' ' :: (a.1 ++ '=' :: '"' :: (a.2 ++ ['"']))

/-- What follows the name in a start tag. -/
def writeTail (as : List Pair) : List Char := as.flatMap writePair ++ ['>']

/-- **A start tag as it is written.** -/
def startTag (name : List Char) (as : List Pair) : List Char := '<' :: (name ++ writeTail as)

/-- An end tag as it is written. -/
def endTag (name : List Char) : List Char := '<' :: '/' :: (name ++ ['>'])

/-- Letters, digits and hyphens are among the characters of names. -/
theorem isNameEnd_of_word {c : Char} (h : c.isAlphanum = true ∨ c = '-') :
    Text.isNameEnd c = false ∧ isPairChar c = true := by
  have hother : ∀ d ∈ [' ', '\t', '\n', '\r', '\x0c', '/', '>', '\x00', '=', '"', '\''],
      ¬(d.isAlphanum = true ∨ d = '-') := by simp
  have hne : ∀ d ∈ [' ', '\t', '\n', '\r', '\x0c', '/', '>', '\x00', '=', '"', '\''], c ≠ d := by
    rintro d hd rfl
    exact hother c hd h
  simp only [List.forall_mem_cons] at hne
  simp [Text.isNameEnd, isPairChar, Attribute.Recognizer.isNameStop, Text.isBlank, Quote.opened?,
    Quote.html, Quote.double, Quote.single, hne, Ne.symm]

/-- **…so names made of them can be written**, as that of an element if a letter leads… -/
theorem IsTagName.of_word {name : List Char} (hletter : name.head?.any Text.isLetter = true)
    (hword : ∀ c ∈ name, c.isAlphanum = true ∨ c = '-') : IsTagName name :=
  ⟨hletter, fun c hc => (isNameEnd_of_word (hword c hc)).1⟩

/-- …and as that of an attribute. -/
theorem IsPair.of_word {a : Pair} (hne : a.1 ≠ [])
    (hword : ∀ c ∈ a.1, c.isAlphanum = true ∨ c = '-') (hvalue : '"' ∉ a.2) : IsPair a :=
  ⟨hne, fun c hc => (isNameEnd_of_word (hword c hc)).2, hvalue⟩

variable {name rest : List Char} {as : List Pair} {a : Pair}

theorem IsTagName.ne_nil (h : IsTagName name) : name ≠ [] := by
  rintro rfl
  exact absurd h.letter (by decide)

/-- A name begins with its letter. -/
theorem IsTagName.exists_cons (h : IsTagName name) :
    ∃ c word, name = c :: word ∧ Text.isLetter c = true := by
  cases name with
  | nil => exact absurd rfl h.ne_nil
  | cons c word => exact ⟨c, word, rfl, h.letter⟩

/-- The name of a start tag can be written in one. -/
theorem IsStartTag.isTagName {raw : List Char} {name : String} (h : IsStartTag raw name) :
    IsTagName name.toList := by
  obtain ⟨letter, word, -, -⟩ := h
  rw [String.toList_ofList]
  exact ⟨letter, word⟩

/-- What begins a name begins no other markup. -/
theorem ne_of_isLetter {c : Char} (h : Text.isLetter c = true) : c ≠ '!' ∧ c ≠ '?' ∧ c ≠ '/' := by
  refine ⟨?_, ?_, ?_⟩ <;> rintro rfl <;> exact absurd h (by decide)

/-- A name is followed by what ends it. -/
theorem head?_writeTail (as : List Pair) : (writeTail as).head?.any Text.isNameEnd = true := by
  cases as <;> rfl

theorem writeTail_cons (a : Pair) (as : List Pair) :
    writeTail (a :: as) = writePair a ++ writeTail as := by
  rw [writeTail, List.flatMap_cons, List.append_assoc]
  rfl

/-! ## Where a written tag ends -/

/-- **A tag that ends for its reader is read**, whatever follows. -/
theorem tagTail?_of_ends {st : TagState} {cs : List Char} (h : tagScanner.Ends st cs)
    (rest : List Char) : tagTail? st (cs ++ rest) = some (cs, rest) := by
  induction cs generalizing st with
  | nil => exact absurd h id
  | cons c cs ih =>
    rw [Scanner.Ends] at h
    rw [List.cons_append, tagTail?]
    split at h
    · next hend =>
      subst h
      exact if_pos hend
    · next hend =>
      have htail : tagTail? (st.step c) (cs ++ rest) = some (cs, rest) := ih h
      exact (if_neg hend).trans (by rw [htail]; rfl)

/-- A name is skipped… -/
theorem ends_plain_append {word cs : List Char} (h : ∀ c ∈ word, c ≠ '=' ∧ c ≠ '>') :
    tagScanner.Ends .plain (word ++ cs) ↔ tagScanner.Ends .plain cs := by
  induction word with
  | nil => rfl
  | cons c word ih =>
    obtain ⟨⟨hequal, hbracket⟩, hrest⟩ := List.forall_mem_cons.1 h
    have hstep : tagScanner.step c .plain = .plain := if_neg hequal
    rw [List.cons_append, Scanner.ends_cons fun hend => hbracket hend.1, hstep, ih hrest]

/-- …and so is a value, up to its quote. -/
theorem ends_quoted {quote : Char} {value cs : List Char} (h : quote ∉ value) :
    tagScanner.Ends (.quoted quote) (value ++ quote :: cs) ↔ tagScanner.Ends .plain cs := by
  induction value with
  | nil =>
    have hstep : tagScanner.step quote (.quoted quote) = .plain := if_pos rfl
    rw [List.nil_append, Scanner.ends_cons fun hend => Bool.false_ne_true hend.2, hstep]
  | cons c value ih =>
    rw [List.mem_cons, not_or] at h
    have hstep : tagScanner.step c (.quoted quote) = .quoted quote := if_neg (Ne.symm h.1)
    rw [List.cons_append, Scanner.ends_cons fun hend => Bool.false_ne_true hend.2, hstep, ih h.2]

/-- The characters of a name neither end the tag nor announce a value. -/
theorem IsPair.ne_of_mem (h : IsPair a) : ∀ c ∈ a.1, c ≠ '=' ∧ c ≠ '>' := by
  intro c hc
  have hchar := h.name c hc
  constructor <;> rintro rfl <;> exact absurd hchar (by decide)

theorem ends_writePair (h : IsPair a) (cs : List Char) :
    tagScanner.Ends .plain (writePair a ++ cs) ↔ tagScanner.Ends .plain cs := by
  have hspace : tagScanner.Ends .plain (' ' :: (a.1 ++ '=' :: '"' :: (a.2 ++ '"' :: cs))) ↔
      tagScanner.Ends .plain (a.1 ++ '=' :: '"' :: (a.2 ++ '"' :: cs)) :=
    Scanner.ends_cons (by decide)
  have hquote : tagScanner.Ends .plain ('=' :: '"' :: (a.2 ++ '"' :: cs)) ↔
      tagScanner.Ends (.quoted '"') (a.2 ++ '"' :: cs) :=
    (Scanner.ends_cons (by decide)).trans (Scanner.ends_cons (by decide))
  rw [writePair, List.cons_append, List.append_assoc, List.cons_append, List.cons_append,
    List.append_assoc, List.singleton_append, hspace, ends_plain_append h.ne_of_mem, hquote,
    ends_quoted h.value]

/-- **A written tag ends with its own bracket**, whatever its values are. -/
theorem ends_writeTail (h : ∀ a ∈ as, IsPair a) : tagScanner.Ends .plain (writeTail as) := by
  induction as with
  | nil => exact Scanner.ends_bracket rfl
  | cons a as ih =>
    obtain ⟨ha, has⟩ := List.forall_mem_cons.1 h
    rw [writeTail_cons, ends_writePair ha]
    exact ih has

/-- A name and what ends a tag are read as one. -/
theorem readTag?_of_ends (opening : List Char) {tail : List Char}
    (hname : ∀ c ∈ name, Text.isNameEnd c = false) (behind : tail.head?.any Text.isNameEnd = true)
    (ends : tagScanner.Ends .plain tail) (rest : List Char) :
    readTag? opening (name ++ (tail ++ rest)) = some ⟨name, opening ++ name ++ tail, rest⟩ := by
  have hend : (tail ++ rest).head?.any Text.isNameEnd = true := by
    obtain ⟨c, tail, rfl⟩ := List.exists_cons_of_ne_nil ends.ne_nil
    exact behind
  have hdrop : (name ++ (tail ++ rest)).dropWhile (fun c => !Text.isNameEnd c) = tail ++ rest :=
    StartTag.behindName_eq hname hend
  rw [readTag?, hdrop, tagTail?_of_ends ends]
  simp only [StartTag.takeWhile_eq_name hname hend, Option.map_some]

theorem readTag?_write (opening : List Char) (hname : ∀ c ∈ name, Text.isNameEnd c = false)
    (has : ∀ a ∈ as, IsPair a) (rest : List Char) :
    readTag? opening (name ++ (writeTail as ++ rest)) =
      some ⟨name, opening ++ name ++ writeTail as, rest⟩ :=
  readTag?_of_ends opening hname (head?_writeTail as) (ends_writeTail has) rest

/-- **No slash before the bracket**: a written tag never closes itself. -/
theorem isSelfClosing_startTag (hname : IsTagName name) (as : List Pair) :
    isSelfClosing (startTag name as) = false := by
  have hlast : ∀ cs : List Char, ∀ c, Text.isBlank c = false → c ≠ '/' →
      StartTag.endsInSlash (cs ++ [c]) = false := by
    intro cs c hblank hslash
    rw [StartTag.endsInSlash_append ⟨c, List.mem_singleton_self c, hblank⟩]
    exact StartTag.endsInSlash_of_not_mem (by simpa using hslash.symm)
  have hdrop : (startTag name as).dropLast = '<' :: (name ++ as.flatMap writePair) := by
    rw [startTag, writeTail, ← List.append_assoc, ← List.cons_append, List.dropLast_concat]
  change StartTag.endsInSlash (startTag name as).dropLast = false
  rw [hdrop]
  rcases List.eq_nil_or_concat as with rfl | ⟨others, a, rfl⟩
  · obtain ⟨word, c, hc⟩ := (List.eq_nil_or_concat name).resolve_left hname.ne_nil
    have hword := hname.word c (by simp [hc])
    rw [List.flatMap_nil, List.append_nil, hc, List.concat_eq_append, ← List.cons_append]
    refine hlast _ _ (Bool.eq_false_iff.2 fun hblank => ?_) ?_
    · exact absurd (Text.isNameEnd_of_isBlank hblank) (by simp [hword])
    · rintro rfl
      exact absurd hword (by decide)
  · have hquote : '<' :: (name ++ (others ++ [a]).flatMap writePair) =
        '<' :: (name ++ (others.flatMap writePair ++ ' ' :: (a.1 ++ '=' :: '"' :: a.2))) ++
          ['"'] := by
      simp [writePair]
    rw [List.concat_eq_append, hquote]
    exact hlast _ _ (by decide) (by decide)

/-- An element is not opaque if it has none of the names in the list. -/
theorem rawTextEnd?_eq_none_of_ne {config : Config} {name : String}
    (h : ∀ tag ∈ config.ignored, lowerName tag.kind ≠ lowerName name) :
    config.rawTextEnd? name = none := by
  rw [Config.rawTextEnd?, List.find?_eq_none.2, Option.map_none]
  intro tag htag helement
  rw [IgnoredTag.isElement, Bool.and_eq_true, Text.equalIgnoreCase, beq_iff_eq] at helement
  exact h tag htag (by rw [lowerName, lowerName, helement.1])

/-! ## What is read of a written tag -/

/-- The parts of an attribute that has been written. -/
def partsOf (a : Pair) (rest : List Char) : Attribute.Parts where
  spacesBeforeName := [' ']
  name := a.1
  spacesBeforeEqual := []
  equal := ['=']
  spacesAfterEqual := []
  startQuote := ['"']
  value := a.2
  endQuote := ['"']
  leftover := rest
  quote := some .double

open Attribute.Recognizer in
/-- A written name begins with what neither separates attributes nor ends the tag. -/
theorem IsPair.exists_cons (h : IsPair a) : ∃ c word, a.1 = c :: word ∧ isNameStop c = false ∧
    Text.isBlank c = false ∧ c ≠ '>' ∧ c ≠ '/' := by
  obtain ⟨c, word, hc⟩ := List.exists_cons_of_ne_nil h.name_ne
  have hchar := h.name c (by simp [hc])
  rw [isPairChar, Bool.and_eq_true, Bool.not_eq_true'] at hchar
  have hstop := hchar.1
  simp only [isNameStop, Bool.or_eq_false_iff, beq_eq_false_iff_ne] at hstop
  exact ⟨c, word, hc, hchar.1, hstop.1.1.1, hstop.1.2, hstop.2⟩

open Attribute.Recognizer in
/-- A name ends before the equals sign. -/
theorem IsPair.nameOf_append (h : IsPair a) (cs : List Char) :
    nameOf Quote.html (a.1 ++ '=' :: cs) = a.1 := by
  obtain ⟨c, word, hc, hstop, -⟩ := h.exists_cons
  have hname := h.name
  rw [hc, List.forall_mem_cons] at hname
  have hword : (word ++ '=' :: cs).takeWhile isPairChar = word := by
    rw [List.takeWhile_append_of_pos hname.2, List.takeWhile_cons_of_neg (by decide),
      List.append_nil]
  rw [hc, List.cons_append, nameOf, hstop, if_neg Bool.false_ne_true]
  exact congrArg (c :: ·) hword

open Attribute.Recognizer in
/-- A value is read up to its quote… -/
theorem quotedValue_append {p : Attribute.Parts} (hquote : p.quote = some .double)
    (h : IsPair a) (rest : List Char) :
    quotedValue p (a.2 ++ '"' :: rest) =
      .ok { p with value := a.2, endQuote := ['"'], leftover := rest } := by
  have hcut : closeValue? .double (a.2 ++ '"' :: rest) = some (a.2, '"' :: rest) :=
    Text.cut_singleton h.value
  rw [quotedValue, if_neg (by simp)]
  simp only [hquote, Option.getD_some, hcut]
  rfl

open Attribute.Recognizer in
/-- **…so a written attribute is recognized**, whatever follows it. -/
theorem recognize_writePair (h : IsPair a) (rest : List Char) :
    Attribute.recognize {} (writePair a ++ rest) = .ok (partsOf a rest) := by
  obtain ⟨c, word, hc, -, hblank, hbracket, hslash⟩ := h.exists_cons
  have hspread : startsSpread Quote.html (a.1 ++ '=' :: '"' :: (a.2 ++ '"' :: rest)) = false :=
    Bool.and_false _
  have hwritten : writePair a ++ rest = ' ' :: (a.1 ++ '=' :: '"' :: (a.2 ++ '"' :: rest)) := by
    simp [writePair]
  have hvalue : ∀ p : Attribute.Parts, p.name.isEmpty = false →
      beforeValue {} p ('"' :: (a.2 ++ '"' :: rest)) = quotedValue
        { p with spacesAfterEqual := [], startQuote := ['"'], quote := some .double }
          (a.2 ++ '"' :: rest) := by
    intro p hp
    simp only [beforeValue, hp, Bool.false_and]
    rfl
  have hname : name {} { Attribute.Parts.empty with spacesBeforeName := [' '] }
      (a.1 ++ '=' :: '"' :: (a.2 ++ '"' :: rest)) = .ok (partsOf a rest) := by
    simp only [name, h.nameOf_append, List.drop_left]
    rw [hvalue _ (List.isEmpty_eq_false_iff.2 h.name_ne), quotedValue_append rfl h]
    rfl
  rw [hc, List.cons_append] at hname hspread
  rw [Attribute.recognize, start, hwritten, beforeName, hc, List.cons_append]
  simp only [List.takeWhile_cons_of_pos (show Text.isBlank ' ' = true by decide),
    List.dropWhile_cons_of_pos (show Text.isBlank ' ' = true by decide),
    List.takeWhile_cons_of_neg (Bool.eq_false_iff.1 hblank),
    List.dropWhile_cons_of_neg (Bool.eq_false_iff.1 hblank), hspread, hname, hbracket, hslash,
    Bool.false_eq_true, false_and, or_self, if_false]

variable {source : Source}

/-- **The walk through a written tag finds what was written**, attribute by attribute. -/
theorem exists_attributesFrom_writeTail (has : ∀ a ∈ as, IsPair a) {offset stop : Nat}
    (hslice : Text.slice? offset stop source.text = some (writeTail as)) :
    ∃ attributes, StartTag.attributesFrom dialect.readAttribute source stop offset (writeTail as) =
        .ok (attributes, ['>']) ∧ attributes.map pair? = as.map some := by
  induction as generalizing offset with
  | nil => exact ⟨[], StartTag.attributesFrom_of_stop rfl (Or.inl rfl), rfl⟩
  | cons a as ih =>
    obtain ⟨ha, has⟩ := List.forall_mem_cons.1 has
    rw [writeTail_cons] at hslice ⊢
    obtain ⟨token, htoken, hraw⟩ := Source.exists_slice hslice
    obtain ⟨c, word, hword, -, hblank, hbracket, hslash⟩ := ha.exists_cons
    have hcons : (writePair a ++ writeTail as).dropWhile Text.isBlank =
        c :: (word ++ '=' :: '"' :: (a.2 ++ '"' :: writeTail as)) := by
      simp [writePair, hword, hblank,
        List.dropWhile_cons_of_pos (show Text.isBlank ' ' = true by decide)]
    have hstop : ¬(c = '>' ∨ StartTag.isClosingSlash
        (c :: (word ++ '=' :: '"' :: (a.2 ++ '"' :: writeTail as))) = true) := by
      simp [hbracket, StartTag.isClosingSlash_of_ne hslash]
    have hfound := recognize_writePair ha (writeTail as)
    have hparts : writePair a ++ writeTail as = [' '] ++
        ((partsOf a (writeTail as)).text ++ writeTail as) := by
      simp [writePair, Attribute.Parts.text, Attribute.Layout.toList, partsOf]
    have hsize : Text.byteSize [' '] + Text.byteSize (partsOf a (writeTail as)).text =
        Text.byteSize (writePair a) := by
      simp [writePair, Attribute.Parts.text, Attribute.Layout.toList, partsOf]
    obtain ⟨first, hfirst, hown, -, hplain⟩ :=
      Attribute.exists_of_read htoken (hraw ▸ hfound) (hraw.trans hparts)
    obtain ⟨plain, rfl, htexts⟩ := hplain rfl
    have hpair : pair? (.plain plain) = some a := by
      rw [pair?]
      exact congrArg (fun l => some (l.name, l.value)) htexts
    obtain ⟨others, hothers, hpairs⟩ := ih has (Text.slice?_of_append_right hslice)
    have hend : source.toLocal plain.token.endOffset = offset + Text.byteSize (writePair a) := by
      rw [← hsize, ← Nat.add_assoc]
      exact (congrArg source.toLocal (Source.endOffset_of_slice hown)).trans
        (Nat.add_sub_cancel _ _)
    refine ⟨.plain plain :: others, ?_, ?_⟩
    · have hread : dialect.readAttribute source token = .ok (.plain plain) := hfirst
      rw [StartTag.attributesFrom_of_read hcons hstop hslash htoken hread hend
        (List.cons_ne_nil _ _) rfl, hothers]
      rfl
    · rw [List.map_cons, List.map_cons, hpair, hpairs]

/-- **A written start tag is read back**: its name, and the names and values of its attributes. -/
theorem exists_read_startTag (hname : IsTagName name) (has : ∀ a ∈ as, IsPair a) {span : Span}
    {token : Token} (hslice : source.slice span = .ok token)
    (hraw : token.raw.toList = startTag name as) :
    ∃ tag, StartTag.read dialect.readAttribute source token = .ok tag ∧
      tag.name = String.ofList name ∧ tag.selfClosing = false ∧
      tag.attributes.map pair? = as.map some := by
  obtain ⟨htail, heq⟩ := StartTag.read_eq_attributesFrom dialect.readAttribute hslice hraw
    hname.ne_nil hname.word (head?_writeTail as)
  obtain ⟨attributes, hwalk, hpairs⟩ := exists_attributesFrom_writeTail has htail
  rw [hwalk] at heq
  exact ⟨_, heq, rfl, rfl, hpairs⟩

end Markup.Html
