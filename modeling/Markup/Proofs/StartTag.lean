import Markup.Dialect
import Markup.Proofs.Attribute.Locate
import Markup.Proofs.Text.Search

/-!
# Proofs/StartTag — a start tag is split without a rest

A text is `Filled` by attributes if they are **all of it but blanks, slashes and the one bracket at
its end**.  In a text that ends a tag for the splitter, the walk through the attributes reaches that
bracket (`exists_attributesFrom`), so the tag accounts for its whole token (`EndsFor.splitsWhole`).
What then stands before the bracket ends in a slash exactly if the tag closes itself or its last
attribute ends in one (`Whole.endsInSlash_dropLast`).
-/

namespace Markup

/-- **A reader of attributes goes where the splitter does**: what it reads of a text that ends a tag
is what follows the blanks there, up to another such text. -/
def AttributeReader.Splits (read : AttributeReader) (quotes : List Quote) : Prop :=
  ∀ ⦃source : Source⦄ ⦃token : Token⦄ ⦃start stop : Nat⦄ ⦃c : Char⦄ ⦃tail : List Char⦄,
    source.slice ⟨start, stop⟩ = .ok token → token.raw.toList.dropWhile Text.isBlank = c :: tail →
    c ≠ '>' ∧ c ≠ '/' → (splitter quotes).Ends .between token.raw.toList →
    ∃ a rest, read source token = .ok a ∧ a.token.raw.toList ≠ [] ∧
      c :: tail = a.token.raw.toList ++ rest ∧
      let first := start + Text.byteSize (token.raw.toList.takeWhile Text.isBlank)
      source.slice ⟨first, first + Text.byteSize a.token.raw.toList⟩ = .ok a.token ∧
        (splitter quotes).Ends .between rest

/-- **A dialect whose rules are regular does**, whatever it makes of what it reads. -/
theorem Attribute.splits_read {quotes : List Quote} {rules : List Char → Rules}
    (h : ∀ cs, (rules cs).Regular cs ∧ (rules cs).quotes = quotes) :
    AttributeReader.Splits (fun source token => read (rules token.raw.toList) source token)
      quotes := by
  intro source token start stop c tail hslice hcons hc hends
  obtain ⟨hregular, hquotes⟩ := h token.raw.toList
  rw [← hquotes] at hends ⊢
  obtain ⟨p, hfound, hspaces, hne, htext, hrest⟩ := exists_of_recognize hregular hcons hc hends
  have htoken : token.raw.toList = p.spacesBeforeName ++ (p.text ++ p.leftover) := by
    rw [hspaces, ← htext, ← hcons, List.takeWhile_append_dropWhile]
  obtain ⟨a, ha, hown, hraw, -⟩ := exists_of_read hslice hfound htoken
  rw [hspaces] at hown
  exact ⟨a, p.leftover, ha, hraw ▸ hne, hraw ▸ htext, hraw ▸ hown, hrest⟩

namespace StartTag

/-- **Attributes fill a text** from an offset on: all of it but blanks, slashes and the bracket at
its end are in one of them, and the tag closes itself if the last of the slashes says so. -/
inductive Filled (source : Source) : Nat → List Char → List Attribute → Bool → Prop
  | bracket {offset : Nat} : Filled source offset ['>'] [] false
  | slash {offset : Nat} {blanks : List Char} (blank : ∀ c ∈ blanks, Text.isBlank c = true) :
      Filled source offset ('/' :: (blanks ++ ['>'])) [] true
  | gap {offset : Nat} {c : Char} {cs : List Char} {attributes : List Attribute}
      {selfClosing : Bool}
      (separates : Text.isBlank c = true ∨ c = '/' ∧ isClosingSlash (c :: cs) = false)
      (rest : Filled source (offset + 1) cs attributes selfClosing) :
      Filled source offset (c :: cs) attributes selfClosing
  | cons {offset : Nat} {c : Char} {text cs : List Char} {a : Attribute}
      {attributes : List Attribute} {selfClosing : Bool} (raw : a.token.raw.toList = c :: text)
      (begins : Text.isBlank c = false ∧ c ≠ '>' ∧ c ≠ '/')
      (slice : source.slice ⟨offset, offset + Text.byteSize (c :: text)⟩ = .ok a.token)
      (rest : Filled source (offset + Text.byteSize (c :: text)) cs attributes selfClosing) :
      Filled source offset (c :: text ++ cs) (a :: attributes) selfClosing

variable {source : Source} {quotes : List Quote} {read : AttributeReader} {c : Char}
  {cs rest : List Char}

/-- A blank takes one byte. -/
theorem utf8Size_of_isBlank (h : Text.isBlank c = true) : c.utf8Size = 1 := by
  rcases Text.isBlank_iff.1 h with rfl | rfl | rfl | rfl | rfl <;> rfl

/-- Blanks before what attributes fill are filled, too. -/
theorem Filled.blanks {blanks : List Char} (hblank : ∀ c ∈ blanks, Text.isBlank c = true)
    {offset : Nat} {attributes : List Attribute} {selfClosing : Bool}
    (h : Filled source (offset + Text.byteSize blanks) cs attributes selfClosing) :
    Filled source offset (blanks ++ cs) attributes selfClosing := by
  induction blanks generalizing offset with
  | nil => exact h
  | cons c blanks ih =>
    rw [List.forall_mem_cons] at hblank
    rw [Text.byteSize_cons, utf8Size_of_isBlank hblank.1, ← Nat.add_assoc] at h
    exact Filled.gap (Or.inl hblank.1) (ih hblank.2 h)

/-- A slash stays among names. -/
theorem ends_of_slash (hq : Quote.Apart quotes)
    (h : (splitter quotes).Ends .between ('/' :: cs)) : (splitter quotes).Ends .between cs := by
  have hscript := hq.script?_eq_none (c := '/') rfl
  rwa [Scanner.ends_cons (by simp), Splitter.step_between_of_plain (by decide) hscript] at h

/-- A slash closes a tag if only blanks separate it from the bracket. -/
theorem isClosingSlash_iff :
    isClosingSlash cs = true ↔
      ∃ blanks rest, Text.Blanks blanks ∧ cs = '/' :: (blanks ++ '>' :: rest) := by
  constructor
  · intro h
    rw [isClosingSlash.eq_def] at h
    split at h
    · next tail =>
      obtain ⟨rest, hrest⟩ := List.head?_eq_some_iff.1 (beq_iff_eq.1 h)
      refine ⟨_, rest, Text.blanks_takeWhile tail, ?_⟩
      rw [← hrest, List.takeWhile_append_dropWhile]
    · cases h
  · rintro ⟨blanks, rest, hblanks, rfl⟩
    rw [isClosingSlash, Text.dropWhile_blanks hblanks rfl]
    rfl

/-- A slash that closes the tag is followed by blanks and the bracket. -/
theorem exists_of_isClosingSlash (hq : Quote.Apart quotes) (hc : isClosingSlash (c :: cs) = true)
    (h : (splitter quotes).Ends .between (c :: cs)) :
    c = '/' ∧ ∃ blanks, (∀ c ∈ blanks, Text.isBlank c = true) ∧ cs = blanks ++ ['>'] := by
  obtain ⟨blanks, rest, hblanks, heq⟩ := isClosingSlash_iff.1 hc
  obtain ⟨rfl, rfl⟩ := List.cons.inj heq
  refine ⟨rfl, blanks, hblanks, ?_⟩
  have hrest := (Splitter.ends_between_dropWhile hq).2 (ends_of_slash hq h)
  rw [Text.dropWhile_blanks hblanks rfl] at hrest
  rw [hrest.eq_nil rfl]

/-- Only a slash closes a tag. -/
theorem isClosingSlash_of_ne (h : c ≠ '/') : isClosingSlash (c :: cs) = false := by
  refine Bool.eq_false_iff.2 fun hc => ?_
  obtain ⟨_, _, -, heq⟩ := isClosingSlash_iff.1 hc
  exact h (List.cons.inj heq).1

section Walk

variable {tail used after : List Char} {stop offset : Nat} {token : Token} {a : Attribute}

/-- What is behind a slash that comes next is a slice where the text is. -/
theorem slice?_behind_slash (hslice : Text.slice? offset stop source.text = some rest)
    (hcons : rest.dropWhile Text.isBlank = '/' :: tail) :
    Text.slice? (offset + Text.byteSize (rest.takeWhile Text.isBlank) + 1) stop source.text =
      some tail := by
  have hspan := List.takeWhile_append_dropWhile (p := Text.isBlank) (l := rest)
  rw [hcons] at hspan
  have hlater : Text.slice? (offset + Text.byteSize (rest.takeWhile Text.isBlank)) stop
      source.text = some (['/'] ++ tail) := Text.slice?_of_append_right (hspan.symm ▸ hslice)
  exact Text.slice?_of_append_right hlater

/-- **The walk stops** where nothing but blanks is left… -/
theorem attributesFrom_of_nil (hnil : rest.dropWhile Text.isBlank = []) :
    attributesFrom read source stop offset rest = .ok ([], rest) := by
  rw [attributesFrom]
  split
  · rfl
  · next hcons => simp [hnil] at hcons

/-- …before the bracket, or before a slash that closes the tag… -/
theorem attributesFrom_of_stop (hcons : rest.dropWhile Text.isBlank = c :: tail)
    (hstop : c = '>' ∨ isClosingSlash (c :: tail) = true) :
    attributesFrom read source stop offset rest = .ok ([], rest) := by
  rw [attributesFrom]
  split
  · rfl
  · next d others hcons' =>
    obtain ⟨rfl, rfl⟩ := List.cons.inj (hcons.symm.trans hcons')
    rw [if_pos hstop]

/-- …goes over any other slash… -/
theorem attributesFrom_of_slash (hcons : rest.dropWhile Text.isBlank = '/' :: tail)
    (hopen : isClosingSlash ('/' :: tail) = false) :
    attributesFrom read source stop offset rest = attributesFrom read source stop
      (offset + Text.byteSize (rest.takeWhile Text.isBlank) + 1) tail := by
  rw [attributesFrom]
  split
  · next hnil => simp [hcons] at hnil
  · next d others hcons' =>
    obtain ⟨rfl, rfl⟩ := List.cons.inj (hcons.symm.trans hcons')
    rw [if_neg (by simp [hopen]), if_pos rfl]

/-- …and **reads an attribute** where one begins… -/
theorem attributesFrom_of_begin (hcons : rest.dropWhile Text.isBlank = c :: tail)
    (hstop : ¬(c = '>' ∨ isClosingSlash (c :: tail) = true)) (hslash : c ≠ '/') :
    attributesFrom read source stop offset rest = (do
      let token ← source.slice ⟨offset, stop⟩
      let first ← read source token
      let consumed := source.toLocal first.token.endOffset - offset
      if consumed = 0 then
        throw ⟨.noAttribute,
          source.emptyToken (offset + Text.byteSize (rest.takeWhile Text.isBlank))⟩
      else
        let (others, remainder) ←
          attributesFrom read source stop (offset + consumed) (Text.dropBytes consumed rest)
        return (first :: others, remainder)) := by
  rw [attributesFrom]
  split
  · next hnil => simp [hcons] at hnil
  · next d others hcons' =>
    obtain ⟨rfl, rfl⟩ := List.cons.inj (hcons.symm.trans hcons')
    rw [if_neg hstop, if_neg hslash]
    rfl

/-- …to **go on behind it**. -/
theorem attributesFrom_of_read (hcons : rest.dropWhile Text.isBlank = c :: tail)
    (hstop : ¬(c = '>' ∨ isClosingSlash (c :: tail) = true)) (hslash : c ≠ '/')
    (htoken : source.slice ⟨offset, stop⟩ = .ok token) (ha : read source token = .ok a)
    (hused : source.toLocal a.token.endOffset = offset + Text.byteSize used) (hne : used ≠ [])
    (hrest : rest = used ++ after) :
    attributesFrom read source stop offset rest =
      (attributesFrom read source stop (offset + Text.byteSize used) after).map
        fun parts => (a :: parts.1, parts.2) := by
  have hconsumed : source.toLocal a.token.endOffset - offset = Text.byteSize used := by
    rw [hused, Nat.add_sub_cancel_left]
  have hdrop : Text.dropBytes (Text.byteSize used) rest = after := by
    rw [hrest, Text.dropBytes_byteSize]
  have hzero : Text.byteSize used ≠ 0 := (Text.byteSize_pos hne).ne'
  rw [attributesFrom_of_begin hcons hstop hslash]
  simp only [htoken, ha, hconsumed, hdrop, if_neg hzero, bind, Except.bind]
  cases attributesFrom read source stop (offset + Text.byteSize used) after <;> rfl

/-- Where the walk stops, nothing but the end of the tag is left. -/
theorem filled_of_stop (hq : Quote.Apart quotes) (h : (splitter quotes).Ends .between (c :: tail))
    (hstop : c = '>' ∨ isClosingSlash (c :: tail) = true) :
    Filled source offset (c :: tail) [] (isClosingSlash (c :: tail)) := by
  cases hslash : isClosingSlash (c :: tail) with
  | true =>
    obtain ⟨rfl, blanks, hafter, rfl⟩ := exists_of_isClosingSlash hq hslash h
    exact Filled.slash hafter
  | false =>
    obtain rfl : c = '>' := by simpa [hslash] using hstop
    rw [h.eq_nil rfl]
    exact Filled.bracket

/-- **The walk through a text that ends the tag** fills it with attributes. -/
theorem exists_attributesFrom (hread : read.Splits quotes) (hq : Quote.Apart quotes)
    (hslice : Text.slice? offset stop source.text = some rest)
    (h : (splitter quotes).Ends .between rest) :
    ∃ attributes remainder, attributesFrom read source stop offset rest =
        .ok (attributes, remainder) ∧
      Filled source offset rest attributes
        (isClosingSlash (remainder.dropWhile Text.isBlank)) := by
  induction hlength : rest.length using Nat.strongRecOn generalizing rest offset with
  | ind n ih =>
    subst hlength
    have hspan := List.takeWhile_append_dropWhile (p := Text.isBlank) (l := rest)
    have hends := (Splitter.ends_between_dropWhile hq).2 h
    obtain ⟨c, tail, hcons⟩ := List.exists_cons_of_ne_nil hends.ne_nil
    rw [hcons] at hspan hends
    -- The blanks before the next character are filled, whatever that is.
    have hblanks : ∀ {attributes selfClosing}, Filled source
        (offset + Text.byteSize (rest.takeWhile Text.isBlank)) (c :: tail) attributes selfClosing →
          Filled source offset rest attributes selfClosing := fun hfilled =>
      hspan ▸ Filled.blanks (Text.blanks_takeWhile rest) hfilled
    by_cases hstop : c = '>' ∨ isClosingSlash (c :: tail) = true
    · refine ⟨[], rest, attributesFrom_of_stop hcons hstop, ?_⟩
      rw [hcons]
      exact hblanks (filled_of_stop hq hends hstop)
    by_cases hslash : c = '/'
    · subst hslash
      have hopen : isClosingSlash ('/' :: tail) = false := by simpa using hstop
      obtain ⟨attributes, remainder, hwalk, hfilled⟩ :=
        ih tail.length (length_lt_of_dropWhile_eq_cons hcons) (slice?_behind_slash hslice hcons)
          (ends_of_slash hq hends) rfl
      refine ⟨attributes, remainder, ?_, hblanks (Filled.gap (Or.inr ⟨rfl, hopen⟩) hfilled)⟩
      rw [attributesFrom_of_slash hcons hopen, hwalk]
    · have hbegins : c ≠ '>' ∧ c ≠ '/' := ⟨fun hc => hstop (Or.inl hc), hslash⟩
      obtain ⟨token, htoken, rfl⟩ := Source.exists_slice hslice
      obtain ⟨a, after, ha, hne, htext, hown, hafter⟩ := hread htoken hcons hbegins h
      let used := token.raw.toList.takeWhile Text.isBlank ++ a.token.raw.toList
      have hused : used ≠ [] := List.append_ne_nil_of_right_ne_nil _ hne
      have hall : token.raw.toList = used ++ after := by
        rw [List.append_assoc, ← htext, hspan]
      have hend : source.toLocal a.token.endOffset = offset + Text.byteSize used := by
        rw [Source.toLocal_endOffset hown, Text.byteSize_append, Nat.add_assoc]
      have hlt : after.length < token.raw.toList.length := by
        rw [hall, List.length_append]
        exact Nat.lt_add_of_pos_left (List.length_pos_iff.2 hused)
      obtain ⟨attributes, remainder, hwalk, hfilled⟩ :=
        ih after.length hlt (Text.slice?_of_append_right (hall ▸ hslice)) hafter rfl
      refine ⟨a :: attributes, remainder, ?_, hblanks ?_⟩
      · rw [attributesFrom_of_read hcons hstop hslash htoken ha hend hused hall, hwalk]
        rfl
      · obtain ⟨d, text, hd⟩ := List.exists_cons_of_ne_nil hne
        rw [hd] at hown htext
        rw [Text.byteSize_append, ← Nat.add_assoc, hd] at hfilled
        obtain ⟨rfl, rfl⟩ := List.cons.inj htext
        have hblankless := Attribute.Recognizer.not_isBlank_of_dropWhile hcons
        exact Filled.cons hd ⟨hblankless, hbegins⟩ hown hfilled

end Walk

/-- What follows the name in the text of a start tag. -/
def behindName (raw : List Char) : List Char :=
  (raw.drop 1).dropWhile fun c => !Text.isNameEnd c

/-- **A start tag accounts for its token**: behind the bracket come the name and what the attributes
fill, and nothing else. -/
def Whole (tag : StartTag) (source : Source) (token : Token) : Prop :=
  token.raw.toList = '<' :: (tag.name.toList ++ behindName token.raw.toList) ∧
    Filled source (source.toLocal token.startOffset + 1 + Text.byteSize tag.name.toList)
      (behindName token.raw.toList) tag.attributes tag.selfClosing

/-- **The splitter ends a start tag with the last bracket of its text.** -/
def EndsFor (quotes : List Quote) (raw : List Char) : Prop :=
  (splitter quotes).Ends .between (behindName raw)

instance (quotes : List Quote) (raw : List Char) : Decidable (EndsFor quotes raw) :=
  inferInstanceAs (Decidable ((splitter quotes).Ends _ _))

/-- The name ends where a character does that ends names. -/
theorem behindName_eq {name tail : List Char} (hword : ∀ c ∈ name, Text.isNameEnd c = false)
    (hend : tail.head?.any Text.isNameEnd = true) : behindName ('<' :: (name ++ tail)) = tail := by
  rw [behindName, List.drop_one, List.tail_cons,
    List.dropWhile_append_of_pos (by simpa using hword)]
  obtain ⟨c, hc, hstops⟩ := (Option.any_eq_true _ _).1 hend
  obtain ⟨others, rfl⟩ := List.head?_eq_some_iff.1 hc
  exact List.dropWhile_cons_of_neg (by simp [hstops])

theorem takeWhile_eq_name {name tail : List Char} (hword : ∀ c ∈ name, Text.isNameEnd c = false)
    (hend : tail.head?.any Text.isNameEnd = true) :
    ((name ++ tail).takeWhile fun c => !Text.isNameEnd c) = name := by
  have hspan := List.takeWhile_append_dropWhile (p := fun c => !Text.isNameEnd c)
    (l := name ++ tail)
  have hdropped : (name ++ tail).dropWhile (fun c => !Text.isNameEnd c) = tail :=
    behindName_eq hword hend
  rw [hdropped] at hspan
  exact List.append_cancel_right hspan

/-- What is read has the name of the tag. -/
theorem name_of_read {token : Token} {tag : StartTag} {name tail : List Char}
    (h : StartTag.read read source token = .ok tag)
    (hraw : token.raw.toList = '<' :: (name ++ tail))
    (hword : ∀ c ∈ name, Text.isNameEnd c = false) (hend : tail.head?.any Text.isNameEnd = true) :
    tag.name = String.ofList name := by
  rw [StartTag.read, hraw] at h
  simp only [takeWhile_eq_name hword hend] at h
  split at h
  · simp [throw, throwThe, MonadExceptOf.throw, bind, Except.bind] at h
  · obtain ⟨parts, -, h⟩ := Except.bind_eq_ok.1 h
    obtain rfl := Except.ok.inj h
    rfl

/-- **A reader of attributes splits a token without a rest**, into a start tag of this name. -/
def SplitsWhole (read : AttributeReader) (source : Source) (token : Token) (name : String) : Prop :=
  ∃ tag, StartTag.read read source token = .ok tag ∧ tag.name = name ∧ tag.Whole source token

/-- **What follows the name in a token is a slice**, and what is read of the token is the walk
through it. -/
theorem read_eq_attributesFrom (read : AttributeReader) {start stop : Nat} {token : Token}
    {name tail : List Char} (hslice : source.slice ⟨start, stop⟩ = .ok token)
    (hraw : token.raw.toList = '<' :: (name ++ tail)) (hne : name ≠ [])
    (hword : ∀ c ∈ name, Text.isNameEnd c = false) (hend : tail.head?.any Text.isNameEnd = true) :
    Text.slice? (start + 1 + Text.byteSize name) stop source.text = some tail ∧
      StartTag.read read source token =
        (attributesFrom read source stop (start + 1 + Text.byteSize name) tail).map fun parts =>
          ⟨String.ofList name, parts.1, isClosingSlash (parts.2.dropWhile Text.isBlank)⟩ := by
  have hstart := Source.toLocal_startOffset hslice
  have hwhole := Source.slice?_of_slice hslice
  rw [hraw, ← List.cons_append] at hwhole
  have hstop : start + Text.byteSize ('<' :: (name ++ tail)) = stop :=
    hraw ▸ Source.stop_of_slice hslice
  have hoffset : start + Text.byteSize ('<' :: name) = start + 1 + Text.byteSize name := by
    rw [Text.byteSize_cons, ← Nat.add_assoc]
    rfl
  have htail := Text.slice?_of_append_right hwhole
  rw [hoffset] at htail
  refine ⟨htail, ?_⟩
  rw [StartTag.read, hraw]
  simp only [takeWhile_eq_name hword hend, List.drop_left, List.isEmpty_eq_false_iff.2 hne, hstart,
    hstop, bind, Except.bind, Bool.false_eq_true, if_false]
  cases attributesFrom read source stop (start + 1 + Text.byteSize name) tail <;> rfl

/-- **A start tag that ends for the splitter is split without a rest.** -/
theorem EndsFor.splitsWhole {span : Span} {token : Token} {name tail : List Char}
    (h : EndsFor quotes token.raw.toList) (hread : read.Splits quotes) (hq : Quote.Apart quotes)
    (hslice : source.slice span = .ok token) (hraw : token.raw.toList = '<' :: (name ++ tail))
    (hne : name ≠ []) (hword : ∀ c ∈ name, Text.isNameEnd c = false)
    (hend : tail.head?.any Text.isNameEnd = true) :
    SplitsWhole read source token (String.ofList name) := by
  obtain ⟨start, stop⟩ := span
  have hbehind : behindName token.raw.toList = tail := by rw [hraw, behindName_eq hword hend]
  rw [EndsFor, hbehind] at h
  have hstart := Source.toLocal_startOffset hslice
  obtain ⟨htail, heq⟩ := read_eq_attributesFrom read hslice hraw hne hword hend
  obtain ⟨attributes, remainder, hwalk, hfilled⟩ := exists_attributesFrom hread hq htail h
  rw [hwalk] at heq
  refine ⟨_, heq, rfl, ?_⟩
  rw [Whole, hbehind, hstart, String.toList_ofList]
  exact ⟨hraw, hfilled⟩

/-- **A range of a source is a start tag of this name**; it ends for the splitter where that and the
reader of the dialect are in step, and where it does it is split without a rest. -/
def SplitsAt (d : Dialect) (quotes : List Quote) (inStep : List Char → Prop) (source : Source)
    (span : Span) (name : String) : Prop :=
  ∃ token, source.slice span = .ok token ∧
    (inStep token.raw.toList → EndsFor quotes token.raw.toList) ∧
      (EndsFor quotes token.raw.toList → SplitsWhole d.readAttribute source token name)

/-! ## The last slash -/

/-- The text ends in a slash, but for blanks. -/
def endsInSlash (cs : List Char) : Bool := (Text.trimEnd Text.isBlank cs).getLast? == some '/'

/-- The last of the attributes does. -/
def lastEndsInSlash (attributes : List Attribute) : Bool :=
  attributes.getLast?.any fun a => endsInSlash a.token.raw.toList

/-- Blanks at the end do not count… -/
theorem endsInSlash_append_of_blank {blanks : List Char}
    (h : ∀ c ∈ blanks, Text.isBlank c = true) :
    endsInSlash (cs ++ blanks) = endsInSlash cs := by
  have hnone : blanks.reverse.dropWhile Text.isBlank = [] :=
    List.dropWhile_eq_nil_iff.2 fun c hc => h c (List.mem_reverse.1 hc)
  simp [endsInSlash, Text.trimEnd, List.reverse_append, List.dropWhile_append, hnone]

/-- …and before other characters so do all. -/
theorem endsInSlash_append {as bs : List Char} (h : ∃ c ∈ bs, Text.isBlank c = false) :
    endsInSlash (as ++ bs) = endsInSlash bs := by
  obtain ⟨c, hc, hblank⟩ := h
  have hsome : bs.reverse.dropWhile Text.isBlank ≠ [] := fun hnil => by
    simpa [hblank] using List.dropWhile_eq_nil_iff.1 hnil c (List.mem_reverse.2 hc)
  obtain ⟨d, others, hvisible⟩ := List.exists_cons_of_ne_nil hsome
  simp [endsInSlash, Text.trimEnd, List.reverse_append, List.dropWhile_append, hvisible]

theorem endsInSlash_of_not_mem (h : '/' ∉ cs) : endsInSlash cs = false := by
  refine beq_eq_false_iff_ne.2 fun hlast => h ?_
  have hmem := List.mem_of_getLast? hlast
  rw [Text.trimEnd, List.mem_reverse] at hmem
  exact List.mem_reverse.1 ((List.dropWhile_suffix _).mem hmem)

/-- A text that ends in a slash at once is one that does but for blanks, and has none at its end. -/
theorem getLast?_eq_slash_iff : cs.getLast? = some '/' ↔
    endsInSlash cs = true ∧ ∀ c, cs.getLast? = some c → Text.isBlank c = false := by
  rcases List.eq_nil_or_concat cs with rfl | ⟨cs, c, rfl⟩
  · simp [endsInSlash_of_not_mem]
  · rw [List.concat_eq_append, List.getLast?_concat]
    by_cases hc : Text.isBlank c = true
    · have hslash : c ≠ '/' := by
        rintro rfl
        exact absurd hc (by decide)
      simp [hslash, hc]
    · have hvisible : Text.isBlank c = false := by simpa using hc
      have hends : endsInSlash (cs ++ [c]) = (c == '/') := by
        rw [endsInSlash_append ⟨c, List.mem_singleton_self c, hvisible⟩]
        simp [endsInSlash, Text.trimEnd, hvisible]
      simp [hends, hvisible]

/-- A slash closes a tag of which only blanks are left. -/
theorem isClosingSlash_of_blank {blanks : List Char} (h : ∀ c ∈ blanks, Text.isBlank c = true) :
    isClosingSlash ('/' :: (blanks ++ ['>'])) = true := by
  rw [isClosingSlash, List.dropWhile_append_of_pos h]
  rfl

namespace Filled

variable {offset : Nat} {attributes : List Attribute} {selfClosing : Bool}

/-- What is filled ends in a bracket. -/
theorem eq_append (h : Filled source offset cs attributes selfClosing) :
    cs = cs.dropLast ++ ['>'] := by
  induction h with
  | bracket => rfl
  | slash => rw [← List.cons_append, List.dropLast_concat]
  | @gap offset c cs _ _ _ _ ih =>
    rw [ih, ← List.cons_append, List.dropLast_concat]
  | @cons offset c text cs _ _ _ _ _ _ _ ih =>
    rw [ih, ← List.append_assoc, List.dropLast_concat]

theorem dropLast_append (h : Filled source offset cs attributes selfClosing) (as : List Char) :
    (as ++ cs).dropLast = as ++ cs.dropLast := by
  rw [h.eq_append, ← List.append_assoc, List.dropLast_concat, List.dropLast_concat]

/-- **Nothing but blanks stands before the bracket** exactly if there is no attribute and no closing
slash. -/
theorem blank_iff (h : Filled source offset cs attributes selfClosing) :
    (∀ c ∈ cs.dropLast, Text.isBlank c = true) ↔ attributes = [] ∧ selfClosing = false := by
  induction h with
  | bracket => simp
  | slash =>
    rw [← List.cons_append, List.dropLast_concat]
    simp only [List.forall_mem_cons, Bool.true_eq_false, and_false, iff_false]
    exact fun hblank => absurd hblank.1 (by decide)
  | @gap offset c cs attributes selfClosing separates rest ih =>
    have hdrop : (c :: cs).dropLast = c :: cs.dropLast := rest.dropLast_append [c]
    rw [hdrop, List.forall_mem_cons, ih]
    refine and_iff_right_of_imp fun hnone => separates.resolve_right fun hslash => ?_
    obtain ⟨rfl, hopen⟩ := hslash
    rw [rest.eq_append, isClosingSlash_of_blank (ih.2 hnone)] at hopen
    exact Bool.false_ne_true hopen.symm
  | @cons offset c text cs a attributes selfClosing raw begins slice rest ih =>
    have hdrop : (c :: text ++ cs).dropLast = c :: (text ++ cs.dropLast) :=
      rest.dropLast_append (c :: text)
    rw [hdrop, List.forall_mem_cons, begins.1]
    simp

/-- **The brackets of a tag** are the last one and those in its attributes. -/
theorem count_bracket (h : Filled source offset cs attributes selfClosing) :
    cs.count '>' = (attributes.flatMap fun a => a.token.raw.toList).count '>' + 1 := by
  induction h with
  | bracket => rfl
  | @slash offset blanks blank =>
    have hnone : blanks.count '>' = 0 :=
      List.count_eq_zero.2 fun hmem => absurd (blank _ hmem) (by decide)
    simp [hnone]
  | @gap offset c cs attributes selfClosing separates rest ih =>
    have hc : c ≠ '>' := by
      rintro rfl
      exact absurd separates (by simp [Text.isBlank])
    rw [List.count_cons_of_ne hc, ih]
  | @cons offset c text cs a attributes selfClosing raw begins slice rest ih =>
    rw [List.count_append, ih, List.flatMap_cons, List.count_append, raw, Nat.add_assoc]

/-- Where there is an attribute or a closing slash, what comes before does not count. -/
theorem endsInSlash_append_dropLast (h : Filled source offset cs attributes selfClosing)
    (hany : ¬(attributes = [] ∧ selfClosing = false)) (as : List Char) :
    endsInSlash (as ++ cs.dropLast) = endsInSlash cs.dropLast := by
  refine endsInSlash_append ?_
  rw [← h.blank_iff, not_forall] at hany
  obtain ⟨c, hc⟩ := hany
  rw [Classical.not_imp, Bool.not_eq_true] at hc
  exact ⟨c, hc⟩

/-- **A text that attributes fill ends in a slash before its bracket** exactly if the tag closes
itself or its last attribute ends in one. -/
theorem endsInSlash_dropLast (h : Filled source offset cs attributes selfClosing) :
    endsInSlash cs.dropLast = (selfClosing || lastEndsInSlash attributes) := by
  induction h with
  | bracket => rfl
  | @slash offset blanks blank =>
    rw [← List.cons_append, List.dropLast_concat, ← List.singleton_append,
      endsInSlash_append_of_blank blank]
    rfl
  | @gap offset c cs attributes selfClosing separates rest ih =>
    by_cases hnone : attributes = [] ∧ selfClosing = false
    · have hslash : '/' ∉ (c :: cs).dropLast := fun hmem =>
        absurd ((Filled.gap separates rest).blank_iff.2 hnone _ hmem) (by decide)
      rw [endsInSlash_of_not_mem hslash, hnone.1, hnone.2]
      rfl
    · have hdrop : (c :: cs).dropLast = [c] ++ cs.dropLast := rest.dropLast_append [c]
      rw [hdrop, rest.endsInSlash_append_dropLast hnone, ih]
  | @cons offset c text cs a attributes selfClosing raw begins slice rest ih =>
    rw [rest.dropLast_append]
    by_cases hnone : attributes = [] ∧ selfClosing = false
    · rw [endsInSlash_append_of_blank (rest.blank_iff.2 hnone), hnone.1, hnone.2, ← raw]
      rfl
    · rw [rest.endsInSlash_append_dropLast hnone, ih]
      cases attributes with
      | nil =>
        have hclosing : selfClosing = true := by simpa using hnone
        rw [hclosing, Bool.true_or, Bool.true_or]
      | cons b others => rw [lastEndsInSlash, lastEndsInSlash, List.getLast?_cons_cons]

end Filled

/-- Nothing in the name of such a tag ends a name. -/
theorem Whole.isNameEnd_of_mem {tag : StartTag} {token : Token} (h : tag.Whole source token) :
    ∀ c ∈ tag.name.toList, Text.isNameEnd c = false := by
  obtain ⟨hraw, -⟩ := h
  have hinner : token.raw.toList.drop 1 = tag.name.toList ++ behindName token.raw.toList :=
    congrArg (List.drop 1) hraw
  have hspan := List.takeWhile_append_dropWhile (p := fun c => !Text.isNameEnd c)
    (l := token.raw.toList.drop 1)
  have hname := List.append_cancel_right (hspan.trans hinner)
  rw [← hname]
  exact fun c hc => by simpa using List.mem_takeWhile_imp hc

/-- **A tag that accounts for its token ends in a slash before its bracket** exactly if it closes
itself or its last attribute ends in one. -/
theorem Whole.endsInSlash_dropLast {tag : StartTag} {token : Token} (h : tag.Whole source token) :
    endsInSlash token.raw.toList.dropLast =
      (tag.selfClosing || lastEndsInSlash tag.attributes) := by
  have hname := h.isNameEnd_of_mem
  obtain ⟨hraw, hfilled⟩ := h
  rw [hraw, ← List.cons_append, hfilled.dropLast_append]
  by_cases hnone : tag.attributes = [] ∧ tag.selfClosing = false
  · have hslash : '/' ∉ '<' :: tag.name.toList := by
      rw [List.mem_cons, not_or]
      exact ⟨by decide, fun hmem => absurd (hname _ hmem) (by decide)⟩
    rw [endsInSlash_append_of_blank (hfilled.blank_iff.2 hnone), endsInSlash_of_not_mem hslash,
      hnone.1, hnone.2]
    rfl
  · rw [hfilled.endsInSlash_append_dropLast hnone, hfilled.endsInSlash_dropLast]

end StartTag

end Markup
