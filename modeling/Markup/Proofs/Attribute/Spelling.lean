import Markup.Proofs.Attribute.Lossless
import Markup.Proofs.Text.Search
import Markup.Proofs.Text.Slice

/-!
# Proofs/Attribute/Spelling — an attribute that is written is recognized

An attribute is written as a name alone, with a value as it is, or with a value between quotes of
the dialect, and with any blanks between the parts.  The three **begin alike**, so each stage of the
recognizer is told apart by the one character that follows: `nameOf_append` ends the name,
`name_equal` finds the equal sign behind the blanks, and the value begins with a quote or not.  The
recognizer then gives back the layout that was written, and the text behind it
(`recognize_spelled`).
-/

namespace Markup

/-- **A value between quotes is closed by the quote behind it**, and by none before. -/
def Quote.Closes (q : Quote) (value tail : List Char) : Prop :=
  match q.kind with
  | .text => q.closing ∉ value
  | .script =>
    Expression.endOffset? q.closing (value ++ q.closing :: tail) 0 = some (Text.byteSize value)

namespace Attribute

open Recognizer

/-- **What is written behind a name**: nothing, or an equal sign with blanks on both sides and a
value. -/
inductive Spelling where
  | bare
  | unquoted (spacesBeforeEqual spacesAfterEqual value : List Char)
  | quoted (spacesBeforeEqual spacesAfterEqual : List Char) (quote : Quote) (value : List Char)
deriving DecidableEq, Repr

/-- …as it is written. -/
def Spelling.text : Spelling → List Char
  | .bare => []
  | .unquoted before behind value => before ++ '=' :: (behind ++ value)
  | .quoted before behind quote value =>
    before ++ '=' :: (behind ++ quote.opening :: (value ++ [quote.closing]))

/-- **An attribute to be written.** -/
structure Spelled where
  spacesBeforeName : List Char
  name : List Char
  value : Spelling
deriving DecidableEq, Repr

namespace Spelled

/-- **The attribute as it is written.** -/
def text (a : Spelled) : List Char := a.spacesBeforeName ++ (a.name ++ a.value.text)

/-- The parts of the attribute. -/
def layout (a : Spelled) : Layout (List Char) :=
  match a.value with
  | .bare => ⟨a.spacesBeforeName, a.name, [], [], [], [], [], []⟩
  | .unquoted before behind value =>
    ⟨a.spacesBeforeName, a.name, before, ['='], behind, [], value, []⟩
  | .quoted before behind quote value =>
    ⟨a.spacesBeforeName, a.name, before, ['='], behind, [quote.opening], value, [quote.closing]⟩

/-- The quote around the value. -/
def quote? (a : Spelled) : Option Quote :=
  match a.value with
  | .quoted _ _ quote _ => some quote
  | .bare | .unquoted .. => none

/-- What is to be recognized of it before another text. -/
def parts (a : Spelled) (tail : List Char) : Parts :=
  { a.layout with leftover := tail, quote := a.quote? }

end Spelled

/-- **A value that can be written before a text.**  A name alone must not go on into the text, nor
find its equal sign there; a value without quotes ends where the rules say, and does not begin as
another value would; a value in quotes is closed by its own. -/
def Spelling.Fits (rules : Rules) (tail : List Char) : Spelling → Prop
  | .bare =>
    (∀ c, tail.head? = some c →
      isNameStop c = true ∨ (Quote.opened? rules.quotes c).isSome = true) ∧
      (tail.dropWhile Text.isBlank).head? ≠ some '='
  | .unquoted before behind value =>
    Text.Blanks before ∧ Text.Blanks behind ∧ value ≠ [] ∧
      (∀ c ∈ value, Text.isBlank c = false ∧ c ∉ rules.unquotedEnd) ∧
      (∀ c, value.head? = some c → c ≠ '>' ∧ Quote.opened? rules.quotes c = none) ∧
      ∀ c, tail.head? = some c → Text.isBlank c = true ∨ c ∈ rules.unquotedEnd
  | .quoted before behind quote value =>
    Text.Blanks before ∧ Text.Blanks behind ∧
      Quote.opened? rules.quotes quote.opening = some quote ∧ quote.Closes value tail

/-- **An attribute that can be written before a text** by the rules of a dialect: only the first
character of its name may be one that opens a quote, and the name begins no spread. -/
structure Spelled.Fits (rules : Rules) (a : Spelled) (tail : List Char) : Prop where
  blanks : Text.Blanks a.spacesBeforeName
  name_ne : a.name ≠ []
  name : ∀ c ∈ a.name, isNameStop c = false
  unopened : ∀ c ∈ a.name.tail, Quote.opened? rules.quotes c = none
  noSpread : startsSpread rules.quotes (a.name ++ (a.value.text ++ tail)) = false
  value : a.value.Fits rules tail

namespace Recognizer

variable {rules : Rules} {p : Parts} {c : Char}
  {blanks word before behind value rest tail : List Char}

/-- What a name can hold is no blank and does not end the tag. -/
theorem of_isNameStop_eq_false (h : isNameStop c = false) :
    Text.isBlank c = false ∧ c ≠ '>' ∧ c ≠ '/' := by
  simp only [isNameStop, Bool.or_eq_false_iff, beq_eq_false_iff_ne] at h
  exact ⟨h.1.1.1, h.1.2, h.2⟩

/-! ## Names -/

/-- **A name ends where a character follows that it cannot hold.** -/
theorem nameOf_append {quotes : List Quote} (hne : word ≠ [])
    (hstop : ∀ d ∈ word, isNameStop d = false)
    (hopened : ∀ d ∈ word.tail, Quote.opened? quotes d = none)
    (hend : ∀ d, rest.head? = some d →
      isNameStop d = true ∨ (Quote.opened? quotes d).isSome = true) :
    nameOf quotes (word ++ rest) = word := by
  obtain ⟨c, word, rfl⟩ := List.exists_cons_of_ne_nil hne
  rw [List.forall_mem_cons] at hstop
  have hinside : ∀ d ∈ word, (!isNameStop d && (Quote.opened? quotes d).isNone) = true := by
    intro d hd
    simp [hstop.2 d hd, hopened d hd]
  have hbehind : ∀ d, rest.head? = some d →
      (!isNameStop d && (Quote.opened? quotes d).isNone) = false := by
    intro d hd
    rcases hend d hd with hstops | hopens
    · simp [hstops]
    · simp [hopens]
  rw [List.cons_append, nameOf, hstop.1, if_neg Bool.false_ne_true,
    Text.takeWhile_append_of_ends hinside hbehind]

/-- **A name with an equal sign behind it**, wherever that stands, goes on with its value. -/
theorem name_equal (hname : nameOf rules.quotes (word ++ (before ++ '=' :: rest)) = word)
    (hbefore : Text.Blanks before) :
    name rules (named blanks []) (word ++ (before ++ '=' :: rest)) =
      beforeValue rules { named blanks word with spacesBeforeEqual := before, equal := ['='] }
        rest := by
  have hequal : Text.isBlank '=' = false := by decide
  simp only [name, hname, List.drop_left]
  cases before with
  | nil => rfl
  | cons d before =>
    have hblank := hbefore d List.mem_cons_self
    have hd : d ≠ '=' := by
      rintro rfl
      exact absurd hblank (by decide)
    have htake := Text.takeWhile_blanks hbefore hequal rest
    have hdrop := Text.dropWhile_blanks hbefore hequal rest
    rw [List.cons_append] at htake hdrop ⊢
    split
    · next heq => exact absurd (List.cons.inj heq).1 hd
    · simp only [List.head?_cons, Option.any_some, hblank, if_true, beforeEqual, hdrop, htake]
      rfl

/-- **A name alone** leaves what follows it. -/
theorem name_bare (hname : nameOf rules.quotes (word ++ tail) = word)
    (hequal : (tail.dropWhile Text.isBlank).head? ≠ some '=') :
    name rules (named blanks []) (word ++ tail) =
      .ok { named blanks word with leftover := tail } := by
  simp only [name, hname, List.drop_left]
  split
  · exact absurd rfl hequal
  · split
    · rw [beforeEqual]
      split
      · next hrest => exact absurd (congrArg List.head? hrest) hequal
      · rfl
    · rfl

/-! ## Values -/

/-- The quote that closes a value is found. -/
theorem closeValue?_append {q : Quote} (h : q.Closes value tail) :
    closeValue? q (value ++ q.closing :: tail) = some (value, q.closing :: tail) := by
  cases hkind : q.kind with
  | text =>
    simp only [Quote.Closes, hkind] at h
    simp only [closeValue?, hkind]
    exact Text.cut_singleton h
  | script =>
    simp only [Quote.Closes, hkind, Expression.endOffset?, Text.dropBytes?, Option.bind_some] at h
    simp only [closeValue?, hkind]
    obtain ⟨⟨as, bs⟩, hsplit, hsize⟩ := Option.map_eq_some_iff.1 h
    obtain ⟨happend, -⟩ := Expression.append_of_split? hsplit
    rw [Nat.zero_add] at hsize
    obtain ⟨rfl, rfl⟩ := Text.append_inj_of_byteSize happend hsize
    exact hsplit

/-- **A value in quotes** is read up to the one that closes it… -/
theorem beforeValue_quoted {q : Quote} (hp : p.equal ≠ []) (hbehind : Text.Blanks behind)
    (hblank : Text.isBlank q.opening = false)
    (hopened : Quote.opened? rules.quotes q.opening = some q) (hclose : q.Closes value tail) :
    beforeValue rules p (behind ++ q.opening :: (value ++ q.closing :: tail)) =
      .ok { p with
        spacesAfterEqual := behind, startQuote := [q.opening], value, endQuote := [q.closing]
        leftover := tail, quote := some q } := by
  have hsign : (p.name.isEmpty && p.equal.isEmpty) = false := by simp [hp]
  simp only [beforeValue, hsign, Text.takeWhile_blanks hbehind hblank,
    Text.dropWhile_blanks hbehind hblank, hopened, Bool.false_and, Bool.false_eq_true, if_false]
  rw [quotedValue, if_neg (by simp)]
  simp only [Option.getD_some, closeValue?_append hclose, List.drop_one, List.tail_cons]

/-- …and **one without quotes** up to where the rules end it. -/
theorem beforeValue_unquoted (hp : p.equal ≠ []) (hbehind : Text.Blanks behind)
    (hinside : ∀ d ∈ c :: value, Text.isBlank d = false ∧ d ∉ rules.unquotedEnd)
    (hbegins : c ≠ '>' ∧ Quote.opened? rules.quotes c = none)
    (hend : ∀ d, tail.head? = some d → Text.isBlank d = true ∨ d ∈ rules.unquotedEnd) :
    beforeValue rules p (behind ++ c :: (value ++ tail)) =
      .ok { p with spacesAfterEqual := behind, value := c :: value, leftover := tail } := by
  have hsign : (p.name.isEmpty && p.equal.isEmpty) = false := by simp [hp]
  have hblank := (hinside c List.mem_cons_self).1
  have hgoes : ∀ d ∈ c :: value,
      (!(Text.isBlank d || rules.unquotedEnd.contains d)) = true := by
    intro d hd
    simp [hinside d hd]
  have hstops : ∀ d, tail.head? = some d →
      (!(Text.isBlank d || rules.unquotedEnd.contains d)) = false := by
    intro d hd
    rcases hend d hd with hends | hends <;> simp [hends]
  simp only [beforeValue, hsign, Text.takeWhile_blanks hbehind hblank,
    Text.dropWhile_blanks hbehind hblank, hbegins.2, Bool.false_and, Bool.false_eq_true, if_false,
    if_neg hbegins.1, unquotedValue]
  rw [← List.cons_append, Text.takeWhile_append_of_ends hgoes hstops,
    Text.dropWhile_append_of_ends hgoes hstops]

/-! ## Attributes -/

/-- **What does not end the tag behind the blanks is a name**, unless it is a spread. -/
theorem beforeName_append (hblanks : Text.Blanks blanks) (hne : word ≠ [])
    (hstop : ∀ d ∈ word, isNameStop d = false)
    (hspread : startsSpread rules.quotes (word ++ rest) = false) :
    beforeName rules .empty (blanks ++ (word ++ rest)) =
      name rules (named blanks []) (word ++ rest) := by
  obtain ⟨c, word, rfl⟩ := List.exists_cons_of_ne_nil hne
  obtain ⟨hblank, hbracket, hslash⟩ := of_isNameStop_eq_false (hstop c List.mem_cons_self)
  rw [List.cons_append] at hspread ⊢
  simp only [beforeName, Text.takeWhile_blanks hblanks hblank,
    Text.dropWhile_blanks hblanks hblank, hspread, hbracket, hslash, Bool.false_eq_true, false_and,
    or_self, if_false]
  rfl

end Recognizer

/-- **A written attribute is recognized**: where attributes begin with their names, and no quote is
opened by a blank, the recognizer gives back the parts that were written, the quote around the value
and the text that follows. -/
theorem recognize_spelled {rules : Rules} (hstart : rules.start = .beforeName)
    (hquotes : ∀ q ∈ rules.quotes, Text.isBlank q.opening = false) {a : Spelled} {tail : List Char}
    (h : a.Fits rules tail) : recognize rules (a.text ++ tail) = .ok (a.parts tail) := by
  obtain ⟨blanks, word, spelling⟩ := a
  obtain ⟨hblanks, hne, hstop, hunopened, hspread, hvalue⟩ := h
  suffices hname : name rules (named blanks []) (word ++ (spelling.text ++ tail)) =
      .ok (Spelled.parts ⟨blanks, word, spelling⟩ tail) by
    rw [recognize, start, hstart, Spelled.text, List.append_assoc, List.append_assoc]
    simp only [beforeName_append hblanks hne hstop hspread, hname]
  -- Blanks and an equal sign end the name, whatever value they are followed by.
  have hequal : ∀ {before rest : List Char}, Text.Blanks before →
      nameOf rules.quotes (word ++ (before ++ '=' :: rest)) = word := by
    intro before rest hbefore
    refine nameOf_append hne hstop hunopened fun d hd => Or.inl ?_
    cases before with
    | nil => exact Option.some.inj hd ▸ rfl
    | cons c before =>
      obtain rfl := Option.some.inj hd
      simp [isNameStop, hbefore c List.mem_cons_self]
  cases spelling with
  | bare => exact name_bare (nameOf_append hne hstop hunopened hvalue.1) hvalue.2
  | unquoted before behind value =>
    obtain ⟨hbefore, hbehind, hvalued, hinside, hbegins, hend⟩ := hvalue
    obtain ⟨c, value, rfl⟩ := List.exists_cons_of_ne_nil hvalued
    have htext : Spelling.text (.unquoted before behind (c :: value)) ++ tail =
        before ++ '=' :: (behind ++ c :: (value ++ tail)) := by
      simp [Spelling.text]
    rw [htext, name_equal (hequal hbefore) hbefore,
      beforeValue_unquoted (List.cons_ne_nil _ _) hbehind hinside (hbegins c rfl) hend]
    rfl
  | quoted before behind q value =>
    obtain ⟨hbefore, hbehind, hopened, hclose⟩ := hvalue
    have htext : Spelling.text (.quoted before behind q value) ++ tail =
        before ++ '=' :: (behind ++ q.opening :: (value ++ q.closing :: tail)) := by
      simp [Spelling.text]
    rw [htext, name_equal (hequal hbefore) hbefore, beforeValue_quoted (List.cons_ne_nil _ _)
      hbehind (hquotes q (List.mem_of_find?_eq_some hopened)) hopened hclose]
    rfl

/-- Rules with quotes around text and around scripts, where a slash ends a value, too. -/
def slashedRules : Rules := ⟨[.double, .braces], .beforeName, ['>', '/']⟩

/-- A script with a brace in a string, behind a name that begins with a quote. -/
def spelledScript : Spelled :=
  ⟨[' ', '\n'], ['"', 'é'], .quoted ['\t'] [' '] .braces ['f', '(', '{', '\'', '}', '\'', '}', ')']⟩

theorem fits_spelledScript : spelledScript.Fits slashedRules ['='] where
  blanks := List.all_eq_true.1 (by decide)
  name_ne := List.cons_ne_nil _ _
  name := by simp [spelledScript, isNameStop, Text.isBlank]
  unopened := List.forall_mem_singleton.2 rfl
  noSpread := rfl
  value := ⟨List.all_eq_true.1 (by decide), List.all_eq_true.1 (by decide), rfl, rfl⟩

/-- A value that holds an equal sign and a quote. -/
def spelledPlainly : Spelled := ⟨[], ['a', ':', 'b'], .unquoted [] ['\r'] ['c', '=', '"']⟩

theorem fits_spelledPlainly : spelledPlainly.Fits slashedRules ['/', '>'] where
  blanks := List.forall_mem_nil _
  name_ne := List.cons_ne_nil _ _
  name := by simp [spelledPlainly, isNameStop, Text.isBlank]
  unopened := List.forall_mem_cons.2 ⟨rfl, List.forall_mem_singleton.2 rfl⟩
  noSpread := rfl
  value := by
    refine ⟨List.forall_mem_nil _, List.all_eq_true.1 (by decide), List.cons_ne_nil _ _, ?_, ?_, ?_⟩
    · simp [slashedRules, Text.isBlank]
    · rintro _ ⟨⟩
      exact ⟨by decide, rfl⟩
    · rintro _ ⟨⟩
      exact Or.inr (by decide)

/-- A name that begins as a spread would. -/
def spelledName : Spelled := ⟨['\t'], ['{', '.', '.'], .bare⟩

theorem fits_spelledName : spelledName.Fits slashedRules ['"', '='] where
  blanks := List.all_eq_true.1 (by decide)
  name_ne := List.cons_ne_nil _ _
  name := by simp [spelledName, isNameStop, Text.isBlank]
  unopened := List.forall_mem_cons.2 ⟨rfl, List.forall_mem_singleton.2 rfl⟩
  noSpread := rfl
  value := by
    refine ⟨?_, by decide⟩
    rintro _ ⟨⟩
    exact Or.inr rfl

theorem recognize_spelled_slashed :
    slashedRules.start = .beforeName ∧
      (∀ q ∈ slashedRules.quotes, Text.isBlank q.opening = false) ∧
      (spelledScript.Fits slashedRules ['='] ∧
        recognize slashedRules (spelledScript.text ++ ['=']) = .ok (spelledScript.parts ['='])) ∧
      (spelledPlainly.Fits slashedRules ['/', '>'] ∧
        recognize slashedRules (spelledPlainly.text ++ ['/', '>']) =
          .ok (spelledPlainly.parts ['/', '>'])) ∧
      spelledName.Fits slashedRules ['"', '='] ∧
        recognize slashedRules (spelledName.text ++ ['"', '=']) =
          .ok (spelledName.parts ['"', '=']) := by
  have hquotes : ∀ q ∈ slashedRules.quotes, Text.isBlank q.opening = false := by decide
  exact ⟨rfl, hquotes, ⟨fits_spelledScript, recognize_spelled rfl hquotes fits_spelledScript⟩,
    ⟨fits_spelledPlainly, recognize_spelled rfl hquotes fits_spelledPlainly⟩, fits_spelledName,
    recognize_spelled rfl hquotes fits_spelledName⟩

end Attribute

end Markup
