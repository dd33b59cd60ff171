import Markup.Proofs.StartTag
import Markup.Proofs.Svelte.Tag
import Markup.Svelte.Dialect

/-!
# Proofs/Svelte/StartTag — where a start tag ends, for a template and for the splitter

The reader of templates skips **every quoted text and every expression in braces** of a start tag,
the splitter of attributes only those that are values or stand among names.  Where both begin to
skip together (`InStep`), they agree from character to character, and the tag ends for both with the
same bracket (`IsStartTag.endsFor`).  A tag closes itself for the reader if its bracket follows a
slash at once (`IsStartTag.selfClosing_iff`).
-/

namespace Markup.Svelte

/-- Where in a start tag its reader is. -/
inductive TagState where
  | plain
  | quoted (quote : Char)
  | braces (nesting : Expression.State)

/-- **The reader of start tags** as a scanner. -/
def tagScanner : Scanner TagState where
  step c
    | .plain => if c = '"' ∨ c = '\'' then .quoted c else if c = '{' then .braces {} else .plain
    | .quoted quote => if c = quote then .plain else .quoted quote
    | .braces nesting => (nesting.step '}' c).elim .plain .braces
  mayEnd
    | .plain => true
    | _ => false

variable {c quote : Char} {inner cs : List Char}

theorem step_plain : tagScanner.step c .plain =
    if c = '"' ∨ c = '\'' then .quoted c else if c = '{' then .braces {} else .plain := rfl

theorem step_quoted : tagScanner.step c (.quoted quote) =
    if c = quote then .plain else .quoted quote := rfl

theorem step_braces {nesting : Expression.State} : tagScanner.step c (.braces nesting) =
    (nesting.step '}' c).elim .plain .braces := rfl

/-- A quoted text is skipped up to its quote… -/
theorem ends_quoted (h : quote ∉ inner) :
    tagScanner.Ends (.quoted quote) (inner ++ quote :: cs) ↔ tagScanner.Ends .plain cs := by
  induction inner with
  | nil =>
    rw [List.nil_append, Scanner.ends_cons fun hend => Bool.false_ne_true hend.2, step_quoted,
      if_pos rfl]
  | cons c inner ih =>
    rw [List.mem_cons, not_or] at h
    rw [List.cons_append, Scanner.ends_cons fun hend => Bool.false_ne_true hend.2, step_quoted,
      if_neg (Ne.symm h.1), ih h.2]

/-- …and an expression up to where it ends. -/
theorem ends_braces {nesting : Expression.State}
    (h : Expression.scan '}' nesting (inner ++ '}' :: cs) = some (inner, '}' :: cs)) :
    tagScanner.Ends (.braces nesting) (inner ++ '}' :: cs) ↔ tagScanner.Ends .plain cs := by
  induction inner generalizing nesting with
  | nil =>
    have hstep : nesting.step '}' '}' = none := by
      rw [List.nil_append, Expression.scan] at h
      cases hstep : nesting.step '}' '}' with
      | none => rfl
      | some next => simp [hstep] at h
    rw [List.nil_append, Scanner.ends_cons fun hend => Bool.false_ne_true hend.2, step_braces,
      hstep, Option.elim_none]
  | cons c inner ih =>
    rw [List.cons_append, Expression.scan] at h
    rw [List.cons_append, Scanner.ends_cons fun hend => Bool.false_ne_true hend.2, step_braces]
    cases hstep : nesting.step '}' c with
    | none => simp [hstep] at h
    | some next =>
      rw [hstep] at h
      obtain ⟨⟨as, bs⟩, hscan, h⟩ := Option.map_eq_some_iff.1 h
      obtain ⟨has, rfl⟩ := Prod.mk.inj h
      obtain ⟨-, rfl⟩ := List.cons.inj has
      rw [Option.elim_some, ih hscan]

namespace IsTagTail

variable {selfClosing : Bool}

/-- **A start tag ends where its reader says.** -/
theorem ends (h : IsTagTail selfClosing cs) : tagScanner.Ends .plain cs := by
  induction h with
  | bracket => exact Scanner.ends_bracket rfl
  | slash => exact (Scanner.ends_cons (by decide)).2 (Scanner.ends_bracket rfl)
  | @quoted _ quote inner cs quotes inside rest ih =>
    have hbracket : quote ≠ '>' := by
      rintro rfl
      exact absurd quotes (by decide)
    rw [Scanner.ends_cons fun hend => hbracket hend.1, step_plain, if_pos quotes,
      ends_quoted inside]
    exact ih
  | braces split rest ih =>
    rw [Scanner.ends_cons (by decide), step_plain, if_neg (by decide), if_pos rfl,
      ends_braces split]
    exact ih
  | char bracket slash quotes brace rest ih =>
    rw [Scanner.ends_cons fun hend => bracket hend.1, step_plain, if_neg quotes, if_neg brace]
    exact ih

/-- What stands before the end of a tag counts for nothing, if it ends in no slash itself. -/
theorem getLast?_append_iff {as : List Char} (h : IsTagTail selfClosing cs)
    (has : as.getLast? ≠ some '/') :
    (as ++ cs).dropLast.getLast? = some '/' ↔ cs.dropLast.getLast? = some '/' := by
  rw [List.dropLast_append_of_ne_nil h.ne_nil, List.getLast?_append, Option.or_eq_some_iff]
  exact or_iff_left fun hlast => has hlast.2

/-- **A start tag closes itself for its reader** if a slash stands right before the bracket. -/
theorem selfClosing_iff (h : IsTagTail selfClosing cs) :
    selfClosing = true ↔ cs.dropLast.getLast? = some '/' := by
  induction h with
  | bracket => simp
  | slash => simp
  | @quoted _ quote inner cs quotes inside rest ih =>
    have hquote : quote ≠ '/' := by
      rintro rfl
      exact absurd quotes (by decide)
    have hcut : quote :: (inner ++ quote :: cs) = (quote :: inner ++ [quote]) ++ cs := by simp
    have hlast : (quote :: inner ++ [quote]).getLast? ≠ some '/' := by
      rw [List.getLast?_concat]
      exact fun hsome => hquote (Option.some.inj hsome)
    rw [hcut, rest.getLast?_append_iff hlast, ih]
  | @braces _ inner cs split rest ih =>
    have hcut : '{' :: (inner ++ '}' :: cs) = ('{' :: inner ++ ['}']) ++ cs := by simp
    have hlast : ('{' :: inner ++ ['}']).getLast? ≠ some '/' := by
      rw [List.getLast?_concat]
      decide
    rw [hcut, rest.getLast?_append_iff hlast, ih]
  | @char _ c cs bracket slash quotes brace rest ih =>
    rw [ih, ← List.singleton_append]
    by_cases hc : c = '/'
    · -- A slash with nothing but the bracket behind it would have ended the tag.
      have hsome : cs.dropLast ≠ [] := fun hnil => slash hc (by
        rw [rest.ends.eq_append, hnil, List.nil_append, List.head?_cons])
      rw [List.dropLast_append_of_ne_nil rest.ne_nil, List.getLast?_append,
        List.getLast?_eq_some_getLast hsome, Option.some_or]
    · exact (rest.getLast?_append_iff (by simpa using hc)).symm

end IsTagTail

/-! ## The splitter -/

/-- The quotes of the dialect. -/
def tagQuotes : List Quote := [.double, .single, .braces]

theorem opened?_tagQuotes_of_ne (hquote : ¬(c = '"' ∨ c = '\'')) (hbrace : c ≠ '{') :
    Quote.opened? tagQuotes c = none := by
  rw [not_or] at hquote
  simp [Quote.opened?, tagQuotes, Quote.double, Quote.single, Quote.braces, Ne.symm hquote.1,
    Ne.symm hquote.2, Ne.symm hbrace]

theorem script?_tagQuotes :
    Quote.script? tagQuotes c = if c = '{' then some .braces else none := by
  by_cases hbrace : c = '{'
  · subst hbrace
    rfl
  by_cases hquote : c = '"' ∨ c = '\''
  · rcases hquote with rfl | rfl <;> rfl
  · rw [if_neg hbrace, Quote.script?, opened?_tagQuotes_of_ne hquote hbrace, Option.filter_none]

theorem apart_tagQuotes : Quote.Apart tagQuotes := by
  refine ⟨by decide, fun q hq => ?_⟩
  rw [script?_tagQuotes, if_pos rfl] at hq
  rw [← Option.some.inj hq]
  rfl

/-- **The dialect reads attributes as the splitter goes.** -/
theorem splits_readAttribute : AttributeReader.Splits readAttribute tagQuotes := by
  have hrules : ∀ cs, (attributeRules cs).Regular cs ∧ (attributeRules cs).quotes = tagQuotes := by
    intro cs
    refine ⟨⟨apart_tagQuotes, rfl, ?_⟩, rfl⟩
    show (if (cs.dropWhile Text.isBlank).head? = some '{' then _ else _) =
      if ((cs.dropWhile Text.isBlank).head?.bind (Quote.script? tagQuotes)).isSome then _ else _
    cases (cs.dropWhile Text.isBlank).head? with
    | none => rfl
    | some c =>
      rw [Option.bind_some, script?_tagQuotes]
      by_cases hc : c = '{' <;> simp [hc]
  intro source token start stop c tail hslice hcons hc hends
  obtain ⟨a, rest, ha, hne, htext, hown, hrest⟩ :=
    Attribute.splits_read hrules hslice hcons hc hends
  cases a with
  | plain a =>
    refine ⟨.plain (interpret a), rest, ?_, hne, htext, hown, hrest⟩
    simp only [readAttribute, ha, bind, Except.bind]
    rfl
  | spread own spaces =>
    refine ⟨.spread own spaces, rest, ?_, hne, htext, hown, hrest⟩
    simp only [readAttribute, ha, bind, Except.bind]
    rfl

/-- **Where the reader of tags and the splitter are at the same place.** -/
inductive Agree : TagState → Place → Prop
  | plain {place : Place} (mayEnd : place.mayEnd = true) : Agree .plain place
  | quoted (quote : Char) : Agree (.quoted quote) (.quoted quote)
  | braces (nesting : Expression.State) : Agree (.braces nesting) (.script '}' nesting)

namespace Agree

variable {st : TagState} {place : Place}

theorem mayEnd_eq (h : Agree st place) :
    tagScanner.mayEnd st = (splitter tagQuotes).mayEnd place := by
  cases h with
  | plain mayEnd => exact mayEnd.symm
  | quoted => rfl
  | braces => rfl

/-- **They agree on, unless the reader of tags alone begins to skip.** -/
theorem step (h : Agree st place) (c : Char)
    (hskip : tagScanner.mayEnd st = true →
      (splitter tagQuotes).mayEnd ((splitter tagQuotes).step c place) = true →
        tagScanner.mayEnd (tagScanner.step c st) = true) :
    Agree (tagScanner.step c st) ((splitter tagQuotes).step c place) := by
  cases h with
  | plain mayEnd =>
    rw [step_plain] at hskip ⊢
    by_cases hquote : c = '"' ∨ c = '\''
    · rw [if_pos hquote] at hskip ⊢
      -- Only where a value may begin does the splitter skip a quoted text, too.
      cases place with
      | beforeValue => rcases hquote with rfl | rfl <;> exact Agree.quoted _
      | between | bare =>
        rcases hquote with rfl | rfl <;> exact absurd (hskip rfl rfl) Bool.false_ne_true
      | quoted | script => exact absurd mayEnd Bool.false_ne_true
    rw [if_neg hquote] at hskip ⊢
    by_cases hbrace : c = '{'
    · subst hbrace
      rw [if_pos rfl] at hskip ⊢
      cases place with
      | between => exact Agree.braces {}
      | beforeValue => exact Agree.braces {}
      | bare => exact absurd (hskip rfl rfl) Bool.false_ne_true
      | quoted | script => exact absurd mayEnd Bool.false_ne_true
    · rw [if_neg hbrace]
      cases place with
      | between =>
        rw [Splitter.step_between, script?_tagQuotes, if_neg hbrace, Option.elim_none]
        split <;> exact Agree.plain rfl
      | beforeValue =>
        rw [Splitter.step_beforeValue, opened?_tagQuotes_of_ne hquote hbrace, Option.elim_none]
        split <;> exact Agree.plain rfl
      | bare =>
        rw [Splitter.step_bare]
        split <;> exact Agree.plain rfl
      | quoted | script => exact absurd mayEnd Bool.false_ne_true
  | quoted q =>
    have hplace : (splitter tagQuotes).step c (.quoted q) =
        if c = q then .between else .quoted q := rfl
    rw [step_quoted, hplace]
    split
    · exact Agree.plain rfl
    · exact Agree.quoted q
  | braces nesting =>
    have hplace : (splitter tagQuotes).step c (.script '}' nesting) =
        (nesting.step '}' c).elim .between (.script '}') := rfl
    rw [step_braces, hplace]
    cases nesting.step '}' c with
    | none => exact Agree.plain rfl
    | some next => exact Agree.braces next

end Agree

/-- **Wherever the reader of tags begins to skip in a start tag, its splitter does**, too. -/
def InStep (raw : List Char) : Prop :=
  tagScanner.inStep (splitter tagQuotes) .plain .between (StartTag.behindName raw) = true

instance (raw : List Char) : Decidable (InStep raw) := inferInstanceAs (Decidable (_ = true))

namespace IsStartTag

variable {raw : List Char} {name : String} {selfClosing : Bool}

/-- **A start tag in which they are in step ends for the splitter, too.** -/
theorem endsFor (h : IsStartTag raw name selfClosing) (hin : InStep raw) :
    StartTag.EndsFor tagQuotes raw := by
  obtain @⟨name, tail, selfClosing, letter, word, behind, rest⟩ := h
  rw [InStep, StartTag.behindName_eq word behind] at hin
  rw [StartTag.EndsFor, StartTag.behindName_eq word behind]
  exact rest.ends.of_inStep (fun _ _ => Agree.mayEnd_eq) (fun c _ _ hagree => hagree.step c)
    (Agree.plain rfl) hin

/-- …and then it is split without a rest. -/
theorem splitsWhole {source : Source} {span : Span} {token : Token}
    (h : IsStartTag raw name selfClosing) (hslice : source.slice span = .ok token)
    (hraw : token.raw.toList = raw) (hends : StartTag.EndsFor tagQuotes raw) :
    StartTag.SplitsWhole readAttribute source token name := by
  obtain @⟨name, tail, selfClosing, letter, word, behind, rest⟩ := h
  have hne : name ≠ [] := by
    rintro rfl
    exact absurd letter Bool.false_ne_true
  rw [← hraw] at hends
  exact hends.splitsWhole splits_readAttribute apart_tagQuotes hslice hraw hne word behind

/-- What is read of a tag has its name. -/
theorem name_of_read {source : Source} {token : Token} {tag : StartTag}
    (h : IsStartTag token.raw.toList name selfClosing)
    (hread : StartTag.read readAttribute source token = .ok tag) : tag.name = name := by
  generalize hraw : token.raw.toList = raw at h
  obtain @⟨name, tail, selfClosing, letter, word, behind, rest⟩ := h
  exact StartTag.name_of_read hread hraw word behind

/-- **A tag closes itself for its reader** if a slash stands right before the bracket. -/
theorem selfClosing_iff (h : IsStartTag raw name selfClosing) :
    selfClosing = true ↔ raw.dropLast.getLast? = some '/' := by
  obtain @⟨name, tail, selfClosing, letter, word, behind, rest⟩ := h
  have hname : ('<' :: name).getLast? ≠ some '/' := fun hlast => by
    rcases List.mem_cons.1 (List.mem_of_getLast? hlast) with hbracket | hmem
    · exact absurd hbracket (by decide)
    · exact absurd (word _ hmem) (by decide)
  rw [← List.cons_append, rest.getLast?_append_iff hname, rest.selfClosing_iff]

end IsStartTag

end Markup.Svelte
