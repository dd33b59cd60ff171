import Markup.Config
import Markup.Expression
import Markup.Html.Tag
import Markup.StartTag
import Markup.Svelte.Fault

/-!
# Svelte/Tag — the tags of a template, each up to its end

A tag in braces ends where its expression does; a start tag ends at a bracket **outside of quotes
and expressions**; an end tag has to name the element that is open.  For each of them
`append_of_…` says that what was read and what was not are the text.
-/

namespace Markup.Svelte

/-- The name that a text begins with. -/
def leadingName (cs : List Char) : List Char := cs.takeWhile fun c => !Text.isNameEnd c

/-- What follows the name that a text begins with. -/
def afterName (cs : List Char) : List Char := cs.dropWhile fun c => !Text.isNameEnd c

theorem leadingName_append_afterName (cs : List Char) : leadingName cs ++ afterName cs = cs :=
  List.takeWhile_append_dropWhile

/-! ## Tags in braces -/

/-- A tag in braces: its text without the braces and the white space beside them, and what follows
it. -/
structure BraceTag where
  inner : List Char
  raw : List Char
  rest : List Char

/-- The tag in braces that a text begins with. -/
def braceTag? : List Char → Option BraceTag
  | [] => none
  | brace :: cs =>
    match Expression.split? '}' cs with
    | some (inner, close :: rest) => some ⟨Text.trim inner, brace :: (inner ++ [close]), rest⟩
    | _ => none

theorem append_of_braceTag? {cs : List Char} {tag : BraceTag} (h : braceTag? cs = some tag) :
    tag.raw ++ tag.rest = cs ∧ tag.raw ≠ [] := by
  unfold braceTag? at h
  split at h
  · simp at h
  · split at h
    · next hs =>
      simp only [Option.some.injEq] at h
      subst h
      simp [(Expression.append_of_split? hs).1]
    · simp at h

/-- The tag in braces that the text at an offset begins with. -/
def readBraceTag (offset : Nat) (cs : List Char) : Except Rejection BraceTag :=
  match braceTag? cs with
  | some tag => .ok tag
  | none => .error (Fault.openMustache.reject offset (offset + Text.byteSize cs))

theorem readBraceTag_eq_ok {offset : Nat} {cs : List Char} {tag : BraceTag}
    (h : readBraceTag offset cs = .ok tag) : braceTag? cs = some tag := by
  rw [readBraceTag] at h
  split at h
  · simp_all
  · simp at h

/-! ## Start tags -/

/-- What a start tag leaves open. -/
inductive Unclosed where
  | tag
  | value
  | expression
deriving DecidableEq, Repr

/-- A start tag after its name. -/
structure TagTail where
  raw : List Char
  selfClosing : Bool
  rest : List Char

/-- The tail with some text before it. -/
def TagTail.prepend (cs : List Char) (tail : TagTail) : TagTail :=
  { tail with raw := cs ++ tail.raw }

/-- **A start tag after its name**, up to a bracket outside of quotes and expressions; or what is
left open, from there on. -/
def tagTail (cs : List Char) : Except (Unclosed × List Char) TagTail :=
  match cs with
  | [] => .error (.tag, [])
  | c :: cs =>
    if c = '>' then .ok ⟨[c], false, cs⟩
    else if c = '/' ∧ cs.head? = some '>' then .ok ⟨c :: cs.take 1, true, cs.drop 1⟩
    else if c = '"' ∨ c = '\'' then
      match h : cs.dropWhile (· != c) with
      | [] => .error (.value, c :: cs)
      | quote :: rest =>
        have := StartTag.length_lt_of_dropWhile_eq_cons h
        (tagTail rest).map (·.prepend (c :: (cs.takeWhile (· != c) ++ [quote])))
    else if c = '{' then
      match h : Expression.split? '}' cs with
      | some (inner, close :: rest) =>
        have := congrArg List.length (Expression.append_of_split? h).1
        (tagTail rest).map (·.prepend (c :: (inner ++ [close])))
      | _ => .error (.expression, c :: cs)
    else (tagTail cs).map (·.prepend [c])
termination_by cs.length
decreasing_by all_goals simp_all; try omega

theorem TagTail.append_prepend {tail : TagTail} {cs : List Char} (as : List Char)
    (h : tail.raw ++ tail.rest = cs ∧ tail.raw ≠ []) :
    (tail.prepend as).raw ++ (tail.prepend as).rest = as ++ cs ∧ (tail.prepend as).raw ≠ [] :=
  ⟨by simp [prepend, h.1], by simp [prepend, h.2]⟩

theorem append_of_tagTail {cs : List Char} {tail : TagTail} (h : tagTail cs = .ok tail) :
    tail.raw ++ tail.rest = cs ∧ tail.raw ≠ [] := by
  fun_induction tagTail cs generalizing tail with
  | case1 | case4 | case7 => simp at h
  | case2 => cases h; simp
  | case3 =>
    cases h
    exact ⟨by simp only [List.cons_append, List.take_append_drop], by simp⟩
  | case5 c cs _ _ _ quote rest hd _ ih =>
    obtain ⟨tail, htail, rfl⟩ := Except.map_eq_ok.1 h
    have hspan := List.takeWhile_append_dropWhile (p := (· != c)) (l := cs)
    rw [hd] at hspan
    have htext := TagTail.append_prepend (c :: (cs.takeWhile (· != c) ++ [quote])) (ih htail)
    simpa [hspan] using htext
  | case6 cs inner close rest hs _ _ _ _ ih =>
    obtain ⟨tail, htail, rfl⟩ := Except.map_eq_ok.1 h
    have htext := TagTail.append_prepend ('{' :: (inner ++ [close])) (ih htail)
    simpa [(Expression.append_of_split? hs).1] using htext
  | case8 c cs _ _ _ _ ih =>
    obtain ⟨tail, htail, rfl⟩ := Except.map_eq_ok.1 h
    exact TagTail.append_prepend [c] (ih htail)

/-- Elements of the name have no content; a component never counts as one of them. -/
def isVoidName (name : String) : Bool :=
  (Html.TagRule.ofName name).isVoid && !name.toList.head?.any Char.isUpper

/-! ## End tags -/

/-- Why a text cannot go on with an end tag, a clause or a closing tag here. -/
def unexpected (offset : Nat) (cs : List Char) : Rejection :=
  match cs with
  | '<' :: '/' :: after =>
    let name := leadingName after
    (Fault.strayEndTag (String.ofList name)).reject offset (offset + 2 + Text.byteSize name)
  | _ => Fault.strayBlockTag.reject offset (offset + 2)

/-- The end tag of an element. -/
def endTag (config : Config) (name : String) (startTag : Span) (offset : Nat) (cs : List Char) :
    Except Rejection (List Char × List Char) :=
  match cs with
  | [] => .error ((Fault.openElement name).reject startTag.start startTag.stop)
  | '<' :: '/' :: after =>
    let closing := leadingName after
    let stop := offset + 2 + Text.byteSize closing
    if config.namesMatch (String.ofList closing) name then
      let blanks := (afterName after).takeWhile Text.isBlank
      let place := stop + Text.byteSize blanks
      match (afterName after).dropWhile Text.isBlank with
      | '>' :: rest => .ok ('<' :: '/' :: (closing ++ blanks ++ ['>']), rest)
      | _ => .error (Fault.noBracket.reject place place)
    else .error ((Fault.mismatch (String.ofList closing) name).reject offset stop)
  | _ => .error (unexpected offset cs)

theorem append_of_endTag {config : Config} {name : String} {startTag : Span} {offset : Nat}
    {cs raw rest : List Char} (h : endTag config name startTag offset cs = .ok (raw, rest)) :
    raw ++ rest = cs ∧ raw ≠ [] := by
  unfold endTag at h
  split at h
  · simp at h
  · next after =>
    simp only at h
    split at h
    · split at h
      · next rest hd =>
        simp only [Except.ok.injEq, Prod.mk.injEq] at h
        obtain ⟨rfl, rfl⟩ := h
        have hspan := List.takeWhile_append_dropWhile (p := Text.isBlank) (l := afterName after)
        rw [hd] at hspan
        simp [hspan, leadingName_append_afterName]
      · simp at h
    · simp at h
  · simp at h

end Markup.Svelte
