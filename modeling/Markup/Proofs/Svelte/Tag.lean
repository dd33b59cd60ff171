import Mathlib.Data.List.TakeWhile
import Markup.Proofs.Expression
import Markup.Proofs.Text.Search
import Markup.Svelte.Tag

/-!
# Proofs/Svelte/Tag — a tag is known by its own text

Reading stops at the character that ends an expression or a tag, whatever follows, so a piece of
text that a tag was read from **is that tag wherever it stands**: `IsBraceTag`, `IsStartTag`,
`IsEndTag` and `IsComment` say so of the text alone.
-/

namespace Markup

/-- A text that begins with no white space keeps its first character. -/
theorem Text.trim_cons_of_not {c : Char} {cs : List Char} (h : isSpace c = false) :
    trim (c :: cs) = c :: trimEnd isSpace cs := by
  rw [trim, List.dropWhile_cons_of_neg (by simp [h]), trimEnd, trimEnd, List.reverse_cons,
    List.dropWhile_append]
  split
  · next hempty => simp [List.isEmpty_iff.1 hempty, h]
  · simp

namespace Svelte

/-! ## Tags in braces -/

/-- **The text is one tag in braces**: it ends where the expression inside does, which is this text
but for the white space around it. -/
inductive IsBraceTag : List Char → List Char → Prop
  | intro {written inner : List Char} (trims : Text.trim written = inner)
      (split : Expression.split? '}' (written ++ ['}']) = some (written, ['}'])) :
      IsBraceTag ('{' :: (written ++ ['}'])) inner

theorem IsBraceTag.exists_append {raw inner : List Char} (h : IsBraceTag raw inner) :
    ∃ written, raw = '{' :: (written ++ ['}']) := by
  obtain ⟨-⟩ := h
  exact ⟨_, rfl⟩

theorem IsBraceTag.exists_cons {raw inner : List Char} (h : IsBraceTag raw inner) :
    ∃ tail, raw = '{' :: tail :=
  h.exists_append.imp' _ fun _ => id

/-- The inside of such a text is what is between the braces, trimmed. -/
theorem IsBraceTag.inner_eq {raw inner : List Char} (h : IsBraceTag raw inner) :
    inner = Text.trim raw.tail.dropLast := by
  obtain ⟨trims, -⟩ := h
  rw [List.tail_cons, List.dropLast_concat, trims]

/-- **What `braceTag?` reads behind a brace is such a text.** -/
theorem isBraceTag_of_braceTag? {cs : List Char} {tag : BraceTag}
    (h : braceTag? ('{' :: cs) = some tag) : IsBraceTag tag.raw tag.inner := by
  rw [braceTag?] at h
  split at h
  · next inner close rest hsplit =>
    obtain rfl := Option.some.inj h
    obtain rfl := Expression.eq_close_of_split? hsplit
    exact IsBraceTag.intro rfl (Expression.split?_append hsplit [])
  · simp at h

/-- **The sign of a tag** is the first character inside of it. -/
theorem exists_inner_eq_cons {sign : Char} {cs : List Char} {tag : BraceTag}
    (h : braceTag? ('{' :: sign :: cs) = some tag) (hsign : Text.isSpace sign = false)
    (hstep : (Expression.State.step '}' sign {}).isSome = true) :
    ∃ header, tag.inner = sign :: header := by
  obtain ⟨st, hst⟩ := Option.isSome_iff_exists.1 hstep
  rw [braceTag?, Expression.split?, Expression.scan, hst] at h
  simp only at h
  cases hscan : Expression.scan '}' st cs with
  | none => simp [hscan] at h
  | some parts =>
    obtain ⟨as, bs⟩ := parts
    cases bs with
    | nil => simp [hscan] at h
    | cons close rest =>
      obtain rfl := Option.some.inj (by simpa [hscan] using h)
      exact ⟨_, Text.trim_cons_of_not hsign⟩

/-- **The text is an expression in braces**: no sign says that its tag is something else. -/
def IsMustache (raw : List Char) : Prop :=
  ∃ inner, IsBraceTag raw inner ∧ (raw.tail.head? ≠ some ':' ∧ raw.tail.head? ≠ some '/') ∧
    inner.head? ≠ some '#' ∧ inner.head? ≠ some '@'

/-- The sign of a tag that is read stands behind its brace. -/
theorem head?_tail_of_braceTag? {cs : List Char} {tag : BraceTag} {sign : Char} (hsign : sign ≠ '}')
    (h : braceTag? ('{' :: cs) = some tag) (hcs : cs.head? ≠ some sign) :
    tag.raw.tail.head? ≠ some sign := by
  obtain ⟨happ, -⟩ := append_of_braceTag? h
  obtain ⟨written, hraw⟩ := (isBraceTag_of_braceTag? h).exists_append
  rw [hraw, List.cons_append, List.cons.injEq] at happ
  rw [hraw, List.tail_cons]
  rw [← happ.2] at hcs
  cases written with
  | nil => simpa using hsign.symm
  | cons c written => simpa using hcs

/-! ## Comments -/

/-- **The text is one comment**, which its first end ends. -/
inductive IsComment : List Char → Prop
  | intro {body : List Char} (first : ¬Text.commentEnd <:+: body) :
      IsComment ('<' :: '!' :: '-' :: '-' :: (body ++ Text.commentEnd))

/-! ## Start tags -/

/-- **The text of a start tag after its name**, up to the first bracket outside of quotes and
expressions; whether it closes itself. -/
inductive IsTagTail : Bool → List Char → Prop
  | bracket : IsTagTail false ['>']
  | slash : IsTagTail true ['/', '>']
  | quoted {selfClosing : Bool} {quote : Char} {inner cs : List Char}
      (quotes : quote = '"' ∨ quote = '\'') (inside : quote ∉ inner)
      (rest : IsTagTail selfClosing cs) : IsTagTail selfClosing (quote :: (inner ++ quote :: cs))
  | braces {selfClosing : Bool} {inner cs : List Char}
      (split : Expression.split? '}' (inner ++ '}' :: cs) = some (inner, '}' :: cs))
      (rest : IsTagTail selfClosing cs) : IsTagTail selfClosing ('{' :: (inner ++ '}' :: cs))
  | char {selfClosing : Bool} {c : Char} {cs : List Char} (bracket : c ≠ '>')
      (slash : c = '/' → cs.head? ≠ some '>') (quotes : ¬(c = '"' ∨ c = '\'')) (brace : c ≠ '{')
      (rest : IsTagTail selfClosing cs) : IsTagTail selfClosing (c :: cs)

theorem IsTagTail.ne_nil {selfClosing : Bool} {cs : List Char} (h : IsTagTail selfClosing cs) :
    cs ≠ [] := by
  cases h <;> simp

/-- **What `tagTail` reads is such a text.** -/
theorem isTagTail_of_tagTail {cs : List Char} {tail : TagTail} (h : tagTail cs = .ok tail) :
    IsTagTail tail.selfClosing tail.raw := by
  fun_induction tagTail cs generalizing tail with
  | case1 | case4 | case7 => simp at h
  | case2 =>
    cases h
    exact IsTagTail.bracket
  | case3 c cs _ hslash =>
    cases h
    obtain ⟨rfl, hhead⟩ := hslash
    obtain ⟨rest, rfl⟩ := List.head?_eq_some_iff.1 hhead
    exact IsTagTail.slash
  | case5 c cs _ _ hquote quote rest hd _ ih =>
    obtain ⟨tail, htail, rfl⟩ := Except.map_eq_ok.1 h
    have hend : quote = c := by
      have hhead := List.head?_dropWhile_not (· != c) cs
      simpa [hd] using hhead
    subst hend
    have hinside : quote ∉ cs.takeWhile (· != quote) := fun hmem => by
      simpa using List.mem_takeWhile_imp hmem
    have hquoted := IsTagTail.quoted hquote hinside (ih htail)
    simpa [TagTail.prepend] using hquoted
  | case6 cs inner close rest hs _ _ _ _ ih =>
    obtain ⟨tail, htail, rfl⟩ := Except.map_eq_ok.1 h
    obtain rfl := Expression.eq_close_of_split? hs
    have hbraces := IsTagTail.braces (Expression.split?_append hs tail.raw) (ih htail)
    simpa [TagTail.prepend] using hbraces
  | case8 c cs hbracket hslash hquote hbrace ih =>
    obtain ⟨tail, htail, rfl⟩ := Except.map_eq_ok.1 h
    refine IsTagTail.char hbracket (fun hc hhead => hslash ⟨hc, ?_⟩) hquote hbrace (ih htail)
    obtain ⟨happ, hne⟩ := append_of_tagTail htail
    obtain ⟨d, raw, hraw⟩ := List.exists_cons_of_ne_nil hne
    rw [← happ, hraw]
    rwa [hraw] at hhead

/-- **The text of a start tag with its name**; whether it closes itself. -/
inductive IsStartTag : List Char → String → Bool → Prop
  | intro {name tail : List Char} {selfClosing : Bool}
      (letter : name.head?.any Text.isLetter = true) (word : ∀ c ∈ name, Text.isNameEnd c = false)
      (ends : tail.head?.any Text.isNameEnd = true) (rest : IsTagTail selfClosing tail) :
      IsStartTag ('<' :: (name ++ tail)) (String.ofList name) selfClosing

theorem IsStartTag.ne_nil {raw : List Char} {name : String} {selfClosing : Bool}
    (h : IsStartTag raw name selfClosing) : raw ≠ [] := by
  cases h
  simp

/-- **A name and what `tagTail` reads after it are a start tag.** -/
theorem isStartTag_of_tagTail {c : Char} {cs : List Char} {tail : TagTail}
    (hletter : Text.isLetter c = true) (h : tagTail (afterName (c :: cs)) = .ok tail) :
    IsStartTag ('<' :: (leadingName (c :: cs) ++ tail.raw))
      (String.ofList (leadingName (c :: cs))) tail.selfClosing := by
  have hname : Text.isNameEnd c = false := Text.isNameEnd_of_isLetter hletter
  refine IsStartTag.intro ?_ (fun d hd => ?_) ?_ (isTagTail_of_tagTail h)
  · simp [leadingName, hname, hletter]
  · simpa using List.mem_takeWhile_imp hd
  · obtain ⟨happ, hne⟩ := append_of_tagTail h
    obtain ⟨d, raw, hraw⟩ := List.exists_cons_of_ne_nil hne
    have hhead := List.head?_dropWhile_not (fun c => !Text.isNameEnd c) (c :: cs)
    rw [← afterName, ← happ, hraw] at hhead
    simpa [hraw] using hhead

/-! ## End tags -/

/-- **The text of an end tag with its name**, and nothing but blanks behind it. -/
inductive IsEndTag : List Char → String → Prop
  | intro {name blanks : List Char} (word : ∀ c ∈ name, Text.isNameEnd c = false)
      (blank : ∀ c ∈ blanks, Text.isBlank c = true) :
      IsEndTag ('<' :: '/' :: (name ++ blanks ++ ['>'])) (String.ofList name)

/-- **An end tag that is read is such a text**, with a name that is that of the element. -/
theorem isEndTag_of_endTag {config : Config} {name : String} {startTag : Span} {offset : Nat}
    {cs raw rest : List Char} (h : endTag config name startTag offset cs = .ok (raw, rest)) :
    ∃ closing, IsEndTag raw closing ∧ config.namesMatch closing name = true := by
  unfold endTag at h
  split at h
  · cases h
  · next after =>
    simp only at h
    split at h
    · next hmatch =>
      split at h
      · cases h
        refine ⟨_, .intro (fun c hc => ?_) fun c hc => List.mem_takeWhile_imp hc, hmatch⟩
        simpa using List.mem_takeWhile_imp hc
      · cases h
    · cases h
  · cases h

end Svelte

end Markup
