import Markup.Html.Dialect
import Markup.Proofs.StartTag

/-!
# Proofs/Html/Tag — where a start tag ends, for HTML and for the splitter

The reader of tags is a scanner, too, and **agrees with the splitter of attributes from character to
character**, wherever both begin to skip together (`InStep`).  Then a start tag ends for both with
the same bracket (`IsStartTag.endsFor`), and is split without a rest (`IsStartTag.splitsWhole`).
-/

namespace Markup.Html

/-- **The reader of tags** as a scanner. -/
def tagScanner : Scanner TagState where
  step := TagState.step
  mayEnd := TagState.mayEnd

/-- A tag that has been read ends there. -/
theorem ends_of_tagTail? {st : TagState} {cs as bs : List Char}
    (h : tagTail? st cs = some (as, bs)) : tagScanner.Ends st as := by
  induction cs generalizing st as with
  | nil => simp [tagTail?] at h
  | cons c cs ih =>
    rw [tagTail?] at h
    split at h
    · next hend =>
      obtain ⟨rfl, rfl⟩ : [c] = as ∧ cs = bs := by simpa using h
      obtain ⟨rfl, hmay⟩ := hend
      exact Scanner.ends_bracket hmay
    · next hend =>
      obtain ⟨⟨as', bs'⟩, htail, h⟩ := Option.map_eq_some_iff.1 h
      obtain ⟨rfl, rfl⟩ := Prod.mk.inj h
      exact (Scanner.ends_cons hend).2 (ih htail)

/-- **The text of a start tag with its name.** -/
inductive IsStartTag : List Char → String → Prop
  | intro {name tail : List Char} (letter : name.head?.any Text.isLetter = true)
      (word : ∀ c ∈ name, Text.isNameEnd c = false)
      (behind : tail.head?.any Text.isNameEnd = true) (ends : tagScanner.Ends .plain tail) :
      IsStartTag ('<' :: (name ++ tail)) (String.ofList name)

theorem IsStartTag.ne_nil {raw : List Char} {name : String} (h : IsStartTag raw name) :
    raw ≠ [] := by
  obtain ⟨-⟩ := h
  exact List.cons_ne_nil _ _

/-- The name of a start tag has nothing in it that ends names. -/
theorem IsStartTag.isNameEnd_of_mem {raw : List Char} {name : String} (h : IsStartTag raw name) :
    ∀ c ∈ name.toList, Text.isNameEnd c = false := by
  obtain ⟨-, word, -, -⟩ := h
  rwa [String.toList_ofList]

/-- What is read of a tag has its name. -/
theorem IsStartTag.name_of_read {source : Source} {token : Token} {tag : StartTag} {name : String}
    (h : IsStartTag token.raw.toList name)
    (hread : StartTag.read dialect.readAttribute source token = .ok tag) : tag.name = name := by
  generalize hraw : token.raw.toList = raw at h
  obtain ⟨-, word, behind, -⟩ := h
  exact StartTag.name_of_read hread hraw word behind

/-- **A tag that has been read is its opening, its name and what follows from where the name
ends.** -/
theorem exists_tail_of_readTag? {opening cs : List Char} {tag : ReadTag}
    (h : readTag? opening cs = some tag) :
    ∃ tail, tag.raw = opening ++ tag.name ++ tail ∧ (∀ c ∈ tag.name, Text.isNameEnd c = false) ∧
      tail.head?.any Text.isNameEnd = true ∧ tagScanner.Ends .plain tail := by
  obtain ⟨⟨tail, rest⟩, htail, rfl⟩ := Option.map_eq_some_iff.1 h
  obtain ⟨happ, hne⟩ := append_of_tagTail? htail
  refine ⟨tail, rfl, fun d hd => ?_, ?_, ends_of_tagTail? htail⟩
  · simpa using List.mem_takeWhile_imp hd
  · obtain ⟨d, tail, rfl⟩ := List.exists_cons_of_ne_nil hne
    have hhead := List.head?_dropWhile_not (fun c => !Text.isNameEnd c) cs
    rw [← happ] at hhead
    simpa using hhead

/-- **A tag whose name begins with a letter is such a text.** -/
theorem isStartTag_of_readTag? {c : Char} {cs : List Char} {tag : ReadTag}
    (hletter : Text.isLetter c = true) (h : readTag? ['<'] (c :: cs) = some tag) :
    IsStartTag tag.raw (String.ofList tag.name) := by
  obtain ⟨tail, hraw, word, behind, ends⟩ := exists_tail_of_readTag? h
  obtain ⟨parts, -, rfl⟩ := Option.map_eq_some_iff.1 h
  rw [hraw]
  refine IsStartTag.intro ?_ word behind ends
  simp [Text.isNameEnd_of_isLetter hletter, hletter]

/-! ## The splitter -/

/-- HTML has no scripts in attributes. -/
theorem script?_html (c : Char) : Quote.script? Quote.html c = none := by
  have hkind : ∀ q ∈ Quote.html, q.kind = .text := by decide
  rw [Quote.script?, Option.filter_eq_none_iff]
  intro q hq
  simp [hkind q (List.mem_of_find?_eq_some hq)]

theorem apart_html : Quote.Apart Quote.html :=
  ⟨by decide, fun q hq => by simp [script?_html] at hq⟩

/-- **The dialect reads attributes as the splitter goes.** -/
theorem splits_readAttribute : dialect.readAttribute.Splits Quote.html :=
  Attribute.splits_read fun cs => ⟨⟨apart_html, rfl, by simp [script?_html]⟩, rfl⟩

/-- **Where the reader of tags and the splitter are at the same place**: among names and in values
without quotes a bracket may end the tag for both. -/
inductive Agree : TagState → Place → Prop
  | between {st : TagState} (mayEnd : st.mayEnd = true) : Agree st .between
  | bare {st : TagState} (mayEnd : st.mayEnd = true) : Agree st .bare
  | beforeValue : Agree .afterEqual .beforeValue
  | quoted (quote : Char) : Agree (.quoted quote) (.quoted quote)

namespace Agree

variable {st : TagState} {place : Place}

theorem mayEnd_eq (h : Agree st place) :
    tagScanner.mayEnd st = (splitter Quote.html).mayEnd place := by
  cases h with
  | between mayEnd => exact mayEnd
  | bare mayEnd => exact mayEnd
  | beforeValue => rfl
  | quoted => rfl

/-- An equals sign is one for the reader wherever a bracket may end the tag. -/
theorem step_equal (h : st.mayEnd = true) : st.step '=' = .afterEqual := by
  cases st with
  | plain => rfl
  | afterEqual => rfl
  | quoted => exact absurd h Bool.false_ne_true

/-- **They agree on, unless the reader of tags alone begins to skip.** -/
theorem step (h : Agree st place) (c : Char)
    (hskip : tagScanner.mayEnd st = true →
      (splitter Quote.html).mayEnd ((splitter Quote.html).step c place) = true →
        tagScanner.mayEnd (tagScanner.step c st) = true) :
    Agree (tagScanner.step c st) ((splitter Quote.html).step c place) := by
  cases h with
  | between mayEnd =>
    rw [Splitter.step_between, script?_html, Option.elim_none] at hskip ⊢
    by_cases hc : c = '='
    · have hnext : tagScanner.step c st = .afterEqual := hc ▸ step_equal mayEnd
      rw [if_pos hc, hnext]
      exact Agree.beforeValue
    · rw [if_neg hc] at hskip ⊢
      exact Agree.between (hskip mayEnd rfl)
  | bare mayEnd =>
    rw [Splitter.step_bare] at hskip ⊢
    split at hskip
    · next hc =>
      rw [if_pos hc]
      exact Agree.between (hskip mayEnd rfl)
    · next hc =>
      rw [if_neg hc]
      exact Agree.bare (hskip mayEnd rfl)
  | beforeValue =>
    have hnext : tagScanner.step c .afterEqual = if c = '"' ∨ c = '\'' then .quoted c
      else if c = '=' ∨ Text.isBlank c then .afterEqual else .plain := rfl
    rw [Splitter.step_beforeValue]
    by_cases hquote : c = '"' ∨ c = '\''
    · rw [hnext, if_pos hquote]
      rcases hquote with rfl | rfl <;> exact Agree.quoted _
    · have hopened : Quote.opened? Quote.html c = none := by
        rw [not_or] at hquote
        simp [Quote.opened?, Quote.html, Quote.double, Quote.single, Ne.symm hquote.1,
          Ne.symm hquote.2]
      rw [hopened, Option.elim_none]
      by_cases hblank : Text.isBlank c = true
      · rw [hnext, if_neg hquote, if_pos (Or.inr hblank), if_pos hblank]
        exact Agree.beforeValue
      · rw [if_neg hblank]
        refine Agree.bare ?_
        rw [hnext, if_neg hquote]
        split <;> rfl
  | quoted q =>
    have hnext : tagScanner.step c (.quoted q) = if c = q then .plain else .quoted q := rfl
    have hplace : (splitter Quote.html).step c (.quoted q) =
        if c = q then .between else .quoted q := rfl
    rw [hnext, hplace]
    split
    · exact Agree.between rfl
    · exact Agree.quoted q

end Agree

/-- **Wherever the reader of tags begins to skip in a start tag, its splitter does**, too. -/
def InStep (raw : List Char) : Prop :=
  tagScanner.inStep (splitter Quote.html) .plain .between (StartTag.behindName raw) = true

instance (raw : List Char) : Decidable (InStep raw) := inferInstanceAs (Decidable (_ = true))

namespace IsStartTag

variable {raw : List Char} {name : String}

/-- **A start tag in which they are in step ends for the splitter, too.** -/
theorem endsFor (h : IsStartTag raw name) (hin : InStep raw) :
    StartTag.EndsFor Quote.html raw := by
  obtain @⟨name, tail, letter, word, behind, ends⟩ := h
  rw [InStep, StartTag.behindName_eq word behind] at hin
  rw [StartTag.EndsFor, StartTag.behindName_eq word behind]
  exact ends.of_inStep (fun _ _ => Agree.mayEnd_eq) (fun c _ _ hagree => hagree.step c)
    (Agree.between rfl) hin

/-- …and then it is split without a rest. -/
theorem splitsWhole {source : Source} {span : Span} {token : Token} (h : IsStartTag raw name)
    (hslice : source.slice span = .ok token) (hraw : token.raw.toList = raw)
    (hends : StartTag.EndsFor Quote.html raw) :
    StartTag.SplitsWhole dialect.readAttribute source token name := by
  obtain @⟨name, tail, letter, word, behind, ends⟩ := h
  have hne : name ≠ [] := by
    rintro rfl
    exact absurd letter Bool.false_ne_true
  rw [← hraw] at hends
  exact hends.splitsWhole splits_readAttribute apart_html hslice hraw hne word behind

end IsStartTag

end Markup.Html
