import Markup.Proofs.Svelte.Braces
import Markup.Proofs.Text.Words

/-!
# Proofs/Svelte/Phases — the phase that the header of a wait names, and the one that it opens

The header of a wait **names** the phase whose word stands behind its subject, outside of all
brackets, strings and template literals (`Head.NamesPhase`).  It is read by its words, though: it
**opens** the first phase whose word stands there at all (`Block.shorthand?_eq_some_iff`).  The two
are the same as long as no word is hidden (`opensPhase_iff_of_bare`), and a header for which they
are the same opens the phase that it is written with (`Head.NamesPhase.readAsWritten`).
-/

namespace Markup.Svelte

open Expression (WellNested)
open Text (WordAt)

/-! ## Phases that stand in a text -/

section

variable (counts : List Char → Prop) (code : List Char)

/-- **The word of a phase stands in a text at the first place that counts** for what is before. -/
structure FirstAt (before : List Char) (phase : Phase) (after : List Char) : Prop where
  wordAt : WordAt code before phase.word.toList after
  counted : counts before
  first : ∀ (other : Phase) front back, WordAt before front other.word.toList back → ¬counts front

/-- **The phase whose word stands first in a text**, among the places that count. -/
def OpensPhase (phase : Phase) : Prop := ∃ before after, FirstAt counts code before phase after

end

/-- A place behind the waiting and the first word of its subject. -/
def Behind (before : List Char) : Prop := 2 ≤ (Text.words before).length

/-- …that is outside of all brackets, strings and template literals. -/
def BehindAtTop (before : List Char) : Prop := Behind before ∧ WellNested .code before

/-- **The first word of a phase is not hidden** in a bracket, a string or a template literal. -/
def Bare (header : List Char) : Prop :=
  ∀ before phase after, FirstAt Behind header before phase after → WellNested .code before

/-- Code without brackets and quotes hides nothing. -/
theorem Bare.of_plain {header : List Char} (h : ∀ c ∈ header, Expression.IsPlain c) :
    Bare header := fun _ _ _ hplace =>
  .of_plain fun c hc => h c (hplace.wordAt.split ▸ List.mem_append_left _ hc)

theorem Phase.ofWord?_eq_some_iff {word : List Char} {phase : Phase} :
    Phase.ofWord? (String.ofList word) = some phase ↔ word = phase.word.toList := by
  constructor
  · intro h
    have heq : phase.word = String.ofList word := by simpa using List.find?_some h
    rw [heq, String.toList_ofList]
  · rintro rfl
    rw [String.ofList_toList, ofWord?_word]

/-- **The header of a wait opens the first phase whose word stands behind its subject.** -/
theorem Block.shorthand?_eq_some_iff {header : List Char} {phase : Phase} :
    Block.shorthand? header = some phase ↔ OpensPhase Behind header phase := by
  rw [Block.shorthand?]
  constructor
  · intro h
    obtain ⟨others, word, more, hdrop, hword, hothers⟩ := List.findSome?_eq_some_iff.1 h
    obtain rfl := Phase.ofWord?_eq_some_iff.1 hword
    have htwo : ((Text.words header).take 2).length = 2 := by
      have hlength := congrArg List.length hdrop
      rw [List.length_drop, List.length_append, List.length_cons] at hlength
      rw [List.length_take]
      omega
    have hwords : Text.words header =
        ((Text.words header).take 2 ++ others) ++ phase.word.toList :: more := by
      rw [List.append_assoc, ← hdrop, List.take_append_drop]
    obtain ⟨before, after, hat, hbefore, -⟩ := Text.exists_wordAt hwords
    have hbehind : Behind before := by
      rw [Behind, hbefore, List.length_append, htwo]
      exact Nat.le_add_right _ _
    refine ⟨before, after, ⟨hat, hbehind, fun other front back hother hcounts => ?_⟩⟩
    have hmem := hother.mem_drop hcounts
    rw [hbefore, List.drop_left' htwo] at hmem
    have hnone := hothers _ hmem
    rw [Phase.ofWord?_eq_some_iff.2 rfl] at hnone
    exact absurd hnone (Option.some_ne_none other)
  · rintro ⟨before, after, ⟨hat, hbehind, hfirst⟩⟩
    have hnone : ((Text.words before).drop 2).findSome?
        (fun word => Phase.ofWord? (String.ofList word)) = none := by
      refine List.findSome?_eq_none_iff.2 fun word hword => ?_
      by_contra hsome
      obtain ⟨other, hother⟩ := Option.ne_none_iff_exists'.1 hsome
      obtain rfl := Phase.ofWord?_eq_some_iff.1 hother
      obtain ⟨front, back, hinner, hcounts⟩ := Text.exists_wordAt_of_mem_drop hword
      exact hfirst other front back hinner hcounts
    rw [hat.words_eq, List.drop_append_of_le_length hbehind, List.findSome?_append, hnone,
      Option.none_or, List.findSome?_cons, Phase.ofWord?_eq_some_iff.2 rfl]

/-- A phase stands first if any stands behind the subject. -/
theorem exists_opensPhase {header before after : List Char} {phase : Phase}
    (h : WordAt header before phase.word.toList after) (hbehind : Behind before) :
    ∃ first, OpensPhase Behind header first := by
  simp only [← Block.shorthand?_eq_some_iff]
  refine Option.isSome_iff_exists.1 (List.findSome?_isSome_iff.2 ⟨_, h.mem_drop hbehind, ?_⟩)
  rw [Phase.ofWord?_eq_some_iff.2 rfl]
  rfl

/-- **Where the first phase is not hidden, the header is read at its top level.** -/
theorem opensPhase_iff_of_bare {header : List Char} (h : Bare header) (phase : Phase) :
    OpensPhase Behind header phase ↔ OpensPhase BehindAtTop header phase := by
  constructor
  · rintro ⟨before, after, hplace⟩
    obtain ⟨hat, hbehind, hfirst⟩ := id hplace
    exact ⟨before, after, hat, ⟨hbehind, h before phase after hplace⟩,
      fun other front back hother hcounts => hfirst other front back hother hcounts.1⟩
  · rintro ⟨before, after, hat, ⟨hbehind, -⟩, hfirst⟩
    refine ⟨before, after, hat, hbehind, fun other front back hother hcounts => ?_⟩
    -- A hidden word before this one would have a first one, which is not hidden.
    obtain ⟨earlier, outer, inner, hplace⟩ := exists_opensPhase hother hcounts
    obtain ⟨hat', hbehind', hfirst'⟩ := hplace
    exact hfirst earlier outer inner hat'
      ⟨hbehind', h outer earlier _ ⟨hat.trans hat', hbehind', hfirst'⟩⟩

/-! ## Headers that are written -/

namespace Head

/-- What stands between the sign of a header and its closing brace. -/
def header (h : Head) : List Char := h.kind.word.toList ++ ' ' :: h.subject

/-- **The header of a wait names the phase that it is written with**, or none, at its top level. -/
def NamesPhase (h : Head) : Prop := ∀ shorthand, h.kind = .await shorthand →
  ∀ phase, shorthand = some phase ↔ OpensPhase BehindAtTop h.header phase

/-- **No word that is hidden** in a bracket, a string or a template literal is taken for that of
the phase which a wait names at its top level. -/
def HidesNoPhase (h : Head) : Prop := ∀ shorthand, h.kind = .await shorthand →
  ∀ phase, OpensPhase Behind h.header phase ↔ OpensPhase BehindAtTop h.header phase

theorem words_header (h : Head) :
    Text.words h.header = h.kind.word.toList :: Text.words h.subject := by
  have hword := isKeyword_block h.kind
  rw [header, Text.words_append_cons _ (by decide),
    Text.words_of_isAlphanum hword.ne_nil hword.alphanum]
  rfl

/-- Only waits name phases. -/
theorem names_of_kind {h : Head} (hkind : ∀ shorthand, h.kind ≠ .await shorthand) :
    h.NamesPhase ∧ h.HidesNoPhase :=
  ⟨fun shorthand heq => absurd heq (hkind shorthand),
    fun shorthand heq => absurd heq (hkind shorthand)⟩

/-- **Where no hidden word gets in the way, a header opens the phase that it is written with…** -/
theorem NamesPhase.readAsWritten {h : Head} (hnames : h.NamesPhase) (hhides : h.HidesNoPhase) :
    h.ReadAsWritten := by
  refine (readAsWritten_iff h.words_header).2 fun shorthand hkind => Option.ext fun phase => ?_
  exact Block.shorthand?_eq_some_iff.trans
    ((hhides shorthand hkind phase).trans (hnames shorthand hkind phase).symm)

/-- …and where the first one is not hidden, none gets in the way. -/
theorem ReadAsWritten.names {h : Head} (hread : h.ReadAsWritten) (hbare : Bare h.header) :
    h.NamesPhase ∧ h.HidesNoPhase := by
  refine ⟨fun shorthand hkind phase => ?_, fun _ _ => opensPhase_iff_of_bare hbare⟩
  rw [← opensPhase_iff_of_bare hbare, ← Block.shorthand?_eq_some_iff,
    (readAsWritten_iff h.words_header).1 hread shorthand hkind]

end Head

end Markup.Svelte
