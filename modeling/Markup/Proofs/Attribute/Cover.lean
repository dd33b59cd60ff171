import Markup.Proofs.Attribute.Locate
import Markup.Proofs.Attribute.Lossless
import Markup.Proofs.Source.Refusal
import Markup.Svelte.Attribute

/-!
# Proofs/Attribute/Cover — an attribute covers the text that is read of it

Whatever rules it is read by, an attribute **accounts for a text**: its leading spaces and its token
are that text, and the parts of a plain one abut from the first to the last (`Accounts`).  Where no
attribute is read, the source is refused at a place of the text, so a reader decides the source
wherever it is asked (`Attribute.covers_read`).  A spread that is asked for takes the first byte for
its brace without a look at it; the parts that are recognized have the sizes of the texts that they
are located at, and not always their characters (`exists_layout_of_recognize`).
-/

namespace Markup

variable {source : Source} {start stop : Nat} {token : Token}

/-- **Tokens that abut**: each is the slice that begins where the one before it ends. -/
def Source.Abut (source : Source) : Nat → List Token → Nat → Prop
  | start, [], stop => start = stop
  | start, token :: tokens, stop =>
    ∃ mid, source.slice ⟨start, mid⟩ = .ok token ∧ source.Abut mid tokens stop

namespace Attribute

/-- **An attribute accounts for a text** that begins at an offset: its leading spaces and its token
are that text, and so are the eight parts of a plain one. -/
structure Accounts (source : Source) (start : Nat) (used : List Char) (a : Attribute) : Prop where
  full : a.fullRaw.toList = used
  spans : source.Abut start [a.spacesBefore, a.token] (start + Text.byteSize used)
  parts : ∀ plain, a = .plain plain →
    source.Abut start plain.parts.toList (start + Text.byteSize used)

/-- It ends where the text does. -/
theorem Accounts.endOffset {used : List Char} {a : Attribute} (h : a.Accounts source start used) :
    source.toLocal a.token.endOffset = start + Text.byteSize used := by
  obtain ⟨mid, -, stop, hown, hstop⟩ := h.spans
  exact (Source.toLocal_endOffset hown).trans hstop

/-! ## Layouts -/

/-- Where parts are located depends on their sizes alone. -/
theorem Layout.locate_congr {l l' : Layout (List Char)}
    (h : l.map Text.byteSize = l'.map Text.byteSize) :
    l.locate source start = l'.locate source start := by
  simp only [map, mk.injEq] at h
  simp only [locate, h]

/-- **Located parts abut.** -/
theorem Layout.abut_of_locate {l : Layout (List Char)} {parts : Layout Token}
    (h : l.locate source start = .ok parts) :
    source.Abut start parts.toList (start + Text.byteSize l.toList.flatten) := by
  have hsizes : start + Text.byteSize l.toList.flatten = start + Text.byteSize l.spacesBeforeName +
      Text.byteSize l.name + Text.byteSize l.spacesBeforeEqual + Text.byteSize l.equal +
      Text.byteSize l.spacesAfterEqual + Text.byteSize l.startQuote + Text.byteSize l.value +
      Text.byteSize l.endQuote := by
    simp only [toList, List.flatten_cons, List.flatten_nil, List.append_nil, Text.byteSize_append,
      Nat.add_assoc]
  simp only [locate, Except.bind_eq_ok] at h
  obtain ⟨_, h₁, _, h₂, _, h₃, _, h₄, _, h₅, _, h₆, _, h₇, _, h₈, h⟩ := h
  obtain rfl := Except.ok.inj h
  rw [hsizes]
  exact ⟨_, h₁, _, h₂, _, h₃, _, h₄, _, h₅, _, h₆, _, h₇, _, h₈, rfl⟩

/-- **A spread that is asked for** takes one byte for its brace, whatever that is. -/
theorem exists_layout_of_spread {quotes : List Quote} {cs : List Char} {p : Parts}
    (h : Recognizer.spread quotes .empty cs = .ok p) :
    ∃ l : Layout (List Char), l.toList.flatten ++ p.leftover = cs ∧
      l.map Text.byteSize = p.toLayout.map Text.byteSize := by
  rw [Recognizer.spread] at h
  split at h
  · next hempty =>
    obtain rfl := List.isEmpty_iff.1 hempty
    obtain rfl := Except.ok.inj h
    exact ⟨.fill [], rfl, rfl⟩
  · split at h
    · cases h
    · next value rest hsplit =>
      obtain rfl := Except.ok.inj h
      obtain ⟨others, hdrop, hclose⟩ := Option.bind_eq_some_iff.1 hsplit
      obtain ⟨brace, rfl, hbrace⟩ := Text.dropBytes?_eq_some_iff.1 hdrop
      obtain rfl := Recognizer.eq_of_closeValue? (q := .braces) hclose
      refine ⟨⟨[], [], [], [], [], brace, value, ['}']⟩, ?_, ?_⟩
      · simp [Layout.toList, Quote.braces]
      · simp only [Layout.map, Parts.empty, Layout.fill, hbrace]
        rfl

/-- **What is recognized has the sizes of the texts that it was recognized of**, from any stage. -/
theorem exists_layout_of_recognize {rules : Rules} {cs : List Char} {p : Parts}
    (h : recognize rules cs = .ok p) :
    ∃ l : Layout (List Char), l.toList.flatten ++ p.leftover = cs ∧
      l.map Text.byteSize = p.toLayout.map Text.byteSize := by
  by_cases hstart : rules.start = .spread
  · rw [recognize, Recognizer.start, hstart] at h
    split at h
    · next hspread =>
      obtain rfl := Except.ok.inj h
      exact exists_layout_of_spread hspread
    · cases h
  · exact ⟨p.toLayout, source_of_recognize hstart h, rfl⟩

/-! ## Attributes -/

/-- **What is read of a token accounts for its beginning.** -/
theorem exists_accounts {rules : Rules} {p : Parts} {l : Layout (List Char)} {rest : List Char}
    (hslice : source.slice ⟨start, stop⟩ = .ok token)
    (hfound : recognize rules token.raw.toList = .ok p)
    (hraw : l.toList.flatten ++ rest = token.raw.toList)
    (hsizes : l.map Text.byteSize = p.toLayout.map Text.byteSize) :
    ∃ a, read rules source token = .ok a ∧ a.Accounts source start l.toList.flatten := by
  have hstart := Source.toLocal_startOffset hslice
  have hwhole := Source.slice?_of_slice hslice
  rw [← hraw] at hwhole
  obtain ⟨parts, hparts, htexts, hname, hquote⟩ := Layout.exists_locate hwhole
  have habut := Layout.abut_of_locate hparts
  -- The attribute's own token is what follows the leading spaces.
  let own := (l.toList.drop 1).flatten
  have hall : l.toList.flatten = l.spacesBeforeName ++ own := rfl
  have hlater : Text.slice? (start + Text.byteSize l.spacesBeforeName) stop source.text =
      some (own ++ rest) := by
    rw [hall, List.append_assoc] at hwhole
    exact Text.slice?_of_append_right hwhole
  obtain ⟨ownToken, hown, hownRaw, -⟩ := Source.exists_slice_of_append hlater
  rw [Nat.add_assoc, ← Text.byteSize_append, ← hall] at hown
  have hspacesRaw : parts.spacesBeforeName.raw.toList = l.spacesBeforeName :=
    congrArg Layout.spacesBeforeName htexts
  have hspans : source.Abut start [parts.spacesBeforeName, ownToken]
      (start + Text.byteSize l.toList.flatten) := by
    obtain ⟨mid, hspaces, -⟩ := habut
    obtain rfl := Source.stop_of_slice hspaces
    rw [hspacesRaw] at hspaces
    exact ⟨_, hspaces, _, hown, rfl⟩
  have hfull : (parts.spacesBeforeName.raw ++ ownToken.raw).toList = l.toList.flatten := by
    rw [String.toList_append, hspacesRaw, hownRaw, hall]
  rw [read, hfound]
  simp only [hstart, ← Layout.locate_congr hsizes, hparts, hname, hquote, hown, bind, Except.bind]
  split
  · refine ⟨_, rfl, hfull, hspans, ?_⟩
    rintro _ ⟨⟩
  · refine ⟨_, rfl, hfull, hspans, ?_⟩
    rintro _ ⟨⟩
    exact habut

end Attribute

/-- **A reader of attributes covers what it reads**: what it answers of a token accounts for a text
that the token begins with. -/
def AttributeReader.Covers (read : AttributeReader) : Prop :=
  ∀ ⦃source : Source⦄ ⦃start stop : Nat⦄ ⦃token : Token⦄,
    source.slice ⟨start, stop⟩ = .ok token →
      source.Decides (fun a => ∃ used rest, token.raw.toList = used ++ rest ∧
        a.Accounts source start used) (read source token)

/-- **All rules do.** -/
theorem Attribute.covers_read (rules : Rules) : AttributeReader.Covers (read rules) := by
  intro source start stop token hslice
  cases hfound : recognize rules token.raw.toList with
  | error failure =>
    rw [read, hfound]
    exact .refused (Source.located_emptyToken rfl _)
  | ok p =>
    obtain ⟨l, hraw, hsizes⟩ := exists_layout_of_recognize hfound
    obtain ⟨a, ha, haccounts⟩ := exists_accounts hslice hfound hraw hsizes
    rw [ha]
    exact .ok ⟨_, _, hraw.symm, haccounts⟩

/-- **So do templates**, whatever they make of an attribute. -/
theorem Svelte.covers_readAttribute : AttributeReader.Covers readAttribute := by
  intro source start stop token hslice
  refine (Attribute.covers_read (attributeRules token.raw.toList) hslice).bind ?_
  rintro a - ⟨used, rest, hraw, haccounts⟩
  cases a with
  | plain a =>
    obtain ⟨full, spans, parts⟩ := haccounts
    refine .ok ⟨used, rest, hraw, full, spans, fun plain hplain => ?_⟩
    obtain rfl := Attribute.plain.inj hplain
    exact parts a rfl
  | spread token spaces => exact .ok ⟨used, rest, hraw, haccounts⟩

end Markup
