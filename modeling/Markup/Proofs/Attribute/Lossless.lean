import Markup.Error
import Markup.Proofs.Attribute.Recognizer

/-!
# Proofs/Attribute/Lossless — the recognizer loses nothing of its text

Wherever in an attribute the recognizer starts, each of its stages **accounts for the whole text**
(`Reads`): what it answers is the parts so far and the text, put in order, and where it fails the
parts so far stand before what is left open.  A stage hands its parts on (`Reads.after`), so the
recognizer keeps its text from any stage but that of a spread, which takes the first byte for a
brace without a look at it (`lossless_of_recognize`).
-/

namespace Markup.Attribute

namespace Recognizer

variable {quotes : List Quote} {rules : Rules} {p : Parts} {cs : List Char}

/-! ## Stages -/

/-- **What comes before a value**: blanks, a name that nothing in it ends, and one equal sign at
most. -/
structure Begun (p : Parts) : Prop where
  spacesBeforeName : p.spacesBeforeName.all Text.isBlank = true
  name : p.name.any isNameStop = false
  spacesBeforeEqual : p.spacesBeforeEqual.all Text.isBlank = true
  equal : p.equal = [] ∨ p.equal = ['=']
  spacesAfterEqual : p.spacesAfterEqual.all Text.isBlank = true
  value : p.value = []
  endQuote : p.endQuote = []

/-- **What a fault says of the text that is left**: it does not close the value behind a quote, or
the one that the recognizer started in, or the spread that it begins with. -/
inductive Unclosed (rules : Rules) (p : Parts) (rest : List Char) : Fault → Prop
  | quoted {q : Quote} (opened : Quote.opened? rules.quotes q.opening = some q)
      (startQuote : p.startQuote = [q.opening]) (unclosed : closeValue? q rest = none) :
      Unclosed rules p rest (.unclosedValue q.closing)
  | started (start : rules.start = .value) (nothing : p = .empty)
      (unclosed : closeValue? .double rest = none) :
      Unclosed rules p rest (.unclosedValue Quote.double.closing)
  | spread (spaces : p.toList.flatten = p.spacesBeforeName)
      (starts : startsSpread rules.quotes rest = true)
      (unclosed : Expression.split? '}' (rest.drop 1) = none) :
      Unclosed rules p rest .unclosedSpread

/-- **A stage accounts for the parts so far and its text**: it puts them in order, or it fails where
something that is not empty is left open behind the parts so far. -/
inductive Reads (rules : Rules) (p : Parts) (cs : List Char) : Fallible → Prop
  | ok {p' : Parts} (keeps : p'.source = p.toList.flatten ++ cs) : Reads rules p cs (.ok p')
  | error {fault : Fault} {q : Parts} {rest : List Char} (begun : Begun q)
      (keeps : q.toList.flatten ++ rest = p.toList.flatten ++ cs) (left : rest ≠ [])
      (unclosed : Unclosed rules q rest fault) : Reads rules p cs (.error (fault, rest))

/-- Stages that follow each other account for the text together. -/
theorem Reads.after {q : Parts} {tail used : List Char} {result : Fallible}
    (h : Reads rules q tail result) (hq : q.toList.flatten = p.toList.flatten ++ used)
    (hcs : cs = used ++ tail) : Reads rules p cs result := by
  have htext : q.toList.flatten ++ tail = p.toList.flatten ++ cs := by
    rw [hq, hcs, List.append_assoc]
  cases h with
  | ok keeps => exact .ok (keeps.trans htext)
  | error begun keeps left unclosed => exact .error begun (keeps.trans htext) left unclosed

/-- A stage may leave all of its text. -/
theorem reads_leave (p : Parts) (cs : List Char) :
    Reads rules p cs (.ok { p with leftover := cs }) := .ok rfl

/-- **A value ends before its closing character.** -/
theorem eq_of_closeValue? {q : Quote} {value rest : List Char}
    (h : closeValue? q cs = some (value, rest)) : cs = value ++ q.closing :: rest.drop 1 := by
  rw [closeValue?] at h
  split at h
  · have hclose := Text.find_of_cutWhere h
    obtain ⟨others, rfl⟩ := List.isPrefixOf_iff_prefix.1 hclose
    exact (Text.append_of_cut h).symm
  · obtain ⟨happ, hne⟩ := Expression.append_of_split? h
    obtain ⟨c, others, rfl⟩ := List.exists_cons_of_ne_nil hne
    obtain rfl := Expression.eq_close_of_split? h
    exact happ.symm

theorem reads_unquotedValue (hp : Begun p) (hstart : p.startQuote = []) (ends : List Char) :
    Reads rules p cs (.ok (unquotedValue ends p cs)) :=
  .ok (by simp [unquotedValue, Parts.source, Layout.toList, hstart, hp.value, hp.endQuote])

/-- **A value in quotes** behind the quote that opens it, or where the recognizer starts. -/
theorem reads_quotedValue (hp : Begun p)
    (hquote : (∃ q, p.quote = some q ∧ Quote.opened? rules.quotes q.opening = some q ∧
      p.startQuote = [q.opening]) ∨ rules.start = .value ∧ p = .empty) :
    Reads rules p cs (quotedValue p cs) := by
  rw [quotedValue]
  split
  · next hempty =>
    rw [List.isEmpty_iff] at hempty
    subst hempty
    exact reads_leave p []
  · next hempty =>
    have hleft : cs ≠ [] := by simpa using hempty
    dsimp only
    split
    · next hunclosed =>
      refine .error hp rfl hleft ?_
      rcases hquote with ⟨q, hq, hopened, hstart⟩ | ⟨hrules, rfl⟩
      · rw [hq, Option.getD_some] at hunclosed ⊢
        exact .quoted hopened hstart hunclosed
      · exact .started hrules rfl hunclosed
    · next hclose =>
      refine .ok ?_
      rw [eq_of_closeValue? hclose]
      simp [Parts.source, Layout.toList, hp.value, hp.endQuote]

/-- **A spread**, behind blanks alone. -/
theorem reads_spread (hp : Begun p) (hspaces : p.toList.flatten = p.spacesBeforeName)
    (hstarts : startsSpread rules.quotes cs = true) :
    Reads rules p cs (spread rules.quotes p cs) := by
  rw [spread]
  split
  · next hempty =>
    rw [List.isEmpty_iff] at hempty
    subst hempty
    exact reads_leave p []
  · next hempty =>
    obtain ⟨c, tail, rfl⟩ := List.exists_cons_of_ne_nil (by simpa using hempty)
    obtain ⟨rfl, -⟩ := exists_of_startsSpread hstarts
    have hdrop : Text.dropBytes? 1 ('{' :: tail) = some tail := Text.dropBytes?_byteSize ['{'] tail
    have hstart : p.startQuote = [] := by
      have hlength := congrArg List.length hspaces
      simp only [Layout.toList, List.flatten_cons, List.length_append] at hlength
      exact List.length_eq_zero_iff.1 (by omega)
    rw [hdrop, Option.bind_some]
    split
    · next hunclosed =>
      exact .error hp rfl (List.cons_ne_nil _ _) (.spread hspaces hstarts hunclosed)
    · next hsplit =>
      refine .ok ?_
      rw [eq_of_closeValue? (q := .braces) hsplit]
      simp [Parts.source, Layout.toList, Quote.braces, hstart, hp.value, hp.endQuote]

/-- A value in quotes with the quote that opens it. -/
theorem reads_openedValue {c : Char} {quote : Quote} (hp : Begun p) (hstart : p.startQuote = [])
    (hopened : Quote.opened? rules.quotes c = some quote) (tail : List Char) :
    Reads rules p (c :: tail)
      (quotedValue { p with startQuote := [c], quote := some quote } tail) := by
  have hfound : rules.quotes.find? (fun q => q.opening == c) = some quote := hopened
  have hopening : quote.opening = c := by simpa using List.find?_some hfound
  let opened := { p with startQuote := [c], quote := some quote }
  have hbegun : Begun opened := ⟨hp.1, hp.2, hp.3, hp.4, hp.5, hp.6, hp.7⟩
  have hvalued : Reads rules opened tail (quotedValue opened tail) := by
    refine reads_quotedValue hbegun (Or.inl ⟨quote, rfl, hopening.symm ▸ hopened, ?_⟩)
    rw [hopening]
  have htext : opened.toList.flatten = p.toList.flatten ++ [c] := by
    simp [opened, Layout.toList, hstart, hp.value, hp.endQuote]
  exact hvalued.after htext rfl

/-- **The parts with the spaces before a value**: where nothing has been read yet, they come before
the name. -/
def spaced (p : Parts) (spaces : List Char) : Parts :=
  if (p.name.isEmpty && p.equal.isEmpty) = true then
    { p with spacesBeforeName := p.spacesBeforeName ++ spaces }
  else { p with spacesAfterEqual := spaces }

theorem begun_spaced {spaces : List Char} (hp : Begun p) (hgap : p.spacesAfterEqual = [])
    (hspaces : spaces.all Text.isBlank = true) : Begun (spaced p spaces) := by
  rw [spaced]
  split
  · exact ⟨by simp [hp.spacesBeforeName, hspaces], hp.name, hp.spacesBeforeEqual, hp.equal,
      by simp [hgap], hp.value, hp.endQuote⟩
  · exact ⟨hp.spacesBeforeName, hp.name, hp.spacesBeforeEqual, hp.equal, hspaces, hp.value,
      hp.endQuote⟩

@[simp] theorem startQuote_spaced (p : Parts) (spaces : List Char) :
    (spaced p spaces).startQuote = p.startQuote := by
  rw [spaced]
  split <;> rfl

/-- Wherever the spaces go, they come behind all that has been read. -/
theorem flatten_spaced (hp : Begun p) (hstart : p.startQuote = []) (hgap : p.spacesAfterEqual = [])
    (hbare : p.name = [] → p.equal = [] → p.spacesBeforeEqual = []) (spaces : List Char) :
    (spaced p spaces).toList.flatten = p.toList.flatten ++ spaces := by
  rw [spaced]
  split
  · next hnothing =>
    rw [Bool.and_eq_true, List.isEmpty_iff, List.isEmpty_iff] at hnothing
    have hempty := hbare hnothing.1 hnothing.2
    simp [Layout.toList, hstart, hp.value, hp.endQuote, hgap, hnothing, hempty]
  · simp [Layout.toList, hstart, hp.value, hp.endQuote, hgap]

/-- Where nothing has been read yet, the parts are the spaces alone. -/
theorem flatten_spaced_of_bare (hp : Begun p) (hstart : p.startQuote = [])
    (hgap : p.spacesAfterEqual = [])
    (hbare : p.name = [] → p.equal = [] → p.spacesBeforeEqual = [])
    (hnothing : (p.name.isEmpty && p.equal.isEmpty) = true) (spaces : List Char) :
    (spaced p spaces).toList.flatten = (spaced p spaces).spacesBeforeName := by
  rw [spaced, if_pos hnothing]
  rw [Bool.and_eq_true, List.isEmpty_iff, List.isEmpty_iff] at hnothing
  have hempty := hbare hnothing.1 hnothing.2
  simp [Layout.toList, hstart, hp.value, hp.endQuote, hgap, hnothing, hempty]

/-- **A value with the spaces before it**, behind an equal sign or where nothing has been read
yet. -/
theorem reads_beforeValue (hp : Begun p) (hstart : p.startQuote = [])
    (hgap : p.spacesAfterEqual = [])
    (hbare : p.name = [] → p.equal = [] → p.spacesBeforeEqual = []) :
    Reads rules p cs (beforeValue rules p cs) := by
  have hspan := List.takeWhile_append_dropWhile (p := Text.isBlank) (l := cs)
  have hbegun : Begun (spaced p (cs.takeWhile Text.isBlank)) :=
    begun_spaced hp hgap List.all_takeWhile
  have htext := flatten_spaced hp hstart hgap hbare (cs.takeWhile Text.isBlank)
  have hquoteless : (spaced p (cs.takeWhile Text.isBlank)).startQuote = [] := by simpa using hstart
  rw [beforeValue]
  generalize hspaced : (if (p.name.isEmpty && p.equal.isEmpty) = true then _ else _ : Parts) = q
  obtain rfl : spaced p (cs.takeWhile Text.isBlank) = q := hspaced
  suffices h : Reads rules (spaced p (cs.takeWhile Text.isBlank)) (cs.dropWhile Text.isBlank) _ from
    h.after htext hspan.symm
  split
  · next hnil =>
    rw [hnil]
    exact reads_leave _ []
  · next c tail hcons =>
    rw [hcons]
    split
    · next hstarts =>
      rw [Bool.and_eq_true] at hstarts
      exact reads_spread hbegun (flatten_spaced_of_bare hp hstart hgap hbare hstarts.1 _) hstarts.2
    · split
      · next hopened => exact reads_openedValue hbegun hquoteless hopened tail
      · split
        · exact reads_leave _ _
        · exact reads_unquotedValue hbegun hquoteless _

theorem reads_beforeEqual (hp : Begun p) (hstart : p.startQuote = [])
    (hgap : p.spacesAfterEqual = []) (hspaces : p.spacesBeforeEqual = []) (hequal : p.equal = []) :
    Reads rules p cs (beforeEqual rules p cs) := by
  have hspan := List.takeWhile_append_dropWhile (p := Text.isBlank) (l := cs)
  rw [beforeEqual]
  split
  · next rest hrest =>
    rw [hrest] at hspan
    let equated := { p with spacesBeforeEqual := cs.takeWhile Text.isBlank, equal := ['='] }
    have hvalued : Reads rules equated rest (beforeValue rules equated rest) := by
      refine reads_beforeValue ?_ hstart hgap (by simp [equated])
      exact ⟨hp.1, hp.2, List.all_takeWhile, Or.inr rfl, hp.5, hp.6, hp.7⟩
    have hequated : equated.toList.flatten =
        p.toList.flatten ++ (cs.takeWhile Text.isBlank ++ ['=']) := by
      simp [equated, Layout.toList, hstart, hp.value, hp.endQuote, hgap, hspaces, hequal]
    exact hvalued.after hequated (by simp [hspan])
  · exact reads_leave p cs

/-- Blanks and a name are the beginning of an attribute. -/
theorem begun_named {spaces name : List Char} (hspaces : spaces.all Text.isBlank = true)
    (hname : name.any isNameStop = false) : Begun (named spaces name) :=
  ⟨hspaces, hname, rfl, Or.inl rfl, rfl, rfl, rfl⟩

/-- **A name and what belongs to it.** -/
theorem reads_name {spaces : List Char} (hspaces : spaces.all Text.isBlank = true) :
    Reads rules (named spaces []) cs (name rules (named spaces []) cs) := by
  have hspan := nameOf_append_drop rules.quotes cs
  have hstop : (nameOf rules.quotes cs).any isNameStop = false := by
    cases cs with
    | nil => rfl
    | cons c tail => simpa using fun d hd => (of_mem_nameOf hd).1
  rw [name]
  generalize nameOf rules.quotes cs = n at hspan hstop
  dsimp only
  have hbegun : Begun (named spaces n) := begun_named hspaces hstop
  have hnamed : (named spaces n).toList.flatten = (named spaces []).toList.flatten ++ n := by
    simp [named, Layout.toList, Parts.empty, Layout.fill]
  split
  · next rest hrest =>
    rw [hrest] at hspan
    let equated := { named spaces n with equal := ['='] }
    have hvalued : Reads rules equated rest (beforeValue rules equated rest) := by
      refine reads_beforeValue ?_ rfl rfl (by simp [equated])
      exact ⟨hspaces, hstop, rfl, Or.inr rfl, rfl, rfl, rfl⟩
    have hequated : equated.toList.flatten =
        (named spaces []).toList.flatten ++ (n ++ ['=']) := by
      simp [equated, named, Layout.toList, Parts.empty, Layout.fill]
    exact hvalued.after hequated (by simp [hspan])
  · split
    · exact (reads_beforeEqual hbegun rfl rfl rfl rfl).after hnamed hspan.symm
    · exact (reads_leave (named spaces n) _).after hnamed hspan.symm

theorem reads_beforeName : Reads rules .empty cs (beforeName rules .empty cs) := by
  have hspan := List.takeWhile_append_dropWhile (p := Text.isBlank) (l := cs)
  have hspaced : (named (cs.takeWhile Text.isBlank) []).toList.flatten =
      Parts.empty.toList.flatten ++ cs.takeWhile Text.isBlank := by
    simp [named, Layout.toList, Parts.empty, Layout.fill]
  rw [beforeName]
  suffices h : Reads rules (named (cs.takeWhile Text.isBlank) []) (cs.dropWhile Text.isBlank) _ from
    h.after hspaced hspan.symm
  split
  · next hnil =>
    rw [hnil]
    exact reads_leave _ []
  · next c tail hcons =>
    rw [hcons]
    split
    · next hstarts =>
      exact reads_spread (begun_named List.all_takeWhile rfl) hspaced hstarts
    · split
      · exact reads_leave _ _
      · exact reads_name List.all_takeWhile

/-- **From any stage but a spread's the recognizer accounts for its text.** -/
theorem reads_start (hstart : rules.start ≠ .spread) (cs : List Char) :
    Reads rules .empty cs (start rules cs) := by
  have hempty : Begun .empty := begun_named rfl rfl
  rw [start]
  cases hrules : rules.start with
  | beforeName => exact reads_beforeName
  | name => exact reads_name rfl
  | beforeEqual => exact reads_beforeEqual hempty rfl rfl rfl rfl
  | beforeValue => exact reads_beforeValue hempty rfl rfl fun _ _ => rfl
  | value => exact reads_quotedValue hempty (Or.inr ⟨hrules, rfl⟩)
  | unquotedValue => exact reads_unquotedValue hempty rfl _
  | afterValue => exact reads_leave _ _
  | spread => exact absurd hrules hstart

end Recognizer

open Recognizer

variable {rules : Rules} {cs : List Char}

/-- **An attribute that is recognized is what the text begins with**, whatever the text is. -/
theorem source_of_recognize (hstart : rules.start ≠ .spread) {p : Parts}
    (h : recognize rules cs = .ok p) : p.source = cs := by
  have hreads := reads_start hstart cs
  rw [recognize] at h
  split at h
  · next hstarted =>
    cases h
    rw [hstarted] at hreads
    cases hreads with
    | ok keeps => exact keeps
  · cases h

/-- **A failure points at what is left open**, behind the parts that have been read. -/
theorem exists_of_recognize_eq_error (hstart : rules.start ≠ .spread) {failure : Failure}
    (h : recognize rules cs = .error failure) :
    ∃ p rest, Begun p ∧ p.toList.flatten ++ rest = cs ∧
      failure.offset = Text.byteSize p.toList.flatten ∧ rest ≠ [] ∧
      Unclosed rules p rest failure.fault := by
  have hreads := reads_start hstart cs
  rw [recognize] at h
  split at h
  · cases h
  · next fault rest hstarted =>
    cases h
    rw [hstarted] at hreads
    cases hreads with
    | @error _ q _ begun keeps left unclosed =>
      have hcs : q.toList.flatten ++ rest = cs := keeps
      refine ⟨q, rest, begun, hcs, ?_, left, unclosed⟩
      rw [← hcs, Text.byteSize_append, Nat.add_sub_cancel]

/-- **The recognizer is lossless**, from any stage but a spread's: the parts in their order and what
is left over are the text, so their sizes add up; and where it fails, the offset is a boundary of
the text at which a value or a spread begins that is not closed. -/
theorem lossless_of_recognize (hstart : rules.start ≠ .spread) (cs : List Char) :
    (∀ p, recognize rules cs = .ok p →
      p.spacesBeforeName ++ p.name ++ p.spacesBeforeEqual ++ p.equal ++ p.spacesAfterEqual ++
          p.startQuote ++ p.value ++ p.endQuote ++ p.leftover = cs ∧
        Text.byteSize p.spacesBeforeName + p.size + Text.byteSize p.leftover = Text.byteSize cs) ∧
    ∀ failure, recognize rules cs = .error failure →
      Text.isBoundary failure.offset cs = true ∧
        ∃ p rest, Begun p ∧ p.toList.flatten ++ rest = cs ∧
          failure.offset = Text.byteSize p.toList.flatten ∧ rest ≠ [] ∧
          Unclosed rules p rest failure.fault := by
  refine ⟨fun p h => ?_, fun failure h => ?_⟩
  · have hsource := source_of_recognize hstart h
    refine ⟨?_, ?_⟩
    · simpa [Parts.source, Layout.toList] using hsource
    · rw [← hsource, Parts.source, Parts.size, Text.byteSize_append]
      simp [Layout.toList]
  · obtain ⟨p, rest, hbegun, hcs, hoffset, hleft, hunclosed⟩ :=
      exists_of_recognize_eq_error hstart h
    refine ⟨?_, p, rest, hbegun, hcs, hoffset, hleft, hunclosed⟩
    rw [Text.isBoundary, hoffset, ← hcs, Text.dropBytes?_byteSize]
    rfl

/-- The rules of an expression in braces, for an attribute that begins with its name. -/
def scriptRules : Rules := ⟨[.braces], .name, []⟩

theorem lossless_scriptBehindName : scriptRules.start ≠ .spread ∧
    (∃ p, recognize scriptRules "é =\x7b\"\x7d\"\x7d>".toList = .ok p ∧
      p.spacesBeforeName ++ p.name ++ p.spacesBeforeEqual ++ p.equal ++ p.spacesAfterEqual ++
          p.startQuote ++ p.value ++ p.endQuote ++ p.leftover = "é =\x7b\"\x7d\"\x7d>".toList ∧
        Text.byteSize p.spacesBeforeName + p.size + Text.byteSize p.leftover =
          Text.byteSize "é =\x7b\"\x7d\"\x7d>".toList) ∧
    ∃ failure, recognize scriptRules "é=\x7b(\x7d".toList = .error failure ∧
      Text.isBoundary failure.offset "é=\x7b(\x7d".toList = true ∧
        ∃ p rest, Begun p ∧ p.toList.flatten ++ rest = "é=\x7b(\x7d".toList ∧
          failure.offset = Text.byteSize p.toList.flatten ∧ rest ≠ [] ∧
          Unclosed scriptRules p rest failure.fault := by
  have hstart : scriptRules.start ≠ .spread := by decide
  obtain ⟨p, hp⟩ := Except.exists_of_isOk
    (show (recognize scriptRules "é =\x7b\"\x7d\"\x7d>".toList).isOk = true by decide)
  have hfails : recognize scriptRules "é=\x7b(\x7d".toList = .error ⟨.unclosedValue '\x7d', 4⟩ := by
    decide
  exact ⟨hstart, ⟨p, hp, (lossless_of_recognize hstart _).1 p hp⟩, _, hfails,
    (lossless_of_recognize hstart _).2 _ hfails⟩

end Markup.Attribute
