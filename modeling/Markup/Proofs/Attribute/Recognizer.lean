import Markup.Proofs.Attribute.Place

/-!
# Proofs/Attribute/Recognizer — the recognizer goes where the splitter's scanner does

In a text that ends a tag **every stage of the recognizer succeeds**: it takes some of the text for
the attribute and leaves one that ends the tag (`GoesOn`).  So the first attribute of such a text is
a part of it behind the blanks (`exists_of_recognize`).
-/

namespace Markup.Attribute

/-- The text of an attribute without its leading spaces. -/
def Parts.text (p : Parts) : List Char := (p.toList.drop 1).flatten

namespace Recognizer

variable {quotes : List Quote} {rules : Rules} {p : Parts} {c : Char} {cs tail : List Char}

/-- **A stage goes on from the parts so far**: it adds some text to the attribute and leaves a text
that ends the tag. -/
def GoesOn (quotes : List Quote) (p : Parts) (cs : List Char) (result : Fallible) : Prop :=
  ∃ p' used, result = .ok p' ∧ cs = used ++ p'.leftover ∧
    p'.spacesBeforeName = p.spacesBeforeName ∧ p'.text = p.text ++ used ∧
    (splitter quotes).Ends .between p'.leftover

/-- Stages that follow each other go on together. -/
theorem GoesOn.after {q : Parts} {used : List Char} {result : Fallible}
    (h : GoesOn quotes q tail result) (hcs : cs = used ++ tail)
    (hspaces : q.spacesBeforeName = p.spacesBeforeName) (htext : q.text = p.text ++ used) :
    GoesOn quotes p cs result := by
  obtain ⟨p', more, rfl, rfl, hspaces', htext', hends⟩ := h
  refine ⟨p', used ++ more, rfl, ?_, hspaces'.trans hspaces, ?_, hends⟩
  · rw [hcs, List.append_assoc]
  · rw [htext', htext, List.append_assoc]

/-- A stage may leave all of a text that ends the tag. -/
theorem goesOn_leave (h : (splitter quotes).Ends .between cs) :
    GoesOn quotes p cs (.ok { p with leftover := cs }) :=
  ⟨_, [], rfl, rfl, rfl, (List.append_nil _).symm, h⟩

/-- The first character after blanks is none. -/
theorem not_isBlank_of_dropWhile (h : cs.dropWhile Text.isBlank = c :: tail) :
    Text.isBlank c = false := by
  have hhead := List.head?_dropWhile_not Text.isBlank cs
  simpa [h] using hhead

/-- A value without quotes goes on… -/
theorem goesOn_unquotedValue (hq : Quote.Apart quotes) (hvalue : p.value = [])
    (hend : p.endQuote = []) (h : (splitter quotes).Ends .bare cs) :
    GoesOn quotes p cs (.ok (unquotedValue ['>'] p cs)) := by
  refine ⟨_, cs.takeWhile fun c => !(Text.isBlank c || ['>'].contains c), rfl,
    List.takeWhile_append_dropWhile.symm, rfl, ?_, Splitter.ends_of_bare hq h⟩
  simp [Parts.text, Layout.toList, unquotedValue, hvalue, hend]

/-- …so does one in quotes… -/
theorem goesOn_quotedValue {q : Quote} (hquote : p.quote = some q) (hvalue : p.value = [])
    (hend : p.endQuote = []) (h : (splitter quotes).Ends (Place.ofQuote q) cs) :
    GoesOn quotes p cs (quotedValue p cs) := by
  obtain ⟨value, rest, hclose, hrest⟩ := Splitter.exists_of_ofQuote h
  have happ : value ++ q.closing :: rest = cs := by
    rw [closeValue?] at hclose
    split at hclose
    · exact Text.append_of_cut hclose
    · exact (Expression.append_of_split? hclose).1
  refine ⟨{ p with value, endQuote := [q.closing], leftover := rest }, value ++ [q.closing], ?_, ?_,
    rfl, ?_, hrest⟩
  · rw [quotedValue, if_neg (by simpa using h.ne_nil)]
    simp only [hquote, Option.getD_some, hclose, List.drop_one, List.tail_cons]
  · simp [← happ]
  · simp [Parts.text, Layout.toList, hvalue, hend]

/-- **Parts up to an equals sign**, with nothing behind it. -/
structure UpToEqual (p : Parts) : Prop where
  equal : p.equal ≠ []
  spacesAfterEqual : p.spacesAfterEqual = []
  startQuote : p.startQuote = []
  value : p.value = []
  endQuote : p.endQuote = []

/-- …and what follows an equals sign. -/
theorem goesOn_beforeValue (hq : Quote.Apart rules.quotes) (hends : rules.unquotedEnd = ['>'])
    (hp : UpToEqual p) (h : (splitter rules.quotes).Ends .beforeValue cs) :
    GoesOn rules.quotes p cs (beforeValue rules p cs) := by
  obtain ⟨hequal, hgap, hstart, hvalue, hend⟩ := hp
  have hnamed : (p.name.isEmpty && p.equal.isEmpty) = false := by simp [hequal]
  have hspan := List.takeWhile_append_dropWhile (p := Text.isBlank) (l := cs)
  rw [← Splitter.ends_beforeValue_dropWhile hq] at h
  rw [beforeValue]
  simp only [hnamed, Bool.false_and, Bool.false_eq_true, if_false]
  split
  · next hnil => exact absurd hnil h.ne_nil
  · next c tail hrest =>
    rw [hrest] at h hspan
    let spaced := { p with spacesAfterEqual := cs.takeWhile Text.isBlank }
    have htext : spaced.text = p.text ++ cs.takeWhile Text.isBlank := by
      simp [spaced, Parts.text, Layout.toList, hgap, hstart, hvalue, hend]
    split
    · next q hopened =>
      let opened := { spaced with startQuote := [c], quote := some q }
      have hvalued : GoesOn rules.quotes opened tail (quotedValue opened tail) :=
        goesOn_quotedValue rfl hvalue hend (Splitter.ends_ofQuote hq hopened h)
      have hquoted : opened.text = p.text ++ (cs.takeWhile Text.isBlank ++ [c]) := by
        simp [opened, spaced, Parts.text, Layout.toList, hgap, hstart, hvalue, hend]
      exact hvalued.after (by simp [hspan]) rfl hquoted
    · next hopened =>
      rw [hrest]
      split
      · next hbracket =>
        subst hbracket
        have hlast : (splitter rules.quotes).Ends .between ('>' :: tail) := by
          rw [h.eq_nil rfl]
          exact Scanner.ends_bracket rfl
        have hleft : GoesOn rules.quotes spaced ('>' :: tail)
            (.ok { spaced with leftover := '>' :: tail }) := goesOn_leave hlast
        exact hleft.after hspan.symm rfl htext
      · next hbracket =>
        have hbare := Splitter.ends_bare_of_beforeValue hopened hbracket
          (not_isBlank_of_dropWhile hrest) h
        have hvalued : GoesOn rules.quotes spaced (c :: tail)
            (.ok (unquotedValue ['>'] spaced (c :: tail))) :=
          goesOn_unquotedValue hq hvalue hend hbare
        rw [hends]
        exact hvalued.after hspan.symm rfl htext

/-- What has been read when a name has, behind blanks. -/
def named (spaces name : List Char) : Parts :=
  { Parts.empty with spacesBeforeName := spaces, name }

theorem text_named (spaces name : List Char) : (named spaces name).text = name := by
  simp [named, Parts.text, Layout.toList, Parts.empty, Layout.fill]

/-- The equal sign goes on from a name, or all of the blanks are left. -/
theorem goesOn_beforeEqual (hq : Quote.Apart rules.quotes) (hends : rules.unquotedEnd = ['>'])
    {spaces name : List Char} (h : (splitter rules.quotes).Ends .between cs) :
    GoesOn rules.quotes (named spaces name) cs (beforeEqual rules (named spaces name) cs) := by
  rw [beforeEqual]
  split
  · next rest hrest =>
    have hspan := List.takeWhile_append_dropWhile (p := Text.isBlank) (l := cs)
    rw [← Splitter.ends_between_dropWhile hq, hrest, Scanner.ends_cons (by simp),
      Splitter.step_between, if_pos rfl] at h
    let equated := { named spaces name with
      spacesBeforeEqual := cs.takeWhile Text.isBlank, equal := ['='] }
    have hvalued : GoesOn rules.quotes equated rest (beforeValue rules equated rest) :=
      goesOn_beforeValue hq hends ⟨List.cons_ne_nil _ _, rfl, rfl, rfl, rfl⟩ h
    have htext : equated.text =
        (named spaces name).text ++ (cs.takeWhile Text.isBlank ++ ['=']) := by
      simp [equated, named, Parts.text, Layout.toList, Parts.empty, Layout.fill]
    refine hvalued.after ?_ rfl htext
    rw [List.append_assoc, List.singleton_append, ← hrest, hspan]
  · exact goesOn_leave h

/-- **A stage takes an attribute**: some of the text, and leaves a text that ends the tag. -/
def Takes (quotes : List Quote) (spaces cs : List Char) (result : Fallible) : Prop :=
  ∃ p, result = .ok p ∧ p.spacesBeforeName = spaces ∧ p.text ≠ [] ∧ cs = p.text ++ p.leftover ∧
    (splitter quotes).Ends .between p.leftover

theorem GoesOn.takes {result : Fallible} (h : GoesOn quotes p tail result) (hne : p.text ≠ [])
    (hcs : cs = p.text ++ tail) : Takes quotes p.spacesBeforeName cs result := by
  obtain ⟨p', used, rfl, rfl, hspaces, htext, hends⟩ := h
  refine ⟨p', rfl, hspaces, ?_, ?_, hends⟩
  · rw [htext]
    exact List.append_ne_nil_of_left_ne_nil hne _
  · rw [hcs, htext, List.append_assoc]

/-! ## Names -/

/-- A name is what the text begins with… -/
theorem nameOf_append_drop (quotes : List Quote) (cs : List Char) :
    nameOf quotes cs ++ cs.drop (nameOf quotes cs).length = cs := by
  refine List.prefix_iff_eq_append.1 ?_
  cases cs with
  | nil => exact List.prefix_rfl
  | cons c cs =>
    rw [nameOf]
    split
    · exact List.nil_prefix
    · exact List.cons_prefix_cons.2 ⟨rfl, List.takeWhile_prefix _⟩

/-- …and only its first character may be one that opens a quote. -/
theorem of_mem_nameOf {d : Char} (h : d ∈ nameOf quotes (c :: tail)) :
    isNameStop d = false ∧ (d = c ∨ Quote.opened? quotes d = none) := by
  rw [nameOf] at h
  split at h
  · exact absurd h List.not_mem_nil
  · next hstop =>
    rcases List.mem_cons.1 h with rfl | hlater
    · exact ⟨by simpa using hstop, Or.inl rfl⟩
    · have hlater := List.mem_takeWhile_imp hlater
      rw [Bool.and_eq_true, Bool.not_eq_true', Option.isNone_iff_eq_none] at hlater
      exact ⟨hlater.1, Or.inr hlater.2⟩

/-- **Behind a name the text still ends the tag.** -/
theorem ends_drop_nameOf (hscript : Quote.script? quotes c = none)
    (h : (splitter quotes).Ends .between (c :: tail)) :
    (splitter quotes).Ends .between ((c :: tail).drop (nameOf quotes (c :: tail)).length) := by
  rw [← nameOf_append_drop quotes (c :: tail),
    Splitter.ends_between_append] at h
  · exact h
  intro d hd
  obtain ⟨hstop, hfirst⟩ := of_mem_nameOf hd
  refine ⟨?_, ?_, ?_⟩
  · rintro rfl
    exact absurd hstop (by decide)
  · rintro rfl
    exact absurd hstop (by decide)
  · rcases hfirst with rfl | hnone
    · exact hscript
    · rw [Quote.script?, hnone, Option.filter_none]

/-- **An attribute with a name**, or with an equal sign alone. -/
theorem takes_name (hq : Quote.Apart rules.quotes) (hends : rules.unquotedEnd = ['>'])
    {spaces : List Char} (hblank : Text.isBlank c = false) (hc : c ≠ '>' ∧ c ≠ '/')
    (hscript : Quote.script? rules.quotes c = none)
    (h : (splitter rules.quotes).Ends .between (c :: tail)) :
    Takes rules.quotes spaces (c :: tail) (name rules (named spaces []) (c :: tail)) := by
  have hrest := ends_drop_nameOf hscript h
  have hspan := nameOf_append_drop rules.quotes (c :: tail)
  rw [name]
  generalize hname : nameOf rules.quotes (c :: tail) = n at hrest hspan
  dsimp only
  split
  · next rest heq =>
    rw [heq, Scanner.ends_cons (by simp), Splitter.step_between, if_pos rfl] at hrest
    rw [heq] at hspan
    let equated := { named spaces n with equal := ['='] }
    have hvalued : GoesOn rules.quotes equated rest (beforeValue rules equated rest) :=
      goesOn_beforeValue hq hends ⟨List.cons_ne_nil _ _, rfl, rfl, rfl, rfl⟩ hrest
    have htext : equated.text = n ++ ['='] := by
      simp [equated, named, Parts.text, Layout.toList, Parts.empty, Layout.fill]
    exact hvalued.takes (by simp [htext]) (by simp [htext, hspan])
  · next hequal =>
    have hne : (named spaces n).text ≠ [] := by
      rw [text_named]
      rintro rfl
      have hstop : isNameStop c = true := by
        by_contra hstop
        rw [nameOf, if_neg hstop] at hname
        exact absurd hname (List.cons_ne_nil _ _)
      have hsign : c = '=' := by simpa [isNameStop, hblank, hc] using hstop
      exact hequal tail (by simp [hsign])
    have hcs : c :: tail = (named spaces n).text ++ (c :: tail).drop n.length := by
      rw [text_named, hspan]
    split
    · exact (goesOn_beforeEqual hq hends hrest).takes hne hcs
    · exact (goesOn_leave hrest).takes hne hcs

/-! ## Scripts without a name -/

/-- A spread begins with braces that open a script. -/
theorem exists_of_startsSpread (h : startsSpread quotes (c :: tail) = true) :
    c = '{' ∧ ∃ q, Quote.script? quotes '{' = some q := by
  rw [startsSpread, Bool.and_eq_true, List.isPrefixOf_cons_cons, Bool.and_eq_true, beq_iff_eq] at h
  obtain ⟨⟨hbrace, -⟩, hallowed⟩ := h
  obtain ⟨q, hopened, hkind⟩ := (Option.any_eq_true _ _).1 hallowed
  exact ⟨hbrace.symm, q, Option.filter_eq_some_iff.2 ⟨hopened, hkind⟩⟩

/-- **What follows the opening character of a script** is an expression that is closed. -/
theorem exists_of_script? (hq : Quote.Apart quotes) {q : Quote}
    (hscript : Quote.script? quotes c = some q)
    (h : (splitter quotes).Ends .between (c :: tail)) :
    (splitter quotes).Ends (Place.ofQuote q) tail := by
  have hstop : isNameStop c = false := by
    by_contra hstop
    simp [hq.script?_eq_none (by simpa using hstop)] at hscript
  have hequal : c ≠ '=' := by
    rintro rfl
    exact absurd hstop (by decide)
  have hbracket : c ≠ '>' := by
    rintro rfl
    exact absurd hstop (by decide)
  rwa [Scanner.ends_cons fun hclose => hbracket hclose.1, Splitter.step_between, if_neg hequal,
    hscript, Option.elim_some] at h

/-- A spread ends with its braces… -/
theorem takes_spread (hq : Quote.Apart quotes) (spaces : List Char)
    (hstarts : startsSpread quotes (c :: tail) = true)
    (h : (splitter quotes).Ends .between (c :: tail)) :
    Takes quotes spaces (c :: tail) (spread quotes (named spaces []) (c :: tail)) := by
  obtain ⟨rfl, q, hscript⟩ := exists_of_startsSpread hstarts
  obtain ⟨-, hkind⟩ := Option.filter_eq_some_iff.1 hscript
  obtain ⟨value, rest, hclose, hrest⟩ :=
    Splitter.exists_of_ofQuote (exists_of_script? hq hscript h)
  rw [closeValue?, beq_iff_eq.1 hkind, hq.braces q hscript] at hclose
  dsimp only at hclose
  have htail := (Expression.append_of_split? hclose).1
  have hdrop : Text.dropBytes? 1 ('{' :: tail) = some tail :=
    Text.dropBytes?_byteSize ['{'] tail
  let spreading := { named spaces [] with
    startQuote := ['{'], value, endQuote := ['}'], leftover := rest
    quote := Quote.opened? quotes '{', spread := true }
  have hspread : spread quotes (named spaces []) ('{' :: tail) = .ok spreading := by
    rw [spread, if_neg (by simp), hdrop, Option.bind_some, hclose]
    rfl
  have htext : spreading.text = '{' :: (value ++ ['}']) := by
    simp [spreading, named, Parts.text, Layout.toList, Parts.empty, Layout.fill]
  exact ⟨spreading, hspread, rfl, by simp [htext], by simp [htext, ← htail, spreading], hrest⟩

/-- …and **a script without a name** where its expression does. -/
theorem takes_script (hq : Quote.Apart rules.quotes) {q : Quote}
    (hscript : Quote.script? rules.quotes c = some q)
    (hcs : cs.dropWhile Text.isBlank = c :: tail)
    (h : (splitter rules.quotes).Ends .between (c :: tail)) :
    Takes rules.quotes (cs.takeWhile Text.isBlank) (c :: tail)
      (beforeValue rules .empty cs) := by
  obtain ⟨hopened, -⟩ := Option.filter_eq_some_iff.1 hscript
  have hbare : (Parts.empty.name.isEmpty && Parts.empty.equal.isEmpty) = true := rfl
  have hvalued := exists_of_script? hq hscript h
  rw [beforeValue]
  simp only [hbare, if_true, Bool.true_and]
  rw [hcs]
  dsimp only
  split
  · next hstarts => exact takes_spread hq _ hstarts h
  · rw [hopened]
    let opened := { named (cs.takeWhile Text.isBlank) [] with startQuote := [c], quote := some q }
    have hquoted : GoesOn rules.quotes opened tail (quotedValue opened tail) :=
      goesOn_quotedValue rfl rfl rfl hvalued
    have htext : opened.text = [c] := by
      simp [opened, named, Parts.text, Layout.toList, Parts.empty, Layout.fill]
    exact hquoted.takes (by simp [htext]) (by simp [htext])

end Recognizer

/-- **Rules by which one attribute follows another** in a text: an attribute that opens a script has
no name. -/
structure Rules.Regular (rules : Rules) (cs : List Char) : Prop where
  apart : Quote.Apart rules.quotes
  ends : rules.unquotedEnd = ['>']
  start : rules.start =
    if ((cs.dropWhile Text.isBlank).head?.bind (Quote.script? rules.quotes)).isSome
    then .beforeValue else .beforeName

open Recognizer in
/-- **The first attribute of a text that ends a tag** is what follows the blanks, up to another such
text. -/
theorem exists_of_recognize {rules : Rules} {c : Char} {cs tail : List Char}
    (hrules : rules.Regular cs) (hcs : cs.dropWhile Text.isBlank = c :: tail)
    (hc : c ≠ '>' ∧ c ≠ '/') (h : (splitter rules.quotes).Ends .between cs) :
    ∃ p, recognize rules cs = .ok p ∧ p.spacesBeforeName = cs.takeWhile Text.isBlank ∧
      p.text ≠ [] ∧ c :: tail = p.text ++ p.leftover ∧
      (splitter rules.quotes).Ends .between p.leftover := by
  obtain ⟨hq, hends, hstart⟩ := hrules
  rw [← Splitter.ends_between_dropWhile hq, hcs] at h
  rw [hcs, List.head?_cons, Option.bind_some] at hstart
  have htakes : Takes rules.quotes (cs.takeWhile Text.isBlank) (c :: tail) (start rules cs) := by
    cases hscript : Quote.script? rules.quotes c with
    | some q =>
      rw [hscript, Option.isSome_some, if_pos rfl] at hstart
      rw [start, hstart]
      exact takes_script hq hscript hcs h
    | none =>
      rw [hscript, Option.isSome_none, if_neg Bool.false_ne_true] at hstart
      have hspread : startsSpread rules.quotes (c :: tail) = false := by
        by_contra hstarts
        obtain ⟨rfl, q, hq⟩ := exists_of_startsSpread (Bool.not_eq_false _ ▸ hstarts)
        exact absurd (hscript.symm.trans hq) (by simp)
      rw [start, hstart]
      dsimp only
      rw [beforeName, hcs]
      dsimp only
      rw [if_neg (by simp [hspread]), if_neg (by simp [hc])]
      exact takes_name hq hends (not_isBlank_of_dropWhile hcs) hc hscript h
  obtain ⟨p, hstarted, hspaces, hne, htext, hrest⟩ := htakes
  exact ⟨p, by rw [recognize, hstarted], hspaces, hne, htext, hrest⟩

end Markup.Attribute
