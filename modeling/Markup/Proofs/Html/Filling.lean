import Markup.Proofs.Html.Missing
import Markup.Proofs.Html.Rereading

/-!
# Proofs/Html/Filling — a growth that is filled grows on

A lexeme first closes the elements that its name implies (`Growth.implied`) and then does something
of its own.  What it does then, **it does in the same way to the growth that is filled with end
tags** (`Growth.fill_step`): nothing that a lexeme looks at is changed by them.
-/

namespace Markup.Html

/-- **The start tag of a lexeme is written at an offset**, and nothing belongs to it or its element
has content. -/
def Lexeme.StandsAt (source : List Char) (offset : Nat) : Lexeme → Prop
  | .closedTag name raw =>
    Text.slice? offset (offset + Text.byteSize raw) source = some raw ∧
      ((TagRule.ofName name).isVoid = true ∨ isSelfClosing raw = true)
  | .rawElement name startTag _ _ => OpensAt source ⟨offset, offset + Text.byteSize startTag⟩ name
  | _ => True

namespace Growth

variable {source : List Char} {g : Growth} {l : Lexeme}

/-! ## What a lexeme closes -/

/-- **How many open elements a lexeme closes without an end tag of their own**: a start tag those
whose rules say so, an end tag those inside the one that it is for. -/
def implied (g : Growth) : Lexeme → Nat
  | .mark .. => 0
  | .closedTag name _ | .openTag name _ | .rawElement name .. =>
    (g.names.takeWhile fun inner => (TagRule.ofName inner).isClosedBy name).length
  | .endTag name _ => (g.names.findIdx? (config.namesMatch · name)).getD 0

theorem offset_add (g : Growth) (t : Tree) : (g.add t).offset = g.offset := by
  obtain ⟨offset, roots, stack⟩ := g
  cases stack <;> rfl

theorem offset_closeTop (g : Growth) (endTag : Option Span) :
    (g.closeTop endTag).offset = g.offset := by
  obtain ⟨offset, roots, stack⟩ := g
  cases stack with
  | nil => rfl
  | cons e outer => exact offset_add _ _

theorem offset_closeMany (n : Nat) (g : Growth) : (closeMany n g).offset = g.offset :=
  closeMany_keeps (P := fun g' => g'.offset = g.offset) (offset_closeTop _ none).trans n rfl

theorem imply_eq_closeMany (g : Growth) (name : String) : g.imply name =
    closeMany (g.names.takeWhile fun inner => (TagRule.ofName inner).isClosedBy name).length g := by
  rw [imply, names, List.takeWhile_map, List.length_map]
  rfl

/-- An end tag for nothing that is open is a stray. -/
theorem closeNamed_of_none {name : String}
    (h : g.names.findIdx? (config.namesMatch · name) = none) (endTag : Span) :
    closeNamed config g name endTag = g.add (.stray endTag) := by
  rw [names, List.findIdx?_map] at h
  rw [closeNamed]
  split
  · rfl
  · next hsome => exact absurd (h.symm.trans hsome) (by simp)

theorem closeNamed_of_some {name : String} {n : Nat}
    (h : g.names.findIdx? (config.namesMatch · name) = some n) (endTag : Span) :
    closeNamed config g name endTag = (closeMany n g).closeTop (some endTag) := by
  rw [names, List.findIdx?_map] at h
  rw [closeNamed]
  split
  · next hnone => exact absurd (hnone.symm.trans h) (by simp)
  · next hsome =>
    obtain rfl := Option.some.inj (hsome.symm.trans h)
    rfl

theorem names_eq_drop (n : Nat) (g : Growth) : (closeMany n g).names = g.names.drop n :=
  names_closeMany n g

/-- An end tag for one of the open elements is for the innermost, once those inside are closed. -/
theorem top?_closeMany {name : String} {n : Nat}
    (h : g.names.findIdx? (config.namesMatch · name) = some n) :
    ∃ first, (closeMany n g).top? = some first ∧ config.namesMatch first name = true := by
  obtain ⟨hn, hmatch, -⟩ := List.findIdx?_eq_some_iff_getElem.1 h
  refine ⟨_, ?_, hmatch⟩
  rw [top?, ← List.head?_map]
  exact (congrArg List.head? (names_eq_drop n g)).trans
    ((List.head?_drop ..).trans (List.getElem?_eq_getElem hn))

/-- Behind the first of a list that pass a test there is no other first that does. -/
theorem length_takeWhile_drop_takeWhile {α : Type} (p : α → Bool) (as : List α) :
    ((as.drop (as.takeWhile p).length).takeWhile p).length = 0 := by
  induction as with
  | nil => rfl
  | cons a as ih =>
    by_cases h : p a = true
    · rw [List.takeWhile_cons_of_pos h]
      exact ih
    · rw [List.takeWhile_cons_of_neg h, List.length_nil, List.drop_zero,
        List.takeWhile_cons_of_neg h, List.length_nil]

/-- **What a lexeme closes is closed once**: after it there is nothing more to close. -/
theorem implied_closeMany (g : Growth) (l : Lexeme) :
    (closeMany (g.implied l) g).implied l = 0 := by
  cases l with
  | mark => rfl
  | closedTag name | openTag name | rawElement name =>
    rw [implied, names_eq_drop]
    exact length_takeWhile_drop_takeWhile _ g.names
  | endTag name =>
    rw [implied, implied]
    cases h : g.names.findIdx? (config.namesMatch · name) with
    | none =>
      rw [Option.getD_none, closeMany, h]
      rfl
    | some n =>
      obtain ⟨first, htop, hmatch⟩ := top?_closeMany h
      rw [Option.getD_some]
      obtain ⟨e, he, rfl⟩ := Option.map_eq_some_iff.1 htop
      obtain ⟨outer, hstack⟩ := List.head?_eq_some_iff.1 he
      rw [names, hstack, List.map_cons, List.findIdx?_cons, if_pos hmatch]
      rfl

/-- A start tag still closes the same… -/
theorem imply_closeMany (g : Growth) (name : String) (raw : List Char) :
    (closeMany (g.implied (.openTag name raw)) g).imply name = g.imply name := by
  have hnone := implied_closeMany g (.openTag name raw)
  rw [imply_eq_closeMany, imply_eq_closeMany g]
  exact congrArg (closeMany · _) hnone

/-- …and so does an end tag… -/
theorem closeNamed_closeMany (g : Growth) (name : String) (raw : List Char) (endTag : Span) :
    closeNamed config (closeMany (g.implied (.endTag name raw)) g) name endTag =
      closeNamed config g name endTag := by
  rw [implied]
  cases h : g.names.findIdx? (config.namesMatch · name) with
  | none => rfl
  | some n =>
    obtain ⟨first, htop, hmatch⟩ := top?_closeMany h
    rw [closeNamed_of_some h, Option.getD_some, closeNamed_of_top htop hmatch]

/-- …so the lexeme does what it did. -/
theorem step_closeMany (g : Growth) (l : Lexeme) :
    (closeMany (g.implied l) g).step config l = g.step config l := by
  have hoffset := offset_closeMany (g.implied l) g
  cases l with
  | mark => rfl
  | closedTag name raw | openTag name raw | rawElement name raw =>
    have himply := imply_closeMany g name raw
    rw [step, step, hoffset]
    simp only [implied] at himply ⊢
    simp only [himply]
  | endTag name raw =>
    rw [step, step, hoffset]
    simp only [closeNamed_closeMany]

/-! ## What a lexeme does of its own -/

/-- A start tag that closes nothing leaves all open. -/
theorem imply_of_implied {name : String}
    (h : (g.names.takeWhile fun inner => (TagRule.ofName inner).isClosedBy name).length = 0) :
    g.imply name = g := by
  rw [imply_eq_closeMany]
  exact congrArg (closeMany · g) h

theorem step_mark (g : Growth) (kind : Mark) (raw : List Char) :
    g.step config (.mark kind raw) =
      (g.add (.leaf kind ⟨g.offset, g.offset + Text.byteSize raw⟩)).upTo
        (g.offset + Text.byteSize raw) := rfl

/-- The element that a start tag is which nothing belongs to. -/
def closedElement (offset : Nat) (name : String) (raw : List Char) : Tree :=
  let stop := offset + Text.byteSize raw
  .element name ⟨offset, stop⟩ stop none []

theorem step_closedTag {name : String} {raw : List Char}
    (h : g.implied (.closedTag name raw) = 0) : g.step config (.closedTag name raw) =
      (g.add (closedElement g.offset name raw)).upTo (g.offset + Text.byteSize raw) := by
  rw [step, imply_of_implied h]
  rfl

theorem step_openTag {name : String} {raw : List Char}
    (h : g.implied (.openTag name raw) = 0) : g.step config (.openTag name raw) =
      (g.enter name ⟨g.offset, g.offset + Text.byteSize raw⟩).upTo
        (g.offset + Text.byteSize raw) := by
  rw [step, imply_of_implied h]
  rfl

theorem step_rawElement {name : String} {startTag : List Char}
    (h : g.implied (.openTag name startTag) = 0) (content : List Char)
    (closing : Option (List Char)) :
    g.step config (.rawElement name startTag content closing) =
      (g.add (rawElement g.offset name startTag content closing)).upTo
        (g.offset + Text.byteSize (startTag ++ content ++ closing.getD [])) := by
  rw [step, imply_of_implied h]
  rfl

/-- **An end tag is a stray or closes the innermost element**, if it closes nothing before. -/
theorem step_endTag {name : String} {raw : List Char} (h : g.implied (.endTag name raw) = 0) :
    (∀ g' : Growth, g'.names = g.names → g'.step config (.endTag name raw) =
        (g'.add (.stray ⟨g'.offset, g'.offset + Text.byteSize raw⟩)).upTo
          (g'.offset + Text.byteSize raw)) ∨
      ∃ e, g.stack.head? = some e ∧ ∀ g' : Growth, g'.top? = g.top? →
        g'.step config (.endTag name raw) =
          (g'.closeTop (some ⟨g'.offset, g'.offset + Text.byteSize raw⟩)).upTo
            (g'.offset + Text.byteSize raw) := by
  cases hnames : g.names.findIdx? (config.namesMatch · name) with
  | none =>
    refine Or.inl fun g' hsame => ?_
    rw [step, closeNamed_of_none (by rw [hsame, hnames])]
    rfl
  | some n =>
    obtain rfl : n = 0 := by rwa [implied, hnames] at h
    obtain ⟨first, htop : g.top? = some first, hmatch⟩ := top?_closeMany hnames
    obtain ⟨e, he, rfl⟩ := Option.map_eq_some_iff.1 htop
    exact Or.inr ⟨e, he, fun g' hsame => step_of_top (hsame.trans htop) hmatch⟩

/-! ## What a tree lacks -/

/-- What lacks nothing itself and has nothing inside lacks nothing. -/
theorem missing_eq_nil {t : Tree} (h : t.lacked? source = none) (hchildren : t.children = []) :
    Tree.missing source [t] = [] := by
  rw [Tree.missing_singleton, Tree.insertion?, h, hchildren, Tree.missing_nil]
  rfl

theorem gain_eq_zero {t : Tree} (h : t.lacked? source = none) (hchildren : t.children = []) :
    Tree.gain source [t] = 0 := by
  rw [Tree.gain, missing_eq_nil h hchildren]
  rfl

/-- What is put in at one place is what the text gains. -/
theorem gain_eq {t : Tree} {words : List (List Char)} {position : Nat}
    (h : Tree.missing source [t] = words.map (⟨position, ·⟩)) :
    Tree.gain source [t] = Text.byteSize words.flatten := by
  rw [Tree.gain, h, List.flatMap_map, List.flatMap_id']

/-- A start tag that nothing belongs to lacks nothing. -/
theorem lacked?_closedElement {offset : Nat} {name : String} {raw : List Char}
    (hslice : Text.slice? offset (offset + Text.byteSize raw) source = some raw)
    (hclosed : (TagRule.ofName name).isVoid = true ∨ isSelfClosing raw = true) :
    Tree.lacked? source (closedElement offset name raw) = none := by
  rw [closedElement, Tree.lacked?, hslice]
  exact if_pos hclosed

/-- …so it is only moved. -/
theorem fill_closedElement {offset : Nat} {name : String} {raw : List Char}
    (h : Tree.lacked? source (closedElement offset name raw) = none) (shift : Nat) :
    (closedElement offset name raw).fill source shift =
      closedElement (offset + shift) name raw := by
  rw [closedElement, Tree.fill_of_lacked_eq_none h, closedElement, Tree.gain_nil, Tree.fillAll,
    Nat.add_zero, Nat.add_right_comm]
  rfl

/-- An element whose content is opaque, before it is closed. -/
def opaqueElement (offset : Nat) (name : String) (startTag content : List Char) : OpenElement :=
  let contentStart := offset + Text.byteSize startTag
  { name
    startTag := ⟨offset, contentStart⟩
    children := if content.isEmpty then []
      else [.leaf .text ⟨contentStart, contentStart + Text.byteSize content⟩] }

/-- **Opaque content is opened and closed at once.** -/
theorem rawElement_eq_close (offset : Nat) (name : String) (startTag content : List Char)
    (closing : Option (List Char)) :
    let stop := offset + Text.byteSize startTag + Text.byteSize content
    rawElement offset name startTag content closing =
      (opaqueElement offset name startTag content).close
        (closing.map fun raw => ⟨stop, stop + Text.byteSize raw⟩) := by
  cases closing <;> cases content <;> rfl

theorem contentEnd_opaqueElement (offset : Nat) (name : String) (startTag content : List Char) :
    (opaqueElement offset name startTag content).contentEnd =
      offset + Text.byteSize startTag + Text.byteSize content := by
  cases content <;> rfl

theorem missing_opaqueElement (source : List Char) (offset : Nat) (name : String)
    (startTag content : List Char) :
    Tree.missing source (opaqueElement offset name startTag content).children.reverse = [] := by
  cases content with
  | nil => exact Tree.missing_nil
  | cons c content => exact missing_eq_nil rfl rfl

theorem gain_opaqueElement (source : List Char) (offset : Nat) (name : String)
    (startTag content : List Char) :
    Tree.gain source (opaqueElement offset name startTag content).children.reverse = 0 := by
  rw [Tree.gain, missing_opaqueElement]
  rfl

theorem fill_opaqueElement (source : List Char) (shift offset : Nat) (name : String)
    (startTag content : List Char) :
    (opaqueElement offset name startTag content).fill source shift =
      opaqueElement (offset + shift) name startTag content := by
  have hstart : offset + Text.byteSize startTag + shift =
      offset + shift + Text.byteSize startTag := Nat.add_right_comm ..
  rw [opaqueElement, OpenElement.fill, opaqueElement, Span.movedBy, hstart]
  cases content with
  | nil => rfl
  | cons c content =>
    simp [Tree.fillAll, Tree.fill, Span.movedBy, hstart, Nat.add_right_comm _ _ shift]

section

variable {offset : Nat} {name : String} {startTag content : List Char}
  {closing : Option (List Char)}

/-- **Opaque content lacks its end tag**, or nothing. -/
theorem missing_rawElement
    (hopens : OpensAt source ⟨offset, offset + Text.byteSize startTag⟩ name) :
    Tree.missing source [rawElement offset name startTag content closing] =
      (Lexeme.lacks (.rawElement name startTag content closing)).map
        (⟨offset + Text.byteSize (startTag ++ content ++ closing.getD []), ·⟩) := by
  have hlacked :=
    OpenElement.lacked?_close (e := opaqueElement offset name startTag content) hopens
  have hinside := missing_opaqueElement source offset name startTag content
  have hend := contentEnd_opaqueElement offset name startTag content
  rw [Tree.missing_singleton, rawElement_eq_close, OpenElement.close, Tree.children, hinside]
  cases closing with
  | none =>
    rw [OpenElement.close] at hlacked
    rw [Option.map_none, Tree.insertion?, hlacked, Tree.span, Option.map_none, Option.getD_none,
      hend, Option.getD_none, List.append_nil, Text.byteSize_append, ← Nat.add_assoc]
    rfl
  | some endTag => rfl

/-- **Opaque content is filled with its end tag**, if it lacks it. -/
theorem fill_rawElement (shift : Nat)
    (hopens : OpensAt source ⟨offset, offset + Text.byteSize startTag⟩ name) :
    (rawElement offset name startTag content closing).fill source shift =
      rawElement (offset + shift) name startTag content
        (some (closing.getD (Html.endTag name.toList))) := by
  have hlacked :=
    OpenElement.lacked?_close (e := opaqueElement offset name startTag content) hopens
  have hstop : offset + Text.byteSize startTag + Text.byteSize content + shift =
      offset + shift + Text.byteSize startTag + Text.byteSize content := by omega
  rw [rawElement_eq_close, rawElement_eq_close, ← fill_opaqueElement source]
  cases closing with
  | none =>
    rw [Option.map_none, OpenElement.fill_close_none hlacked, contentEnd_opaqueElement,
      gain_opaqueElement, Nat.add_zero, hstop]
    rfl
  | some endTag =>
    rw [Option.map_some, OpenElement.fill_close_some, gain_opaqueElement, Nat.add_zero,
      Span.movedBy_size, hstop]
    rfl

end

/-! ## Growing, filled -/

theorem fill_upTo (g : Growth) (offset : Nat) : (g.upTo offset).fill source =
    (g.fill source).upTo (offset + Tree.gain source g.finished) := rfl

theorem offset_fill (source : List Char) (g : Growth) :
    (g.fill source).offset = g.offset + Tree.gain source g.finished := rfl

theorem implied_fill (source : List Char) (g : Growth) (l : Lexeme) :
    (g.fill source).implied l = g.implied l := by
  cases l <;> simp only [implied, names_fill]

/-- **What is missing after a lexeme** that closes nothing before is what it lacks itself. -/
theorem missing_step (himplied : g.implied l = 0) (hl : l.StandsAt source g.offset) :
    Tree.missing source (g.step config l).finished = Tree.missing source g.finished ++
      l.lacks.map (⟨g.offset + Text.byteSize l.text, ·⟩) := by
  have hadd : ∀ {t : Tree} {stop : Nat}, Tree.missing source ((g.add t).upTo stop).finished =
      Tree.missing source g.finished ++ Tree.missing source [t] := by
    intro t stop
    rw [← Tree.missing_append, ← finished_add]
    rfl
  cases l with
  | mark kind raw => rw [step_mark, hadd, missing_eq_nil rfl rfl]; rfl
  | closedTag name raw =>
    obtain ⟨hslice, hclosed⟩ := hl
    rw [step_closedTag himplied, hadd, missing_eq_nil (lacked?_closedElement hslice hclosed) rfl]
    rfl
  | openTag name raw =>
    have hfinished := finished_enter g name ⟨g.offset, g.offset + Text.byteSize raw⟩
    rw [step_openTag himplied]
    exact (congrArg (Tree.missing source) hfinished).trans (List.append_nil _).symm
  | rawElement name startTag content closing =>
    rw [step_rawElement himplied, hadd, missing_rawElement hl]
    rfl
  | endTag name raw =>
    obtain hstray | ⟨e, he, hclose⟩ := step_endTag himplied
    · rw [hstray g rfl, hadd, missing_eq_nil rfl rfl]
      rfl
    · rw [hclose g rfl]
      exact missing_closeTop he _

/-- Where a growth goes on by a tree, the filled one goes on by the filled tree. -/
theorem fill_add_upTo {t t' : Tree} {size size' : Nat}
    (ht : t.fill source (Tree.gain source g.finished) = t')
    (hsize : size' = size + Tree.gain source [t]) :
    ((g.add t).upTo (g.offset + size)).fill source =
      ((g.fill source).add t').upTo ((g.fill source).offset + size') := by
  have hstop : g.offset + size + Tree.gain source (g.finished ++ [t]) =
      (g.fill source).offset + size' := by
    rw [Tree.gain_append, offset_fill, hsize]
    omega
  rw [fill_upTo, finished_add, fill_add, ht, hstop]
  rfl

/-- **A lexeme does to the filled growth what it does**, if it closes nothing before. -/
theorem fill_step (himplied : g.implied l = 0) (hl : l.StandsAt source g.offset) :
    (g.step config l).fill source = (g.fill source).step config l.closed := by
  have himplied' := (implied_fill source g l).trans himplied
  cases l with
  | mark kind raw =>
    change _ = (g.fill source).step config (.mark kind raw)
    rw [step_mark, step_mark]
    refine fill_add_upTo ?_ (by rw [gain_eq_zero rfl rfl, Nat.add_zero])
    rw [Tree.fill, Span.movedBy_size]
    rfl
  | closedTag name raw =>
    obtain ⟨hslice, hclosed⟩ := hl
    have hlacked := lacked?_closedElement hslice hclosed
    change _ = (g.fill source).step config (.closedTag name raw)
    rw [step_closedTag himplied, step_closedTag himplied']
    exact fill_add_upTo (fill_closedElement hlacked _)
      (by rw [gain_eq_zero hlacked rfl, Nat.add_zero])
  | openTag name raw =>
    change _ = (g.fill source).step config (.openTag name raw)
    rw [step_openTag himplied, step_openTag himplied', fill_upTo, finished_enter, fill_enter,
      Span.movedBy_size, offset_fill, Nat.add_right_comm]
  | rawElement name startTag content closing =>
    have hsize := congrArg Text.byteSize
      (Lexeme.text_closed (.rawElement name startTag content closing))
    rw [Text.byteSize_append, ← gain_eq (missing_rawElement hl)] at hsize
    rw [Lexeme.closed, step_rawElement himplied, step_rawElement himplied']
    exact fill_add_upTo (fill_rawElement _ hl) hsize
  | endTag name raw =>
    change _ = (g.fill source).step config (.endTag name raw)
    obtain hstray | ⟨e, he, hclose⟩ := step_endTag himplied
    · rw [hstray g rfl, hstray _ (names_fill source g)]
      refine fill_add_upTo ?_ (by rw [gain_eq_zero rfl rfl, Nat.add_zero])
      rw [Tree.fill, Span.movedBy_size]
      rfl
    · have hstop : g.offset + Text.byteSize raw + Tree.gain source g.finished =
          (g.fill source).offset + Text.byteSize raw := Nat.add_right_comm ..
      rw [hclose g rfl, hclose _ (top?_fill source g), fill_upTo, fill_closeTop_some he,
        gain_closeTop source he, Span.movedBy]
      simp only [OpenElement.close, Tree.lacked?, Option.getD_none, Text.byteSize_nil,
        Nat.add_zero, hstop]
      rfl

end Growth

end Markup.Html
