import Markup.Html.Tree
import Markup.Proofs.Html.Lexeme
import Markup.Proofs.Text.Slice
import Markup.Proofs.Tiling

/-!
# Proofs/Html/Tree — the trees of a text cover it

While a tree grows, **what is finished and what is open cover the text that has been read**:
`Growth.Covers` keeps, along the stack, that the start tag of each open element is written there,
that its children follow the tag and that the element begins where those of the next outer one end.
`covers_step` is the step and `Tree.exists_of_ofText` goes from steps to whole texts; the end of the
text closes what is open without reading more, so the roots cover the text
(`Tree.forest_of_ofText`).
-/

namespace Markup.Html

/-- A range of the text is a start tag with this name and text. -/
def StartTagAt (source : List Char) (span : Span) (name : String) (raw : List Char) : Prop :=
  Text.slice? span.start span.stop source = some raw ∧ IsStartTag raw name

/-- The start tag opens an element that may have content. -/
def OpensAt (source : List Char) (span : Span) (name : String) : Prop :=
  ∃ raw, StartTagAt source span name raw ∧
    ¬((TagRule.ofName name).isVoid = true ∨ isSelfClosing raw = true)

/-- **A tree whose parts cover it**: a start tag that is written there, the children in a row, and
the end tag if there is one. -/
inductive Tree.WellFormed (source : List Char) : Tree → Prop
  | leaf (kind : Mark) (span : Span) : WellFormed source (.leaf kind span)
  | stray (span : Span) : WellFormed source (.stray span)
  | element {name : String} {span : Span} {startTagEnd content : Nat} {endTag : Option Span}
      {raw : List Char} {children : List Tree} (startTag : span.start < startTagEnd)
      (written : StartTagAt source ⟨span.start, startTagEnd⟩ name raw)
      (closed : (TagRule.ofName name).isVoid = true ∨ isSelfClosing raw = true →
        endTag = none ∧ children = [])
      (row : Tiled startTagEnd content children) (inside : ∀ t ∈ children, WellFormed source t)
      (closes : Closes content span.stop endTag) :
      WellFormed source (.element name span startTagEnd endTag children)

/-- **What is open covers the text up to a place**: outermost the roots, then the start tag and the
children of each open element in turn. -/
inductive Stacked (source : List Char) (roots : List Tree) : List OpenElement → Nat → Prop
  | nil {stop : Nat} (finished : Forest (Tree.WellFormed source) 0 stop roots.reverse) :
      Stacked source roots [] stop
  | cons {e : OpenElement} {outer : List OpenElement} {stop : Nat}
      (before : Stacked source roots outer e.startTag.start)
      (startTag : e.startTag.start < e.startTag.stop)
      (opens : OpensAt source e.startTag e.name)
      (inside : Forest (Tree.WellFormed source) e.startTag.stop stop e.children.reverse) :
      Stacked source roots (e :: outer) stop

/-- The element ends where its children do. -/
theorem OpenElement.contentEnd_eq {source : List Char} {e : OpenElement} {stop : Nat}
    (h : Forest (Tree.WellFormed source) e.startTag.stop stop e.children.reverse) :
    e.contentEnd = stop := by
  rw [contentEnd]
  split
  · next hnil =>
    have htiled := h.tiled
    rw [hnil] at htiled
    exact htiled
  · next last others hcons =>
    refine h.tiled.stop_of_getLast? ?_
    rw [hcons, List.getLast?_reverse, List.head?_cons]

namespace Growth

variable {source : List Char} {g : Growth} {config : Config} {stop mid : Nat}

/-- **A growth that covers the text up to a place.** -/
def Covers (source : List Char) (g : Growth) (stop : Nat) : Prop :=
  Stacked source g.roots g.stack stop

/-- **A finished tree that begins there goes on.** -/
theorem Covers.add (h : g.Covers source mid) {t : Tree} (hspan : t.span = ⟨mid, stop⟩)
    (hlt : mid < stop) (ht : t.WellFormed source) : (g.add t).Covers source stop := by
  obtain ⟨offset, roots, stack⟩ := g
  cases h with
  | nil finished =>
    have hroots := finished.concat hspan hlt ht
    rw [← List.reverse_cons] at hroots
    exact Stacked.nil hroots
  | cons before startTag opens inside =>
    have hchildren := inside.concat hspan hlt ht
    rw [← List.reverse_cons] at hchildren
    exact Stacked.cons before startTag opens hchildren

/-- **A start tag opens an element.** -/
theorem Covers.enter (h : g.Covers source mid) {name : String} (hlt : mid < stop)
    (hopens : OpensAt source ⟨mid, stop⟩ name) : (g.enter name ⟨mid, stop⟩).Covers source stop :=
  Stacked.cons h hlt hopens (Forest.nil _)

/-- **Closing the innermost element** goes on to the end of its end tag. -/
theorem Covers.closeTop (h : g.Covers source mid) (hopen : g.stack ≠ []) {endTag : Option Span}
    (hcloses : Closes mid stop endTag) : (g.closeTop endTag).Covers source stop := by
  obtain ⟨offset, roots, stack⟩ := g
  cases h with
  | nil => exact absurd rfl hopen
  | @cons e outer _ before startTag opens inside =>
    have hstop : (endTag.map Span.stop).getD e.contentEnd = stop := by
      cases endTag with
      | none => exact (e.contentEnd_eq inside).trans hcloses
      | some s =>
        obtain ⟨rfl, -⟩ := hcloses
        rfl
    have hlt : e.startTag.start < stop :=
      Nat.lt_of_lt_of_le startTag (Nat.le_trans inside.tiled.le hcloses.le)
    refine Covers.add (g := { offset, roots, stack := outer }) before
      (t := e.close endTag) ?_ hlt ?_
    · rw [OpenElement.close, Tree.span, hstop]
    · obtain ⟨raw, written, hopens⟩ := opens
      refine Tree.WellFormed.element startTag written (fun hclosed => absurd hclosed hopens)
        inside.tiled inside.all ?_
      rwa [hstop]

/-- What is open keeps its name while something inside it is closed. -/
theorem names_closeTop (g : Growth) (endTag : Option Span) :
    (g.closeTop endTag).stack.map OpenElement.name = (g.stack.map OpenElement.name).tail := by
  obtain ⟨offset, roots, stack⟩ := g
  match stack with
  | [] => rfl
  | [_] => rfl
  | _ :: _ :: _ => rfl

theorem names_closeMany (n : Nat) (g : Growth) :
    (Growth.closeMany n g).stack.map OpenElement.name = (g.stack.map OpenElement.name).drop n := by
  induction n generalizing g with
  | zero => rfl
  | succ n ih => rw [Growth.closeMany, ih, names_closeTop, List.drop_tail]

/-- So that many elements are open then. -/
theorem stack_closeTop (g : Growth) (endTag : Option Span) :
    (g.closeTop endTag).stack.length = g.stack.length - 1 := by
  simpa using congrArg List.length (names_closeTop g endTag)

theorem stack_closeMany (n : Nat) (g : Growth) :
    (Growth.closeMany n g).stack.length = g.stack.length - n := by
  simpa using congrArg List.length (names_closeMany n g)

/-- **What closing the innermost element keeps, closing several keeps.** -/
theorem closeMany_keeps {P : Growth → Prop} (hclose : ∀ {g : Growth}, P g → P (g.closeTop none))
    (n : Nat) (h : P g) : P (closeMany n g) := by
  induction n generalizing g with
  | zero => exact h
  | succ n ih => exact ih (hclose h)

/-- Where elements are closed without end tags, nothing more is read. -/
theorem Covers.closeMany {n : Nat} (h : g.Covers source stop) (hn : n ≤ g.stack.length) :
    (closeMany n g).Covers source stop := by
  induction n generalizing g with
  | zero => exact h
  | succ n ih =>
    refine ih (h.closeTop ?_ rfl) ?_
    · exact List.length_pos_iff.1 (Nat.lt_of_lt_of_le (Nat.succ_pos n) hn)
    · rw [stack_closeTop]
      omega

theorem Covers.imply (h : g.Covers source stop) (name : String) :
    (g.imply name).Covers source stop :=
  h.closeMany (List.takeWhile_prefix _).length_le

/-- **An end tag goes on**, whether it closes an element or not. -/
theorem Covers.closeNamed (h : g.Covers source mid) (name : String) (hlt : mid < stop) :
    (g.closeNamed config name ⟨mid, stop⟩).Covers source stop := by
  rw [Growth.closeNamed]
  split
  · exact h.add rfl hlt (Tree.WellFormed.stray _)
  · next inner hinner =>
    obtain ⟨hbound, -⟩ := List.findIdx?_eq_some_iff_getElem.1 hinner
    refine (h.closeMany (Nat.le_of_lt hbound)).closeTop ?_ ⟨rfl, hlt⟩
    rw [← List.length_pos_iff, stack_closeMany]
    omega

/-- **An element with opaque content** has it as its only child. -/
theorem wellFormed_rawElement {offset : Nat} {name : String} {startTag content : List Char}
    {endTag : Option (List Char)} (hend : endTag ≠ some [])
    (hopens : OpensAt source ⟨offset, offset + Text.byteSize startTag⟩ name)
    (hstart : startTag ≠ []) :
    (rawElement offset name startTag content endTag).WellFormed source := by
  obtain ⟨raw, written, hopen⟩ := hopens
  have hlt := Nat.lt_add_of_pos_right (n := offset) (Text.byteSize_pos hstart)
  have hinside : Forest (Tree.WellFormed source) (offset + Text.byteSize startTag)
      (offset + Text.byteSize startTag + Text.byteSize content) _ :=
    Forest.ofText rfl (Tree.WellFormed.leaf .text _)
  refine Tree.WellFormed.element hlt written (fun hclosed => absurd hclosed hopen) hinside.tiled
    hinside.all ?_
  cases endTag with
  | none => rfl
  | some raw =>
    have hraw : raw ≠ [] := fun h => hend (congrArg some h)
    exact ⟨rfl, Nat.lt_add_of_pos_right (Text.byteSize_pos hraw)⟩

/-- **Growing by a lexeme goes on by its text.** -/
theorem covers_step {lexeme : Lexeme} {rest : List Char} (h : g.Covers source g.offset)
    (hproper : lexeme.Proper)
    (hrest : Text.dropBytes? g.offset source = some (lexeme.text ++ rest)) :
    (g.step config lexeme).Covers source (g.offset + Text.byteSize lexeme.text) := by
  have hlt : g.offset < g.offset + Text.byteSize lexeme.text :=
    Nat.lt_add_of_pos_right (Text.byteSize_pos hproper.text_ne_nil)
  have hslice := Text.slice?_of_dropBytes? hrest
  cases lexeme with
  | mark kind raw => exact h.add rfl hlt (Tree.WellFormed.leaf _ _)
  | closedTag name raw =>
    exact (h.imply name).add rfl hlt (Tree.WellFormed.element hlt ⟨hslice, hproper⟩
      (fun _ => ⟨rfl, rfl⟩) rfl (by simp) rfl)
  | openTag name raw =>
    obtain ⟨htag, hopen⟩ := hproper
    exact (h.imply name).enter hlt ⟨raw, ⟨hslice, htag⟩, hopen⟩
  | rawElement name startTag content closing =>
    obtain ⟨htag, hopen, hclosing⟩ := hproper
    rw [Lexeme.text, List.append_assoc, List.append_assoc] at hrest
    have hopens : OpensAt source ⟨g.offset, g.offset + Text.byteSize startTag⟩ name :=
      ⟨startTag, ⟨Text.slice?_of_dropBytes? hrest, htag⟩, hopen⟩
    refine (h.imply name).add ?_ hlt (wellFormed_rawElement hclosing hopens htag.ne_nil)
    rw [Lexeme.text, Text.byteSize_append, Text.byteSize_append, ← Nat.add_assoc, ← Nat.add_assoc]
    rfl
  | endTag name raw => exact h.closeNamed name hlt

/-- **What a text goes on with is covered, too.** -/
theorem covers_of_next {cs rest : List Char} {lexeme : Lexeme} (h : g.Covers source g.offset)
    (hne : cs ≠ []) (hrest : Text.dropBytes? g.offset source = some cs)
    (hnext : Lexeme.next config cs = .ok (lexeme, rest)) :
    (g.step config lexeme).Covers source (g.step config lexeme).offset := by
  rw [← (Lexeme.append_of_next hnext).1] at hrest
  exact covers_step h (Lexeme.proper_of_next hnext hne) hrest

/-- **At the end nothing is open**, and the roots cover the text. -/
theorem Covers.finish (h : g.Covers source stop) :
    Forest (Tree.WellFormed source) 0 stop g.finish := by
  have hclosed := h.closeMany (Nat.le_refl _)
  have hempty := stack_closeMany g.stack.length g
  rw [Nat.sub_self, List.length_eq_zero_iff] at hempty
  rw [Growth.Covers, hempty] at hclosed
  cases hclosed with
  | nil finished => exact finished

/-- **What every lexeme keeps, a whole text keeps**… -/
theorem keeps_of_lexemes (inv : Growth → Prop)
    (hstep : ∀ g cs lexeme rest, inv g → cs ≠ [] → Text.dropBytes? g.offset source = some cs →
      Lexeme.next config cs = .ok (lexeme, rest) → inv (g.step config lexeme))
    {cs : List Char} {ls : List Lexeme} (hls : lexemes config cs = .ok ls) (h : inv g)
    (hrest : Text.dropBytes? g.offset source = some cs) :
    inv (ls.foldl (step config) g) ∧
      Text.dropBytes? (ls.foldl (step config) g).offset source = some [] := by
  induction ls generalizing g cs with
  | nil =>
    obtain rfl := (flatMap_text_of_lexemes hls).1
    exact ⟨h, hrest⟩
  | cons l ls ih =>
    cases cs with
    | nil =>
      rw [lexemes] at hls
      cases hls
    | cons c cs =>
      obtain ⟨_, rest, _, hnext, hothers, heq⟩ := lexemes_cons_eq_ok hls
      cases heq
      have hgrown := hstep g _ l rest h (List.cons_ne_nil c cs) hrest hnext
      rw [← (Lexeme.append_of_next hnext).1] at hrest
      exact ih (g := g.step config l) hothers hgrown (Text.dropBytes?_of_append hrest)

end Growth

/-- …and so it holds at the end of a text that has been read, front matter included. -/
theorem Tree.exists_of_ofText {config : Config} {front : Bool} {text : List Char}
    (inv : Growth → Prop)
    (hfront : ∀ raw rest, frontMatter? text = some (raw, rest) →
      inv (Growth.step config {} (.mark .frontMatter raw)))
    (hstep : ∀ g cs lexeme rest, inv g → cs ≠ [] → Text.dropBytes? g.offset text = some cs →
      Lexeme.next config cs = .ok (lexeme, rest) → inv (g.step config lexeme))
    (hstart : inv {}) {trees : List Tree} (h : Tree.ofText config front text = .ok trees) :
    ∃ last, inv last ∧ last.offset = Text.byteSize text ∧ last.finish = trees := by
  have hends : ∀ {last : Growth}, Text.dropBytes? last.offset text = some [] →
      last.offset = Text.byteSize text := by
    intro last hrest
    obtain ⟨before, rfl, hsize⟩ := Text.dropBytes?_eq_some_iff.1 hrest
    rw [List.append_nil, hsize]
  rw [Tree.ofText] at h
  split at h
  · next ls hls =>
    cases h
    rw [documentLexemes] at hls
    split at hls
    · obtain ⟨hlast, hrest⟩ := Growth.keeps_of_lexemes inv hstep hls hstart
        (Text.dropBytes?_eq_some_iff.2 ⟨[], rfl, rfl⟩)
      exact ⟨_, hlast, hends hrest, rfl⟩
    · next raw rest hmatter =>
      obtain ⟨others, hothers, rfl⟩ := Except.map_eq_ok.1 hls
      cases front with
      | false => simp at hmatter
      | true =>
        have hgrown := hfront raw rest hmatter
        have hsplit : Text.dropBytes? (0 + Text.byteSize raw) text = some rest :=
          Text.dropBytes?_eq_some_iff.2
            ⟨raw, (append_of_frontMatter? hmatter).1.symm, (Nat.zero_add _).symm⟩
        obtain ⟨hlast, hrest⟩ := Growth.keeps_of_lexemes inv hstep hothers hgrown hsplit
        exact ⟨_, hlast, hends hrest, rfl⟩
  · cases h

/-- **The trees of a text cover it.** -/
theorem Tree.forest_of_ofText {config : Config} {front : Bool} {text : List Char}
    {trees : List Tree} (h : Tree.ofText config front text = .ok trees) :
    Forest (Tree.WellFormed text) 0 (Text.byteSize text) trees := by
  have hstart : Growth.Covers text {} 0 := Stacked.nil (Forest.nil _)
  have hfront : ∀ raw rest, frontMatter? text = some (raw, rest) →
      let g := Growth.step config {} (.mark .frontMatter raw)
      g.Covers text g.offset := by
    intro raw rest hmatter
    obtain ⟨happ, hne⟩ := append_of_frontMatter? hmatter
    have hall : Text.dropBytes? 0 text = some (raw ++ rest) :=
      Text.dropBytes?_eq_some_iff.2 ⟨[], happ.symm, rfl⟩
    exact Growth.covers_step (g := {}) hstart hne hall
  obtain ⟨last, hcovers, hoffset, rfl⟩ := exists_of_ofText (fun g => g.Covers text g.offset)
    hfront (fun _ _ _ _ => Growth.covers_of_next) hstart h
  exact hoffset ▸ hcovers.finish

end Markup.Html
