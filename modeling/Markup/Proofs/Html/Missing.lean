import Markup.Proofs.Html.Growth
import Markup.Proofs.Html.PageTree
import Markup.Proofs.Text.Insert

/-!
# Proofs/Html/Missing — the end tags that trees lack

`Tree.missing` lists the end tags that were left out in a text, each with the place where its
element ends, inner ones first; `Tree.fillAll` is the trees **with these end tags, each part moved
by what has been put in before it**.  A growth is filled in the same way (`Growth.fill`), and
filling goes on as the growth does: it adds a filled tree where the growth adds a tree
(`Growth.fill_add`), and closes with an end tag what the growth closes without one
(`Growth.fill_closeTop_none`).
-/

namespace Markup

namespace Html

namespace Tree

mutual

/-- **A tree after all that is inside it.** -/
def postorder : Tree → List Tree
  | .leaf kind span => [.leaf kind span]
  | .stray span => [.stray span]
  | .element name span startTagEnd endTag children =>
    postorderAll children ++ [.element name span startTagEnd endTag children]

/-- All trees of a row, inner ones first. -/
def postorderAll : List Tree → List Tree
  | [] => []
  | t :: ts => t.postorder ++ postorderAll ts

end

/-- The parts of a row that are no elements, in the order of the text. -/
def leaves (trees : List Tree) : List Tree :=
  (postorderAll trees).filter fun
    | .element .. => false
    | _ => true

/-- **The end tag that an element lacks**: it has none, is not void, and does not close itself. -/
def lacked? (source : List Char) : Tree → Option (List Char)
  | .element name span startTagEnd none _ =>
    if (TagRule.ofName name).isVoid ∨
        isSelfClosing ((Text.slice? span.start startTagEnd source).getD []) then none
    else some (Html.endTag name.toList)
  | _ => none

/-- …and where it belongs. -/
def insertion? (source : List Char) (t : Tree) : Option Text.Insertion :=
  (t.lacked? source).map (⟨t.span.stop, ·⟩)

/-- **The end tags that are lacking in a row**, inner ones first. -/
def missing (source : List Char) (trees : List Tree) : List Text.Insertion :=
  (postorderAll trees).filterMap (insertion? source)

/-- How many bytes they take. -/
def gain (source : List Char) (trees : List Tree) : Nat :=
  Text.byteSize ((missing source trees).flatMap Text.Insertion.word)

mutual

/-- **The tree with its end tags**, where all before it takes so many bytes more. -/
def fill (source : List Char) (shift : Nat) : Tree → Tree
  | .leaf kind span => .leaf kind (span.movedBy shift)
  | .stray span => .stray (span.movedBy shift)
  | .element name span startTagEnd endTag children =>
    let moved := shift + gain source children
    let start := span.start + shift
    let stop := span.stop + moved
    match lacked? source (.element name span startTagEnd endTag children) with
    | none =>
      .element name ⟨start, stop⟩ (startTagEnd + shift) (endTag.map (Span.movedBy · moved))
        (fillAll source shift children)
    | some word =>
      .element name ⟨start, stop + Text.byteSize word⟩ (startTagEnd + shift)
        (some ⟨stop, stop + Text.byteSize word⟩) (fillAll source shift children)

/-- **The trees of a row with their end tags.** -/
def fillAll (source : List Char) (shift : Nat) : List Tree → List Tree
  | [] => []
  | t :: ts => t.fill source shift :: fillAll source (shift + gain source [t]) ts

end

variable {source : List Char} {ts us : List Tree} {t : Tree} {shift : Nat}

theorem postorderAll_append (ts us : List Tree) :
    postorderAll (ts ++ us) = postorderAll ts ++ postorderAll us := by
  induction ts with
  | nil => rw [List.nil_append, postorderAll, List.nil_append]
  | cons t ts ih => rw [List.cons_append, postorderAll, ih, postorderAll, List.append_assoc]

/-- A tree comes after what is right inside it. -/
theorem postorderAll_singleton (t : Tree) :
    postorderAll [t] = postorderAll t.children ++ [t] := by
  rw [postorderAll, postorderAll, List.append_nil]
  cases t with
  | leaf | stray => rw [postorder, children, postorderAll]; rfl
  | element => rw [postorder, children]

theorem leaves_append (ts us : List Tree) : leaves (ts ++ us) = leaves ts ++ leaves us := by
  rw [leaves, postorderAll_append, List.filter_append, leaves, leaves]

@[simp] theorem missing_nil : missing source [] = [] := by rw [missing, postorderAll]; rfl

theorem missing_append (ts us : List Tree) :
    missing source (ts ++ us) = missing source ts ++ missing source us := by
  rw [missing, postorderAll_append, List.filterMap_append, missing, missing]

@[simp] theorem gain_nil : gain source [] = 0 := by rw [gain, missing_nil]; rfl

theorem gain_append (ts us : List Tree) :
    gain source (ts ++ us) = gain source ts + gain source us := by
  rw [gain, missing_append, List.flatMap_append, Text.byteSize_append, gain, gain]

/-- **A row is filled from its beginning**, and what follows is moved by that. -/
theorem fillAll_append (shift : Nat) (ts us : List Tree) : fillAll source shift (ts ++ us) =
    fillAll source shift ts ++ fillAll source (shift + gain source ts) us := by
  induction ts generalizing shift with
  | nil => rw [fillAll, gain_nil]; rfl
  | cons t ts ih =>
    have hgain : gain source (t :: ts) = gain source [t] + gain source ts := gain_append [t] ts
    rw [List.cons_append, fillAll, ih, fillAll, hgain, Nat.add_assoc, List.cons_append]

theorem fillAll_concat (shift : Nat) (ts : List Tree) (t : Tree) :
    fillAll source shift (ts ++ [t]) =
      fillAll source shift ts ++ [t.fill source (shift + gain source ts)] := by
  rw [fillAll_append, fillAll, fillAll]

/-- What a tree lacks itself is missing last. -/
theorem missing_singleton (t : Tree) :
    missing source [t] = missing source t.children ++ (t.insertion? source).toList := by
  rw [missing, postorderAll_singleton, List.filterMap_append, missing]
  cases h : t.insertion? source <;> simp [h]

/-- **An element that lacks its end tag is filled with it.** -/
theorem fill_of_lacked {name : String} {span : Span} {startTagEnd : Nat} {endTag : Option Span}
    {children : List Tree} {word : List Char}
    (h : lacked? source (.element name span startTagEnd endTag children) = some word) :
    let stop := span.stop + (shift + gain source children)
    fill source shift (.element name span startTagEnd endTag children) =
      .element name ⟨span.start + shift, stop + Text.byteSize word⟩ (startTagEnd + shift)
        (some ⟨stop, stop + Text.byteSize word⟩) (fillAll source shift children) := by
  rw [fill]
  simp only [h]

/-- …and one that lacks none only moved. -/
theorem fill_of_lacked_eq_none {name : String} {span : Span} {startTagEnd : Nat}
    {endTag : Option Span} {children : List Tree}
    (h : lacked? source (.element name span startTagEnd endTag children) = none) :
    let moved := shift + gain source children
    fill source shift (.element name span startTagEnd endTag children) =
      .element name ⟨span.start + shift, span.stop + moved⟩ (startTagEnd + shift)
        (endTag.map (Span.movedBy · moved)) (fillAll source shift children) := by
  rw [fill]
  simp only [h]

end Tree

namespace OpenElement

variable {source : List Char} {shift : Nat} {e : OpenElement}

/-- **An open element, filled with the end tags that are lacking in it.** -/
def fill (source : List Char) (shift : Nat) (e : OpenElement) : OpenElement where
  name := e.name
  startTag := e.startTag.movedBy shift
  children := (Tree.fillAll source shift e.children.reverse).reverse

theorem fill_add (source : List Char) (shift : Nat) (e : OpenElement) (t : Tree) :
    ({ e with children := t :: e.children } : OpenElement).fill source shift =
      { e.fill source shift with
        children := t.fill source (shift + Tree.gain source e.children.reverse) ::
          (e.fill source shift).children } := by
  rw [fill, List.reverse_cons, Tree.fillAll_concat, List.reverse_concat]
  rfl

/-- **An element that is closed by an end tag is filled as such**… -/
theorem fill_close_some (source : List Char) (shift : Nat) (e : OpenElement) (endTag : Span) :
    (e.close (some endTag)).fill source shift = (e.fill source shift).close
      (some (endTag.movedBy (shift + Tree.gain source e.children.reverse))) := by
  rw [close, Tree.fill_of_lacked_eq_none rfl, close, fill, List.reverse_reverse]
  rfl

/-- …and so is one that lacks it. -/
theorem fill_close_none {word : List Char} (h : (e.close none).lacked? source = some word) :
    let stop := e.contentEnd + (shift + Tree.gain source e.children.reverse)
    (e.close none).fill source shift =
      (e.fill source shift).close (some ⟨stop, stop + Text.byteSize word⟩) := by
  intro stop
  rw [close, Tree.fill_of_lacked h, close, fill, List.reverse_reverse]
  rfl

/-- **What is open lacks its end tag** as long as nothing closes it. -/
theorem lacked?_close (h : OpensAt source e.startTag e.name) :
    (e.close none).lacked? source = some (Html.endTag e.name.toList) := by
  obtain ⟨raw, ⟨hslice, -⟩, hopen⟩ := h
  rw [close, Tree.lacked?, hslice]
  exact if_neg hopen

end OpenElement

namespace Growth

/-- **What is finished**, in the order of the text: the roots, and what stands in what is open. -/
def finished (g : Growth) : List Tree :=
  g.roots.reverse ++ g.stack.reverse.flatMap fun e => e.children.reverse

/-- Open elements, each moved by what is lacking before it. -/
def fillStack (source : List Char) (roots : List Tree) : List OpenElement → List OpenElement
  | [] => []
  | e :: outer =>
    e.fill source (Tree.gain source (finished { roots, stack := outer })) ::
      fillStack source roots outer

/-- **A growth with the end tags that are lacking in what is finished.** -/
def fill (source : List Char) (g : Growth) : Growth where
  offset := g.offset + Tree.gain source g.finished
  roots := (Tree.fillAll source 0 g.roots.reverse).reverse
  stack := fillStack source g.roots g.stack

variable {source : List Char} {g : Growth} {t : Tree} {e : OpenElement} {outer : List OpenElement}

theorem finished_cons (offset : Nat) (roots : List Tree) (e : OpenElement)
    (outer : List OpenElement) : finished { offset, roots, stack := e :: outer } =
      finished { roots, stack := outer } ++ e.children.reverse := by
  simp [finished]

/-- What is added is finished last. -/
theorem finished_add (g : Growth) (t : Tree) : (g.add t).finished = g.finished ++ [t] := by
  obtain ⟨offset, roots, stack⟩ := g
  cases stack <;> simp [add, finished]

/-- The names of the elements that are open, innermost first. -/
def names (g : Growth) : List String := g.stack.map OpenElement.name

/-- Filling changes no names. -/
@[simp] theorem names_fill (source : List Char) (g : Growth) : (g.fill source).names = g.names := by
  have hstack : ∀ stack, (fillStack source g.roots stack).map OpenElement.name =
      stack.map OpenElement.name := by
    intro stack
    induction stack with
    | nil => rfl
    | cons e outer ih => rw [fillStack, List.map_cons, ih]; rfl
  exact hstack g.stack

/-- The growth, as if the text had been read up to an offset. -/
def upTo (g : Growth) (offset : Nat) : Growth := { g with offset }

theorem finished_upTo (g : Growth) (offset : Nat) : (g.upTo offset).finished = g.finished := rfl

theorem top?_fill (source : List Char) (g : Growth) : (g.fill source).top? = g.top? := by
  have hhead : ∀ g : Growth, g.top? = g.names.head? := fun g => List.head?_map.symm
  rw [hhead, names_fill, hhead]

/-- An end tag for the innermost element closes that. -/
theorem step_of_top {name first : String} {raw : List Char} (htop : g.top? = some first)
    (hmatch : config.namesMatch first name = true) :
    let stop := g.offset + Text.byteSize raw
    g.step config (.endTag name raw) = (g.closeTop (some ⟨g.offset, stop⟩)).upTo stop := by
  rw [step, closeNamed_of_top htop hmatch]
  rfl

theorem finished_enter (g : Growth) (name : String) (startTag : Span) :
    (g.enter name startTag).finished = g.finished := by
  simp [finished, enter]

/-- **Where a growth opens an element, the filled one does.** -/
theorem fill_enter (source : List Char) (g : Growth) (name : String) (startTag : Span) :
    (g.enter name startTag).fill source =
      (g.fill source).enter name (startTag.movedBy (Tree.gain source g.finished)) := by
  rw [fill, finished_enter]
  rfl

/-- **Where a growth adds a tree, the filled one adds the filled tree.** -/
theorem fill_add (source : List Char) (g : Growth) (t : Tree) :
    (g.add t).fill source = ((g.fill source).add (t.fill source (Tree.gain source g.finished))).upTo
      (g.offset + Tree.gain source (g.finished ++ [t])) := by
  obtain ⟨offset, roots, stack⟩ := g
  cases stack with
  | nil => simp [fill, upTo, add, finished, fillStack, Tree.fillAll_concat]
  | cons e outer =>
    have hshift : Tree.gain source (finished { offset, roots, stack := e :: outer }) =
        Tree.gain source (finished { roots, stack := outer }) +
          Tree.gain source e.children.reverse := by
      rw [finished_cons, Tree.gain_append]
    rw [← finished_add]
    simp only [fill, Growing.add_cons, OpenElement.take_eq, List.singleton_append, upTo, fillStack,
      OpenElement.fill_add, hshift]

/-- What is missing in an element that is closed is what was missing in it, and then its end tag. -/
theorem missing_closeTop (he : g.stack.head? = some e) (endTag : Option Span) :
    Tree.missing source (g.closeTop endTag).finished =
      Tree.missing source g.finished ++ ((e.close endTag).insertion? source).toList := by
  obtain ⟨offset, roots, stack⟩ := g
  obtain ⟨outer, rfl⟩ := List.head?_eq_some_iff.1 he
  rw [closeTop_cons, finished_add, finished_cons, Tree.missing_append, Tree.missing_append,
    Tree.missing_singleton, List.append_assoc]
  rfl

/-- …and so much longer does the text become. -/
theorem gain_closeTop (source : List Char) (he : g.stack.head? = some e) (endTag : Option Span) :
    Tree.gain source (g.closeTop endTag).finished = Tree.gain source g.finished +
      Text.byteSize (((e.close endTag).lacked? source).getD []) := by
  rw [Tree.gain, missing_closeTop he, List.flatMap_append, Text.byteSize_append, ← Tree.gain,
    Tree.insertion?]
  cases (e.close endTag).lacked? source <;> simp

/-- **Where a growth closes an element, the filled one does**, if the element is filled as it is
closed there. -/
theorem fill_closeTop (he : g.stack.head? = some e) {endTag endTag' : Option Span}
    (hclose : ∀ shift, shift + Tree.gain source e.children.reverse = Tree.gain source g.finished →
      (e.close endTag).fill source shift = (e.fill source shift).close endTag') :
    (g.closeTop endTag).fill source = ((g.fill source).closeTop endTag').upTo
      (g.offset + Tree.gain source (g.closeTop endTag).finished) := by
  obtain ⟨offset, roots, stack⟩ := g
  obtain ⟨outer, rfl⟩ := List.head?_eq_some_iff.1 he
  have hshift : Tree.gain source (finished { offset, roots, stack := outer }) +
      Tree.gain source e.children.reverse =
        Tree.gain source (finished { offset, roots, stack := e :: outer }) := by
    rw [finished_cons, Tree.gain_append]
    rfl
  have hadd := fill_add source { offset, roots, stack := outer } (e.close endTag)
  rw [← finished_add, hclose _ hshift] at hadd
  cases outer <;> exact hadd

/-- **Where a growth closes an element with an end tag**, the filled one closes it with that. -/
theorem fill_closeTop_some (he : g.stack.head? = some e) (endTag : Span) :
    (g.closeTop (some endTag)).fill source =
      ((g.fill source).closeTop (some (endTag.movedBy (Tree.gain source g.finished)))).upTo
        (g.offset + Tree.gain source g.finished) := by
  have hgain := gain_closeTop source he (some endTag)
  rw [fill_closeTop he fun shift hshift => by rw [OpenElement.fill_close_some, hshift], hgain]
  rfl

/-- What is open goes up to where the growth does. -/
theorem Covers.of_head {stop : Nat} (h : g.Covers source stop) (he : g.stack.head? = some e) :
    OpensAt source e.startTag e.name ∧ e.contentEnd = stop := by
  obtain ⟨offset, roots, stack⟩ := g
  obtain ⟨outer, rfl⟩ := List.head?_eq_some_iff.1 he
  cases h with
  | cons before startTag opens inside => exact ⟨opens, OpenElement.contentEnd_eq inside⟩

/-- **Where a growth closes an element without an end tag**, the filled one closes it with its
own. -/
theorem fill_closeTop_none (h : g.Covers source g.offset) (he : g.stack.head? = some e) :
    let stop := (g.fill source).offset + Text.byteSize (Html.endTag e.name.toList)
    (g.closeTop none).fill source =
      ((g.fill source).closeTop (some ⟨(g.fill source).offset, stop⟩)).upTo stop := by
  obtain ⟨hopens, hend⟩ := h.of_head he
  have hlacks := OpenElement.lacked?_close hopens
  have hgain := gain_closeTop source he none
  rw [hlacks, Option.getD_some] at hgain
  rw [fill_closeTop he fun shift hshift => by
    rw [OpenElement.fill_close_none hlacks, hshift, hend], hgain, ← Nat.add_assoc]
  rfl

end Growth

end Html

end Markup
