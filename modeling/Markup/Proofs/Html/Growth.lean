import Markup.Proofs.Growing
import Markup.Proofs.Html.Lexeme
import Markup.Proofs.Html.Tree

/-!
# Proofs/Html/Growth — what holds of all trees of a text

Trees are made at two places: a lexeme adds one, or an open element is closed.  A property that
holds of **what each lexeme adds and of each element that is closed** (`Lexeme.Adds`, `Closable`)
holds of all trees of a text, at any depth (`Tree.every_of_ofText`).  What is asked of the elements
that are open is their name and their start tag, which do not change until they are closed.
-/

namespace Markup.Html

/-- The trees right inside a tree. -/
def Tree.children : Tree → List Tree
  | .leaf .. | .stray _ => []
  | .element _ _ _ _ children => children

/-- **Something holds of a tree and of all trees inside it.** -/
inductive Tree.Every (p : Tree → Prop) : Tree → Prop
  | intro {t : Tree} (here : p t) (inside : ∀ u ∈ t.children, Every p u) : Every p t

/-- All trees inside a well-formed one are so, too. -/
theorem Tree.WellFormed.every {source : List Char} {t : Tree} (h : t.WellFormed source) :
    t.Every (Tree.WellFormed source) := by
  induction h with
  | leaf kind span => exact ⟨.leaf kind span, by simp [Tree.children]⟩
  | stray span => exact ⟨.stray span, by simp [Tree.children]⟩
  | element startTag written closed row inside closes ih =>
    exact ⟨.element startTag written closed row inside closes, ih⟩

section

variable (p : Tree → Prop) (opens : String → Span → Prop)

/-- An element is open as `opens` says, and the property holds of all trees inside it. -/
def OpenElement.Holds (e : OpenElement) : Prop :=
  opens e.name e.startTag ∧ ∀ t ∈ e.children, t.Every p

/-- **What is closed without an end tag has the property.** -/
def Closable : Prop := ∀ e : OpenElement, e.Holds p opens → p (e.close none)

/-- **What a lexeme adds has the property**, if the lexeme stands at an offset; an end tag adds the
element of its name that it closes, or a stray. -/
def Lexeme.Adds (config : Config) (offset : Nat) : Lexeme → Prop
  | .mark kind raw => p (.leaf kind ⟨offset, offset + Text.byteSize raw⟩)
  | .closedTag name raw =>
    p (.element name ⟨offset, offset + Text.byteSize raw⟩ (offset + Text.byteSize raw) none [])
  | .openTag name raw => opens name ⟨offset, offset + Text.byteSize raw⟩
  | .rawElement name startTag content closing =>
    (Growth.rawElement offset name startTag content closing).Every p
  | .endTag name raw =>
    p (.stray ⟨offset, offset + Text.byteSize raw⟩) ∧
      ∀ e : OpenElement, e.Holds p opens → config.namesMatch e.name name = true →
        p (e.close (some ⟨offset, offset + Text.byteSize raw⟩))

/-- **The property holds of all that is finished.** -/
def Growth.Every (g : Growth) : Prop := g.Holds (Tree.Every p) (OpenElement.Holds p opens)

end

variable {p : Tree → Prop} {opens : String → Span → Prop} {config : Config} {source : List Char}

namespace Growth

variable {g : Growth}

theorem holds_take (t : Tree) (e : OpenElement) (ht : t.Every p) (he : e.Holds p opens) :
    (Holder.take [t] e : OpenElement).Holds p opens :=
  ⟨he.1, List.forall_mem_cons.2 ⟨ht, he.2⟩⟩

theorem Every.add (h : g.Every p opens) {t : Tree} (ht : t.Every p) : (g.add t).Every p opens :=
  Growing.Holds.add h ht holds_take

theorem Every.enter (h : g.Every p opens) {name : String} {startTag : Span}
    (hopens : opens name startTag) : (g.enter name startTag).Every p opens :=
  Growing.Holds.enter h ⟨hopens, by simp⟩

/-- **Closing the innermost element** keeps the property, if it holds of that element. -/
theorem Every.closeTop (h : g.Every p opens) {endTag : Option Span}
    (hclose : ∀ e, g.stack.head? = some e → e.Holds p opens → p (e.close endTag)) :
    (g.closeTop endTag).Every p opens :=
  Growing.Holds.closeTop h (fun e htop he =>
    ⟨hclose e htop he, fun t ht => he.2 t (List.mem_reverse.1 ht)⟩) holds_take

theorem Every.closeMany (hclose : Closable p opens) (n : Nat) (h : g.Every p opens) :
    (closeMany n g).Every p opens :=
  closeMany_keeps (fun h => h.closeTop fun e _ => hclose e) n h

theorem Every.imply (hclose : Closable p opens) (h : g.Every p opens) (name : String) :
    (g.imply name).Every p opens :=
  h.closeMany hclose _

/-- **An end tag closes an element of its name**, or is a stray. -/
theorem Every.closeNamed (hclose : Closable p opens) (h : g.Every p opens) {name : String}
    {endTag : Span} (hstray : p (.stray endTag))
    (hnamed : ∀ e : OpenElement, e.Holds p opens → config.namesMatch e.name name = true →
      p (e.close (some endTag))) : (g.closeNamed config name endTag).Every p opens := by
  rw [Growth.closeNamed]
  split
  · exact h.add ⟨hstray, by simp [Tree.children]⟩
  · next inner hinner =>
    obtain ⟨hbound, hmatch, -⟩ := List.findIdx?_eq_some_iff_getElem.1 hinner
    refine (h.closeMany hclose inner).closeTop fun e he hholds => hnamed e hholds ?_
    have hname := congrArg List.head? (names_closeMany inner g)
    rw [List.head?_map, he, List.head?_drop, List.getElem?_map, List.getElem?_eq_getElem hbound]
      at hname
    rwa [Option.some.inj hname]

/-- An element with opaque content has text inside, if anything. -/
theorem every_rawElement {offset : Nat} {name : String} {startTag content : List Char}
    {endTag : Option (List Char)} (here : p (rawElement offset name startTag content endTag))
    (htext : p (.leaf .text ⟨offset + Text.byteSize startTag,
      offset + Text.byteSize startTag + Text.byteSize content⟩)) :
    (rawElement offset name startTag content endTag).Every p := by
  refine ⟨here, fun t ht => ?_⟩
  rw [rawElement, Tree.children] at ht
  split at ht
  · exact absurd ht List.not_mem_nil
  · obtain rfl := List.mem_singleton.1 ht
    exact ⟨htext, by simp [Tree.children]⟩

/-- **Growing by a lexeme keeps the property**, if it holds of what the lexeme adds. -/
theorem Every.step (hclose : Closable p opens) (h : g.Every p opens) {lexeme : Lexeme}
    (hadds : lexeme.Adds p opens config g.offset) : (g.step config lexeme).Every p opens := by
  have hgrown : ∀ {grown : Growth}, grown.Every p opens → ∀ offset,
      Growth.Every p opens { grown with offset := offset } := fun h => Growing.Holds.upTo h
  cases lexeme with
  | mark kind raw => exact hgrown (h.add ⟨hadds, by simp [Tree.children]⟩) _
  | closedTag name raw =>
    exact hgrown ((h.imply hclose name).add ⟨hadds, by simp [Tree.children]⟩) _
  | openTag name raw => exact hgrown ((h.imply hclose name).enter hadds) _
  | rawElement name startTag content endTag => exact hgrown ((h.imply hclose name).add hadds) _
  | endTag name raw => exact hgrown (h.closeNamed hclose hadds.1 hadds.2) _

theorem Every.finish (hclose : Closable p opens) (h : g.Every p opens) :
    ∀ t ∈ g.finish, t.Every p :=
  fun t ht => (h.closeMany hclose g.stack.length).roots t (List.mem_reverse.1 ht)

end Growth

/-- **What holds of all that the lexemes of a text add, and of what is closed, holds of all its
trees.** -/
theorem Tree.every_of_ofText {front : Bool} {trees : List Tree} (hclose : Closable p opens)
    (hfront : ∀ raw rest, frontMatter? source = some (raw, rest) →
      (Lexeme.mark .frontMatter raw).Adds p opens config 0)
    (hadds : ∀ offset cs lexeme rest, Lexeme.next config cs = .ok (lexeme, rest) →
      Text.dropBytes? offset source = some cs → lexeme.Adds p opens config offset)
    (h : Tree.ofText config front source = .ok trees) : ∀ t ∈ trees, t.Every p := by
  have hstart : Growth.Every p opens {} := Growing.Holds.start
  obtain ⟨last, hevery, -, rfl⟩ := Tree.exists_of_ofText (fun g => g.Every p opens)
    (fun raw rest hmatter => hstart.step hclose (hfront raw rest hmatter))
    (fun _ _ _ _ hg _ hrest hnext => hg.step hclose (hadds _ _ _ _ hnext hrest)) hstart h
  exact hevery.finish hclose

end Markup.Html
