import Markup.Proofs.Growing
import Markup.Proofs.Svelte.Part

/-!
# Proofs/Svelte/Growth — what holds of all trees of a template

A property of trees that asks nothing of blocks holds of all trees of a template if it holds of
**what each lexeme adds** (`Lexeme.Adds`): of the tree that a lexeme is, and of the element that an
end tag closes (`Tree.every_of_ofText`).
-/

namespace Markup.Svelte

/-- **Something holds of a tree and of all trees inside it.** -/
inductive Tree.Every (p : Tree → Prop) : Tree → Prop
  | intro {t : Tree} (here : p t) (inside : ∀ part ∈ t.parts, ∀ u ∈ part.body, Every p u) :
      Every p t

/-- The sections of a block that are finished while it is open. -/
def Opener.sections : Opener → List (Section Tree)
  | .element .. | .block .. => []
  | .clause _ head done _ _ => head :: done.map Prod.snd

/-- Something holds of all trees that are finished in what is open. -/
structure Level.Finished (p : Tree → Prop) (l : Level) : Prop where
  sections : ∀ s ∈ l.opener.sections, ∀ t ∈ s.children, p t
  children : ∀ t ∈ l.children, p t

/-- **Something holds of all trees that are finished**, but not of what is inside them. -/
def Growth.Finished (p : Tree → Prop) (g : Growth) : Prop := g.Holds p (Level.Finished p)

section

variable (p : Tree → Prop)

/-- **What a lexeme adds has the property**, if the lexeme is read at an offset in a context. -/
def Lexeme.Adds (context : Context) (offset : Nat) : Lexeme → Prop
  | .text raw => p (.text ⟨offset, offset + Text.byteSize raw⟩)
  | .comment raw => p (.comment ⟨offset, offset + Text.byteSize raw⟩)
  | .mustache raw => p (.mustache ⟨offset, offset + Text.byteSize raw⟩)
  | .special tag raw =>
    p (.special tag ⟨⟨offset, offset + Text.byteSize raw⟩, offset + Text.byteSize raw, []⟩)
  | .closedTag name raw =>
    p (.element name ⟨offset, offset + Text.byteSize raw⟩ (offset + Text.byteSize raw) none [])
  | .rawElement name startTag content endTag =>
    (Growth.rawElement offset name startTag content endTag).Every p
  | .closer raw => ∀ name startTag children, context = .element name startTag →
    p (.element name ⟨startTag.start, offset + Text.byteSize raw⟩ startTag.stop
      (some ⟨offset, offset + Text.byteSize raw⟩) children)
  | .openTag .. | .openBlock .. | .clause .. => True

/-- **The property holds of all that is finished**, through and through. -/
def Growth.Every (g : Growth) : Prop := g.Finished (Tree.Every p)

end

variable {p : Tree → Prop} {config : Config} {source : List Char}

/-- A tree with nothing inside. -/
theorem Tree.Every.of_parts {t : Tree} (h : p t) (hparts : ∀ part ∈ t.parts, part.body = []) :
    t.Every p :=
  ⟨h, fun part hpart u hu => absurd hu (by simp [hparts part hpart])⟩

theorem Tree.Every.block {kind : Block} {head : Section Tree}
    {clauses : List (String × Section Tree)} (h : p (.block kind head clauses))
    (hinside : ∀ s ∈ head :: clauses.map Prod.snd, ∀ t ∈ s.children, t.Every p) :
    (Tree.block kind head clauses).Every p := by
  refine ⟨h, fun part hpart => ?_⟩
  rcases List.mem_append.1 hpart with hsection | hclosing
  · obtain ⟨clause, hclause, rfl⟩ := List.mem_map.1 hsection
    exact hinside clause.2 (List.mem_map_of_mem (f := Prod.snd) hclause)
  · obtain rfl := List.mem_singleton.1 hclosing
    exact fun u hu => absurd hu List.not_mem_nil

/-- …and what holds of all trees in a block holds of those in its sections. -/
theorem Tree.Every.of_block {kind : Block} {head : Section Tree}
    {clauses : List (String × Section Tree)} (h : (Tree.block kind head clauses).Every p) :
    ∀ s ∈ head :: clauses.map Prod.snd, ∀ t ∈ s.children, t.Every p := by
  obtain ⟨-, hinside⟩ := h
  intro s hs
  obtain ⟨clause, hclause, rfl⟩ :=
    List.mem_map.1 (show s ∈ ((kind.headRole, head) :: clauses).map Prod.snd from hs)
  exact hinside _ (List.mem_append_left _ (List.mem_map_of_mem hclause))

/-- All trees inside a well-formed one are so, too. -/
theorem Tree.WellFormed.every {t : Tree} (h : t.WellFormed source) :
    t.Every (Tree.WellFormed source) := by
  induction h with
  | text span => exact .of_parts (.text span) (by simp [Tree.parts])
  | comment written => exact .of_parts (.comment written) (by simp [Tree.parts])
  | mustache written => exact .of_parts (.mustache written) (by simp [Tree.parts, Part.branch])
  | special written => exact .of_parts (.special written) (by simp [Tree.parts, Part.branch])
  | element startTag written closed empty row inside closes ih =>
    exact ⟨.element startTag written closed empty row inside closes, List.forall_mem_singleton.2 ih⟩
  | block opens row inside written closes closer ih =>
    exact .block (.block opens row inside written closes closer) ih

/-! ## What is finished -/

namespace Level.Finished

variable {l : Level}

theorem toSection (h : l.Finished p) (stop : Nat) : ∀ t ∈ (l.toSection stop).children, p t :=
  fun t ht => h.2 t (List.mem_reverse.1 ht)

theorem beginClause (h : l.Finished p) (name : String) (header : Span) :
    (l.beginClause name header).Finished p := by
  have hlast := h.toSection header.start
  obtain ⟨opener, children⟩ := l
  cases opener with
  | element => exact h
  | block => exact ⟨List.forall_mem_singleton.2 hlast, by simp [Level.beginClause]⟩
  | clause =>
    obtain ⟨hhead, hdone⟩ := List.forall_mem_cons.1 h.1
    exact ⟨List.forall_mem_cons.2 ⟨hhead, List.forall_mem_cons.2 ⟨hlast, hdone⟩⟩,
      by simp [Level.beginClause]⟩

/-- **What is closed is an element or a block** of trees that were finished. -/
theorem close {q : Tree → Prop} (h : l.Finished p) (tag : Span)
    (helement : ∀ name startTag, l.opener = .element name startTag →
      (∀ t ∈ l.children.reverse, p t) →
        q (.element name ⟨startTag.start, tag.stop⟩ startTag.stop (some tag) l.children.reverse))
    (hblock : ∀ kind head clauses, l.close tag = .block kind head clauses →
      (∀ s ∈ head :: clauses.map Prod.snd, ∀ t ∈ s.children, p t) →
        q (.block kind head clauses)) : q (l.close tag) := by
  have hlast := h.toSection tag.start
  have hwhole := h.toSection tag.stop
  obtain ⟨opener, children⟩ := l
  cases opener with
  | element name startTag => exact helement name startTag rfl hwhole
  | block => exact hblock _ _ _ rfl (List.forall_mem_singleton.2 hwhole)
  | clause =>
    obtain ⟨hhead, hdone⟩ := List.forall_mem_cons.1 h.1
    refine hblock _ _ _ rfl
      (Level.forall_reach (List.forall_mem_cons.2 ⟨hhead, ?_⟩) tag.start tag.stop)
    rw [List.map_reverse]
    exact fun s hs => List.forall_mem_cons.2 ⟨hlast, hdone⟩ s (List.mem_reverse.1 hs)

end Level.Finished

theorem Level.Finished.take (t : Tree) (l : Level) (ht : p t) (hl : l.Finished p) :
    (Holder.take [t] l : Level).Finished p :=
  ⟨hl.sections, List.forall_mem_cons.2 ⟨ht, hl.children⟩⟩

namespace Growth.Finished

variable {g : Growth}

theorem add (h : g.Finished p) {t : Tree} (ht : p t) : (g.add t).Finished p :=
  Growing.Holds.add h ht Level.Finished.take

theorem enter (h : g.Finished p) {opener : Opener} (hopener : opener.sections = []) :
    (g.enter opener).Finished p :=
  Growing.Holds.enter h ⟨by simp [hopener], by simp⟩

theorem beginClause (h : g.Finished p) (name : String) (header : Span) :
    (g.beginClause name header).Finished p := by
  obtain ⟨offset, roots, stack⟩ := g
  cases stack with
  | nil => exact h
  | cons l outer =>
    obtain ⟨hl, houter⟩ := List.forall_mem_cons.1 h.opened
    exact ⟨h.roots, List.forall_mem_cons.2 ⟨hl.beginClause name header, houter⟩⟩

end Growth.Finished

/-! ## What holds through and through -/

/-- **What is closed has the property**, if it does as the element or the block that it is. -/
theorem Level.Finished.every_close {l : Level} (h : l.Finished (Tree.Every p)) {tag : Span}
    (hblock : ∀ kind head clauses, l.close tag = .block kind head clauses →
      p (.block kind head clauses))
    (helement : ∀ name startTag, l.opener = .element name startTag →
      p (.element name ⟨startTag.start, tag.stop⟩ startTag.stop (some tag) l.children.reverse)) :
    (l.close tag).Every p :=
  h.close tag
    (fun name startTag hopener hinside =>
      ⟨helement name startTag hopener, List.forall_mem_singleton.2 hinside⟩)
    fun _ _ _ hclose => .block (hblock _ _ _ hclose)

namespace Growth

variable {g : Growth}

/-- An element with opaque content has text inside, if anything. -/
theorem every_rawElement {offset : Nat} {name : String} {startTag content endTag : List Char}
    (here : p (rawElement offset name startTag content endTag))
    (htext : p (.text ⟨offset + Text.byteSize startTag,
      offset + Text.byteSize startTag + Text.byteSize content⟩)) :
    (rawElement offset name startTag content endTag).Every p := by
  refine ⟨here, List.forall_mem_singleton.2 fun t ht => ?_⟩
  dsimp only at ht
  split at ht
  · exact absurd ht List.not_mem_nil
  · obtain rfl := List.mem_singleton.1 ht
    exact .of_parts htext (by simp [Tree.parts])

theorem Every.closeTop (h : g.Every p) {tag : Span}
    (hblock : ∀ l outer, g.stack = l :: outer → ∀ kind head clauses,
      l.close tag = .block kind head clauses → p (.block kind head clauses))
    (helement : ∀ name startTag children, g.context = .element name startTag →
      p (.element name ⟨startTag.start, tag.stop⟩ startTag.stop (some tag) children)) :
    (g.closeTop tag).Every p := by
  refine Growing.Holds.closeTop h (fun l htop hl => ?_) Level.Finished.take
  obtain ⟨outer, hstack⟩ := List.head?_eq_some_iff.1 htop
  refine hl.every_close (hblock l outer hstack) fun name startTag hopener => ?_
  have hcontext : g.context = l.opener.context := by
    rw [context, hstack]
  exact helement name startTag _ (hcontext.trans (congrArg Opener.context hopener))

/-- **Growing by a lexeme keeps the property**, if it holds of what the lexeme adds and of the block
that it closes. -/
theorem Every.step (h : g.Every p) {lexeme : Lexeme} (hadds : lexeme.Adds p g.context g.offset)
    (hblock : ∀ l outer, g.stack = l :: outer → ∀ kind head clauses,
      l.close ⟨g.offset, g.offset + Text.byteSize lexeme.raw⟩ = .block kind head clauses →
        p (.block kind head clauses)) : (g.step lexeme).Every p := by
  have hgrown : ∀ {grown : Growth}, grown.Every p → ∀ offset,
      Growth.Every p { grown with offset := offset } := fun h => Growing.Holds.upTo h
  cases lexeme with
  | text | comment | mustache | special | closedTag =>
    exact hgrown (Finished.add h (.of_parts hadds (by simp [Tree.parts, Part.branch]))) _
  | openTag | openBlock => exact hgrown (Finished.enter h rfl) _
  | rawElement => exact hgrown (Finished.add h hadds) _
  | clause => exact hgrown (Finished.beginClause h _ _) _
  | closer raw =>
    have hclosed : (g.closeTop ⟨g.offset, g.offset + Text.byteSize raw⟩).Every p :=
      h.closeTop hblock hadds
    exact hgrown hclosed _

/-- What is finished at the end are the roots. -/
theorem roots_of_finish {trees : List Tree} (h : g.finish = .ok trees) :
    g.roots.reverse = trees := by
  rw [finish] at h
  split at h
  · cases h
    rfl
  · cases h

theorem Every.finish (h : g.Every p) {trees : List Tree} (hfinish : g.finish = .ok trees) :
    ∀ t ∈ trees, t.Every p := by
  rw [← roots_of_finish hfinish]
  exact fun t ht => h.roots t (List.mem_reverse.1 ht)

end Growth

/-- **What holds of all that lexemes add to a template holds of all its trees**, if it asks nothing
of blocks. -/
theorem Tree.every_of_ofText (hblock : ∀ kind head clauses, p (.block kind head clauses))
    (hadds : ∀ context offset cs lexeme rest,
      Lexeme.next config context offset cs = .ok (lexeme, rest) →
        Text.dropBytes? offset source = some cs → lexeme.Adds p context offset)
    {trees : List Tree} (h : Tree.ofText config source = .ok trees) : ∀ t ∈ trees, t.Every p := by
  have hstart : Growth.Every p {} := Growing.Holds.start
  obtain ⟨last, hevery, -, hfinish⟩ := Tree.exists_of_ofText (Growth.Every p)
    (fun _ _ _ _ h _ hrest hnext => h.step (hadds _ _ _ _ _ hnext hrest)
      fun _ _ _ _ _ _ _ => hblock _ _ _) hstart h
  exact hevery.finish hfinish

end Markup.Svelte
