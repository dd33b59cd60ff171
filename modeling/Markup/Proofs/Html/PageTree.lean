import Markup.Html.Dialect
import Markup.Proofs.Growing
import Markup.Proofs.Html.Page

/-!
# Proofs/Html/PageTree — the trees that a page grows

Where nothing in a page closes what it stands in, each of its elements is **closed by its own end
tag**, innermost first: a page grows its own trees wherever it stands (`Growth.foldl_page`), so
these are the trees of its text (`Page.ofText_render`).
-/

namespace Markup.Html

/-- **The trees of a page**, each part where it is written, from an offset on. -/
def Page.trees (offset : Nat) : Page → List Tree
  | blank => []
  | text raw rest =>
    let stop := offset + Text.byteSize raw
    .leaf .text ⟨offset, stop⟩ :: rest.trees stop
  | comment body rest =>
    let stop := offset + Text.byteSize (writeComment body)
    .leaf .comment ⟨offset, stop⟩ :: rest.trees stop
  | void name attributes rest =>
    let stop := offset + Text.byteSize (startTag name attributes)
    .element (String.ofList name) ⟨offset, stop⟩ stop none [] :: rest.trees stop
  | element name attributes children rest =>
    let inside := offset + Text.byteSize (startTag name attributes)
    let content := inside + Text.byteSize children.render
    let stop := content + Text.byteSize (endTag name)
    .element (String.ofList name) ⟨offset, stop⟩ inside (some ⟨content, stop⟩)
      (children.trees inside) :: rest.trees stop

namespace Growth

variable {g : Growth} {name : String} {page : Page}

/-- The name of the innermost open element. -/
def top? (g : Growth) : Option String := g.stack.head?.map OpenElement.name

theorem top?_addUpTo (g : Growth) (tree : Tree) (offset : Nat) :
    top? (g.addUpTo tree offset) = g.top? := by
  obtain ⟨-, roots, stack⟩ := g
  cases stack <;> rfl

/-- **Nothing is closed by a start tag** that the innermost open element may hold. -/
theorem imply_eq (h : ∀ parent, g.top? = some parent →
    (TagRule.ofName parent).isClosedBy name = false) : g.imply name = g := by
  obtain ⟨offset, roots, stack⟩ := g
  cases stack with
  | nil => rfl
  | cons e outer =>
    have hopen := h e.name rfl
    rw [imply, List.takeWhile_cons_of_neg (by simp [hopen])]
    rfl

theorem closeTop_cons (offset : Nat) (roots : List Tree) (e : OpenElement)
    (outer : List OpenElement) (endTag : Option Span) :
    closeTop { offset, roots, stack := e :: outer } endTag =
      add { offset, roots, stack := outer } (e.close endTag) := rfl

/-- **An end tag closes the innermost element**, if that has its name. -/
theorem closeNamed_of_top {config : Config} {first : String} (htop : g.top? = some first)
    (hmatch : config.namesMatch first name = true) (endTag : Span) :
    closeNamed config g name endTag = g.closeTop (some endTag) := by
  obtain ⟨offset, roots, stack⟩ := g
  cases stack with
  | nil => cases htop
  | cons e outer =>
    obtain rfl := Option.some.inj htop
    rw [closeNamed, List.findIdx?_cons, if_pos hmatch]
    rfl

/-- A name is its own. -/
theorem namesMatch_self (name : String) : Html.config.namesMatch name name = true :=
  beq_self_eq_true _

/-- Lexemes that grow a tree, and then a page. -/
theorem foldl_append_page (ls : List Lexeme) {tree : Tree} {mid : Nat}
    (hfirst : ls.foldl (step config) g = g.addUpTo tree mid)
    (hpage : ∀ g' : Growth, g'.top? = g.top? → page.lexemes.foldl (step config) g' =
      g'.addAll (page.trees g'.offset) (g'.offset + Text.byteSize page.render)) :
    (ls ++ page.lexemes).foldl (step config) g =
      g.addAll (tree :: page.trees mid) (mid + Text.byteSize page.render) := by
  rw [List.foldl_append, hfirst, hpage _ (top?_addUpTo g tree mid), Growing.addAll_addUpTo]
  rfl

/-- **An element is closed by its own end tag**, if what is inside it only grows its trees. -/
theorem foldl_element (startTag endTag : List Char) {children : List Lexeme} {trees : List Tree}
    {inside size : Nat} (himply : g.imply name = g)
    (hinside : inside = g.offset + Text.byteSize startTag)
    (hchildren : ∀ g' : Growth, g'.top? = some name → g'.offset = inside →
      children.foldl (step config) g' = g'.addAll trees (inside + size)) :
    let content := inside + size
    let stop := content + Text.byteSize endTag
    (.openTag name startTag :: (children ++ [.endTag name endTag])).foldl (step config) g =
      g.addUpTo (.element name ⟨g.offset, stop⟩ inside (some ⟨content, stop⟩) trees) stop := by
  intro content stop
  have hopen : g.step config (.openTag name startTag) =
      { g with offset := inside, stack := ⟨name, ⟨g.offset, inside⟩, []⟩ :: g.stack } := by
    rw [step, himply, hinside]
    rfl
  have hgrown : children.foldl (step config) (g.step config (.openTag name startTag)) =
      ⟨content, g.roots, ⟨name, ⟨g.offset, inside⟩, trees.reverse ++ []⟩ :: g.stack⟩ := by
    rw [hchildren _ (by rw [hopen]; rfl) (by rw [hopen]), hopen]
    rfl
  rw [List.foldl_cons, List.foldl_append, hgrown, List.append_nil, List.foldl_cons, List.foldl_nil,
    step, closeNamed_of_top rfl (namesMatch_self name), closeTop_cons, OpenElement.close,
    List.reverse_reverse]
  obtain ⟨offset, roots, stack⟩ := g
  cases stack <;> rfl

/-- **A page grows its own trees** in any element that none of them closes. -/
theorem foldl_page (h : page.WellFormed) (hopen : ∀ parent, g.top? = some parent →
      ∀ child ∈ page.topNames, (TagRule.ofName parent).isClosedBy child = false) :
    page.lexemes.foldl (step config) g =
      g.addAll (page.trees g.offset) (g.offset + Text.byteSize page.render) := by
  induction page generalizing g with
  | blank => exact (Growing.addAll_nil g).symm
  | text raw rest ih =>
    obtain ⟨-, -, -, hrest⟩ := h
    rw [Page.render, Text.byteSize_append, ← Nat.add_assoc]
    exact foldl_append_page [_] rfl fun g' htop => ih hrest (htop ▸ hopen)
  | comment body rest ih =>
    obtain ⟨-, hrest⟩ := h
    rw [Page.render, Text.byteSize_append, ← Nat.add_assoc]
    exact foldl_append_page [_] rfl fun g' htop => ih hrest (htop ▸ hopen)
  | void name attributes rest ih =>
    obtain ⟨-, -, hrest⟩ := h
    have himply : g.imply (String.ofList name) = g :=
      imply_eq fun parent hparent => hopen parent hparent _ List.mem_cons_self
    rw [Page.render, Text.byteSize_append, ← Nat.add_assoc]
    refine foldl_append_page [_] ?_ fun g' htop => ih hrest fun parent hparent child hchild =>
      hopen parent (htop ▸ hparent) child (List.mem_cons_of_mem _ hchild)
    rw [List.foldl_cons, step, himply]
    rfl
  | element name attributes children rest ihChildren ih =>
    obtain ⟨-, -, hclosed, hchildren, hrest⟩ := h
    have himply : g.imply (String.ofList name) = g :=
      imply_eq fun parent hparent => hopen parent hparent _ List.mem_cons_self
    have hinside : ∀ g' : Growth, g'.top? = some (String.ofList name) →
        g'.offset = g.offset + Text.byteSize (startTag name attributes) →
          children.lexemes.foldl (step config) g' =
            g'.addAll (children.trees (g.offset + Text.byteSize (startTag name attributes)))
              (g.offset + Text.byteSize (startTag name attributes) +
                Text.byteSize children.render) := by
      intro g' htop hoffset
      rw [← hoffset]
      refine ihChildren hchildren fun parent hparent child hchild => ?_
      obtain rfl := Option.some.inj (htop.symm.trans hparent)
      exact hclosed child hchild
    have helement := foldl_element (startTag name attributes) (endTag name) himply rfl hinside
    have hall := foldl_append_page _ helement fun g' htop =>
      ih hrest fun parent hparent child hchild =>
        hopen parent (htop ▸ hparent) child (List.mem_cons_of_mem _ hchild)
    simp only [Page.render, Text.byteSize_append, ← Nat.add_assoc]
    rw [Page.lexemes, List.append_cons]
    exact hall

end Growth

/-- **The trees of a page that is written out are its own.** -/
theorem Page.ofText_render {page : Page} (h : page.WellFormed) :
    Tree.ofText config false page.render = .ok (page.trees 0) := by
  have hend : Html.lexemes config [] = .ok [] := by rw [Html.lexemes]
  have hlexemes := Page.lexemes_render h (Or.inl rfl) hend
  rw [List.append_nil, List.append_nil] at hlexemes
  have hgrown := Growth.foldl_page (g := {}) h (by simp [Growth.top?])
  have hfinish : Growth.finish (Growing.addAll {} (page.trees 0) (0 + Text.byteSize page.render)) =
      page.trees 0 := (congrArg List.reverse (List.append_nil _)).trans (List.reverse_reverse _)
  rw [Tree.ofText, documentLexemes]
  simp only [Bool.false_eq_true, if_false, hlexemes, Tree.ofLexemes, hgrown]
  exact congrArg Except.ok hfinish

end Markup.Html
