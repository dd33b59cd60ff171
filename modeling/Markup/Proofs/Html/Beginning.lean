import Markup.Proofs.Html.Element
import Markup.Proofs.Html.Growth

/-!
# Proofs/Html/Beginning — what a row of lexemes begins with

A mark is finished at once, so what follows it grows **as it would on its own**, moved by the size
of the mark (`Tree.ofLexemes_cons_mark`).  Any other lexeme begins the first tree, whatever follows
(`Tree.exists_first`): that tree is the first of what is finished, or its element is the first of
what is open, as long as the growth goes on (`Growth.Begins`).
-/

namespace Markup.Html

/-! ## Trees that stand further on -/

namespace Tree

mutual

/-- **A tree that stands further on** by a number of bytes. -/
def movedBy (shift : Nat) : Tree → Tree
  | .leaf kind span => .leaf kind (span.movedBy shift)
  | .stray span => .stray (span.movedBy shift)
  | .element name span startTagEnd endTag children =>
    .element name (span.movedBy shift) (startTagEnd + shift) (endTag.map (Span.movedBy · shift))
      (allMovedBy shift children)

/-- Trees in a row that stand further on. -/
def allMovedBy (shift : Nat) : List Tree → List Tree
  | [] => []
  | tree :: trees => tree.movedBy shift :: allMovedBy shift trees

end

variable {shift : Nat}

theorem allMovedBy_eq_map (trees : List Tree) :
    allMovedBy shift trees = trees.map (movedBy shift) := by
  induction trees with
  | nil => rfl
  | cons tree trees ih => rw [allMovedBy, ih, List.map_cons]

mutual

/-- A tree that is not moved. -/
theorem movedBy_zero : ∀ t : Tree, t.movedBy 0 = t
  | .leaf _ _ => rfl
  | .stray _ => rfl
  | .element _ _ _ endTag children => by
    rw [movedBy, allMovedBy_zero children]
    cases endTag <;> rfl

theorem allMovedBy_zero : ∀ trees : List Tree, allMovedBy 0 trees = trees
  | [] => rfl
  | t :: trees => by rw [allMovedBy, movedBy_zero t, allMovedBy_zero trees]

end

theorem map_movedBy_zero (trees : List Tree) : trees.map (movedBy 0) = trees :=
  (allMovedBy_eq_map trees).symm.trans (allMovedBy_zero trees)

mutual

/-- **Moving twice** is moving by the sum. -/
theorem movedBy_movedBy (more : Nat) :
    ∀ t : Tree, (t.movedBy shift).movedBy more = t.movedBy (shift + more)
  | .leaf _ _ => by simp only [movedBy, Span.movedBy, Nat.add_assoc]
  | .stray _ => by simp only [movedBy, Span.movedBy, Nat.add_assoc]
  | .element _ _ _ endTag children => by
    cases endTag <;> simp only [movedBy, allMovedBy_allMovedBy more children, Span.movedBy,
      Nat.add_assoc, Option.map_some, Option.map_none]

theorem allMovedBy_allMovedBy (more : Nat) :
    ∀ trees : List Tree, allMovedBy more (allMovedBy shift trees) = allMovedBy (shift + more) trees
  | [] => rfl
  | t :: trees => by
    simp only [allMovedBy, movedBy_movedBy more t, allMovedBy_allMovedBy more trees]

end

theorem map_movedBy_movedBy (trees : List Tree) (more : Nat) :
    (trees.map (movedBy shift)).map (movedBy more) = trees.map (movedBy (shift + more)) := by
  rw [List.map_map]
  exact List.map_congr_left fun t _ => movedBy_movedBy more t

theorem span_movedBy (t : Tree) : (t.movedBy shift).span = t.span.movedBy shift := by
  cases t <;> rfl

theorem startTag?_movedBy (t : Tree) : (t.movedBy shift).startTag? =
    t.startTag?.map fun tag => (tag.1, tag.2.movedBy shift) := by
  cases t <;> rfl

end Tree

variable {config : Config} {shift : Nat} {front : List Tree}

namespace OpenElement

/-- An element that is open further on. -/
def movedBy (shift : Nat) (e : OpenElement) : OpenElement where
  name := e.name
  startTag := e.startTag.movedBy shift
  children := e.children.map (Tree.movedBy shift)

/-- **What is closed further on is what was closed**, further on. -/
theorem close_movedBy (e : OpenElement) (endTag : Option Span) :
    (e.movedBy shift).close (endTag.map (Span.movedBy · shift)) =
      (e.close endTag).movedBy shift := by
  have hend : (e.movedBy shift).contentEnd = e.contentEnd + shift := by
    obtain ⟨name, startTag, children⟩ := e
    cases children with
    | nil => rfl
    | cons last children => exact congrArg Span.stop (Tree.span_movedBy last)
  have hstop : ((endTag.map (Span.movedBy · shift)).map Span.stop).getD (e.contentEnd + shift) =
      (endTag.map Span.stop).getD e.contentEnd + shift := by
    cases endTag <;> rfl
  rw [close, close, hend, hstop, Tree.movedBy, Tree.allMovedBy_eq_map, List.map_reverse]
  rfl

end OpenElement

namespace Growth

variable {g : Growth}

/-- **What has grown behind finished trees**, last first, that take up so many bytes. -/
def behind (front : List Tree) (shift : Nat) (g : Growth) : Growth where
  offset := g.offset + shift
  roots := g.roots.map (Tree.movedBy shift) ++ front
  stack := g.stack.map (OpenElement.movedBy shift)

theorem behind_add (g : Growth) (t : Tree) :
    (g.add t).behind front shift = (g.behind front shift).add (t.movedBy shift) := by
  obtain ⟨offset, roots, stack⟩ := g
  cases stack <;> simp [behind, add, OpenElement.movedBy]

theorem behind_closeTop (g : Growth) (endTag : Option Span) :
    (g.closeTop endTag).behind front shift =
      (g.behind front shift).closeTop (endTag.map (Span.movedBy · shift)) := by
  obtain ⟨offset, roots, stack⟩ := g
  cases stack with
  | nil => rfl
  | cons e outer =>
    have hadd := @behind_add shift front { offset, roots, stack := outer } (e.close endTag)
    rw [← OpenElement.close_movedBy] at hadd
    exact hadd

theorem behind_closeMany (n : Nat) (g : Growth) :
    (closeMany n g).behind front shift = closeMany n (g.behind front shift) := by
  induction n generalizing g with
  | zero => rfl
  | succ n ih => rw [closeMany, ih, behind_closeTop, closeMany, Option.map_none]

theorem behind_imply (g : Growth) (name : String) :
    (g.imply name).behind front shift = (g.behind front shift).imply name := by
  have hlength : ((g.behind front shift).stack.takeWhile fun e =>
      (TagRule.ofName e.name).isClosedBy name).length =
        (g.stack.takeWhile fun e => (TagRule.ofName e.name).isClosedBy name).length := by
    rw [behind, List.takeWhile_map, List.length_map]
    rfl
  rw [imply, imply, behind_closeMany, hlength]

theorem behind_closeNamed (g : Growth) (name : String) (endTag : Span) :
    (g.closeNamed config name endTag).behind front shift =
      (g.behind front shift).closeNamed config name (endTag.movedBy shift) := by
  have hfound : (g.behind front shift).stack.findIdx? (fun e => config.namesMatch e.name name) =
      g.stack.findIdx? fun e => config.namesMatch e.name name := by
    rw [behind, List.findIdx?_map]
    rfl
  rw [closeNamed, closeNamed, hfound]
  split
  · exact behind_add g _
  · rw [behind_closeTop, behind_closeMany, Option.map_some]

theorem behind_enter (g : Growth) (name : String) (startTag : Span) :
    (g.enter name startTag).behind front shift =
      (g.behind front shift).enter name (startTag.movedBy shift) := rfl

/-- An element with opaque content is moved with its text. -/
theorem movedBy_rawElement (offset : Nat) (name : String) (startTag content : List Char)
    (endTag : Option (List Char)) :
    (rawElement offset name startTag content endTag).movedBy shift =
      rawElement (offset + shift) name startTag content endTag := by
  have hright : ∀ a b : Nat, a + b + shift = a + shift + b := fun a b =>
    Nat.add_right_comm a b shift
  cases endTag <;> simp only [rawElement, Tree.movedBy] <;> split <;>
    simp [Tree.allMovedBy, Tree.movedBy, Span.movedBy, hright]

/-- **A lexeme grows behind finished trees what it grows on its own.** -/
theorem behind_step (g : Growth) (lexeme : Lexeme) :
    (g.step config lexeme).behind front shift = (g.behind front shift).step config lexeme := by
  let span : Span := ⟨g.offset, g.offset + Text.byteSize lexeme.text⟩
  let moved : Span := ⟨g.offset + shift, g.offset + shift + Text.byteSize lexeme.text⟩
  have hmoved : span.movedBy shift = moved := Span.movedBy_size _ _ _
  have hstop : span.stop + shift = moved.stop := congrArg Span.stop hmoved
  have hgrown : ∀ {grown grown' : Growth}, grown.behind front shift = grown' →
      Growth.behind front shift { grown with offset := span.stop } =
        { grown' with offset := moved.stop } := by
    rintro grown _ rfl
    rw [← hstop]
    rfl
  have hadd : ∀ {grown : Growth} {t t' : Tree}, t.movedBy shift = t' →
      (grown.add t).behind front shift = (grown.behind front shift).add t' :=
    fun h => h ▸ behind_add _ _
  cases lexeme with
  | mark kind raw => exact hgrown (hadd (congrArg (Tree.leaf kind) hmoved))
  | closedTag name raw =>
    have helement : (Tree.element name span span.stop none []).movedBy shift =
        .element name moved moved.stop none [] := by
      rw [Tree.movedBy, hmoved, hstop, Tree.allMovedBy, Option.map_none]
    exact hgrown ((hadd helement).trans (congrArg (add · _) (behind_imply g name)))
  | openTag name raw =>
    have hopens : ((g.imply name).enter name span).behind front shift =
        ((g.behind front shift).imply name).enter name moved := by
      rw [behind_enter, hmoved, behind_imply]
    exact hgrown hopens
  | rawElement name startTag content endTag =>
    exact hgrown ((hadd (movedBy_rawElement _ _ _ _ _)).trans
      (congrArg (add · _) (behind_imply g name)))
  | endTag name raw =>
    have hcloses : (g.closeNamed config name span).behind front shift =
        (g.behind front shift).closeNamed config name moved := by
      rw [behind_closeNamed, hmoved]
    exact hgrown hcloses

theorem behind_foldl (ls : List Lexeme) (g : Growth) :
    (ls.foldl (step config) g).behind front shift =
      ls.foldl (step config) (g.behind front shift) := by
  induction ls generalizing g with
  | nil => rfl
  | cons l ls ih => rw [List.foldl_cons, ih, behind_step, List.foldl_cons]

theorem finish_behind (g : Growth) :
    (g.behind front shift).finish = front.reverse ++ g.finish.map (Tree.movedBy shift) := by
  have hlength : (g.behind front shift).stack.length = g.stack.length := List.length_map _
  rw [finish, finish, hlength, ← behind_closeMany]
  simp [behind]

end Growth

/-- **Behind a mark grows what would grow on its own.** -/
theorem Tree.ofLexemes_cons_mark (kind : Mark) (raw : List Char) (ls : List Lexeme) :
    ofLexemes config (.mark kind raw :: ls) = .leaf kind ⟨0, Text.byteSize raw⟩ ::
      (ofLexemes config ls).map (movedBy (Text.byteSize raw)) := by
  have hstart : Growth.step config {} (.mark kind raw) =
      Growth.behind [.leaf kind ⟨0, Text.byteSize raw⟩] (Text.byteSize raw) {} := by
    simp [Growth.step, Growth.behind, Growth.add, Lexeme.text]
  rw [ofLexemes, List.foldl_cons, hstart, ← Growth.behind_foldl, Growth.finish_behind]
  rfl

/-! ## The first tree -/

/-- **The first tree has the property**, or the element that is open outermost will, however it is
closed. -/
inductive Growth.Begins (p : Tree → Prop) : Growth → Prop
  | finished {offset : Nat} (roots : List Tree) {stack : List OpenElement} {t : Tree} (own : p t) :
      Begins p ⟨offset, roots ++ [t], stack⟩
  | opened {offset : Nat} (stack : List OpenElement) {e : OpenElement}
      (own : ∀ children endTag, p (({ e with children } : OpenElement).close endTag)) :
      Begins p ⟨offset, [], stack ++ [e]⟩

namespace Growth.Begins

variable {p : Tree → Prop} {g : Growth}

theorem upTo (h : g.Begins p) (offset : Nat) : Begins p { g with offset } := by
  cases h with
  | finished roots own => exact .finished roots own
  | opened stack own => exact .opened stack own

theorem add (h : g.Begins p) (t : Tree) : (g.add t).Begins p := by
  cases h with
  | @finished _ roots stack _ own =>
    cases stack with
    | nil => exact .finished (t :: roots) own
    | cons e outer => exact .finished roots own
  | @opened _ stack e own =>
    cases stack with
    | nil => exact .opened [] own
    | cons top stack => exact .opened ({ top with children := t :: top.children } :: stack) own

theorem enter (h : g.Begins p) (name : String) (startTag : Span) :
    (g.enter name startTag).Begins p := by
  cases h with
  | finished roots own => exact .finished roots own
  | opened stack own => exact .opened ({ name, startTag } :: stack) own

/-- **What is open outermost becomes the first tree** when it is closed. -/
theorem closeTop (h : g.Begins p) (endTag : Option Span) : (g.closeTop endTag).Begins p := by
  cases h with
  | @finished offset roots stack t own =>
    cases stack with
    | nil => exact .finished roots own
    | cons e outer =>
      have hbegins : Begins p ⟨offset, roots ++ [t], outer⟩ := .finished roots own
      exact hbegins.add _
  | @opened offset stack e own =>
    cases stack with
    | nil => exact .finished [] (own e.children endTag)
    | cons top stack =>
      have hbegins : Begins p ⟨offset, [], stack ++ [e]⟩ := .opened stack own
      exact hbegins.add _

theorem closeMany (n : Nat) (h : g.Begins p) : (closeMany n g).Begins p :=
  closeMany_keeps (fun h => h.closeTop none) n h

theorem closeNamed (h : g.Begins p) (name : String) (endTag : Span) :
    (g.closeNamed config name endTag).Begins p := by
  rw [Growth.closeNamed]
  split
  · exact h.add _
  · exact (h.closeMany _).closeTop _

/-- **Growing by a lexeme does not change the beginning.** -/
theorem step (h : g.Begins p) (lexeme : Lexeme) : (g.step config lexeme).Begins p := by
  cases lexeme with
  | mark kind raw => exact (h.add _).upTo _
  | closedTag name raw => exact ((h.closeMany _).add _).upTo _
  | openTag name raw => exact ((h.closeMany _).enter name _).upTo _
  | rawElement name startTag content endTag => exact ((h.closeMany _).add _).upTo _
  | endTag name raw => exact (h.closeNamed name _).upTo _

/-- **The first tree of what has grown** has the property. -/
theorem finish (h : g.Begins p) : ∃ t others, g.finish = t :: others ∧ p t := by
  have hclosed := h.closeMany g.stack.length
  have hstack : (Growth.closeMany g.stack.length g).stack = [] :=
    List.length_eq_zero_iff.1 (by rw [stack_closeMany, Nat.sub_self])
  rw [Growth.finish]
  cases hgrown : Growth.closeMany g.stack.length g with
  | mk offset roots stack =>
    rw [hgrown] at hclosed hstack
    cases hclosed with
    | @finished _ roots _ t own => exact ⟨t, roots.reverse, by simp, own⟩
    | opened => exact absurd hstack (by simp)

end Growth.Begins

/-- **The tree that a lexeme at the beginning begins.** -/
def Lexeme.Grows (t : Tree) : Lexeme → Prop
  | .mark kind raw => t = .leaf kind ⟨0, Text.byteSize raw⟩
  | .endTag _ raw => t = .stray ⟨0, Text.byteSize raw⟩
  | .closedTag name raw | .openTag name raw => t.startTag? = some (name, ⟨0, Text.byteSize raw⟩)
  | .rawElement name startTag _ _ => t.startTag? = some (name, ⟨0, Text.byteSize startTag⟩)

/-- **The first lexeme begins the first tree**, whatever follows. -/
theorem Tree.exists_first (config : Config) (first : Lexeme) (ls : List Lexeme) :
    ∃ t others, ofLexemes config (first :: ls) = t :: others ∧ first.Grows t := by
  have hbegins : (Growth.step config {} first).Begins fun t => first.Grows t := by
    cases first with
    | mark kind raw => exact .finished [] (by simp [Lexeme.Grows, Lexeme.text])
    | closedTag name raw =>
      exact .finished [] (by simp [Lexeme.Grows, Tree.startTag?, Lexeme.text])
    | openTag name raw =>
      exact .opened [] fun children endTag => by
        simp [Lexeme.Grows, OpenElement.close, Tree.startTag?, Lexeme.text]
    | rawElement name startTag content endTag =>
      exact .finished [] (by simp [Lexeme.Grows, Growth.rawElement, Tree.startTag?])
    | endTag name raw => exact .finished [] (by simp [Lexeme.Grows, Lexeme.text])
  have hgrown : ∀ (ls : List Lexeme) {g : Growth}, g.Begins (fun t => first.Grows t) →
      (ls.foldl (Growth.step config) g).Begins fun t => first.Grows t := by
    intro ls
    induction ls with
    | nil => exact id
    | cons l ls ih => exact fun h => ih (h.step l)
  exact (hgrown ls hbegins).finish

end Markup.Html
