import Markup.Proofs.Svelte.Recovery
import Markup.Proofs.Svelte.Rereading
import Markup.Proofs.Tiling

/-!
# Proofs/Svelte/Inside — a template inside of another

A template that is read on its own grows **the same trees inside of anything**, moved by the place
where it stands there (`Growth.run_within`).  What grows inside is what has grown on its own, put
into what is around it (`Growth.within`), and each lexeme keeps that so (`Growth.step_within`).
-/

namespace Markup.Svelte

/-! ## Trees that stand further on -/

namespace Tree

mutual

/-- **A tree that stands further on** by a number of bytes. -/
def movedBy (shift : Nat) : Tree → Tree
  | .text span => .text (span.movedBy shift)
  | .comment span => .comment (span.movedBy shift)
  | .mustache span => .mustache (span.movedBy shift)
  | .strayClause span => .strayClause (span.movedBy shift)
  | .special tag content => .special tag (sectionMovedBy shift content)
  | .block kind head clauses =>
    .block kind (sectionMovedBy shift head) (clausesMovedBy shift clauses)
  | .element name span startTagEnd endTag children =>
    .element name (span.movedBy shift) (startTagEnd + shift) (endTag.map (Span.movedBy · shift))
      (allMovedBy shift children)

/-- Trees in a row that stand further on. -/
def allMovedBy (shift : Nat) : List Tree → List Tree
  | [] => []
  | tree :: trees => tree.movedBy shift :: allMovedBy shift trees

/-- A section that stands further on. -/
def sectionMovedBy (shift : Nat) : Section Tree → Section Tree
  | ⟨span, headerEnd, children⟩ =>
    ⟨span.movedBy shift, headerEnd + shift, allMovedBy shift children⟩

/-- Clauses that stand further on. -/
def clausesMovedBy (shift : Nat) : List (String × Section Tree) → List (String × Section Tree)
  | [] => []
  | (name, content) :: clauses =>
    (name, sectionMovedBy shift content) :: clausesMovedBy shift clauses

end

variable {shift : Nat}

theorem allMovedBy_eq_map (trees : List Tree) :
    allMovedBy shift trees = trees.map (movedBy shift) := by
  induction trees with
  | nil => rfl
  | cons tree trees ih => rw [allMovedBy, ih, List.map_cons]

theorem clausesMovedBy_eq_map (clauses : List (String × Section Tree)) :
    clausesMovedBy shift clauses =
      clauses.map fun clause => (clause.1, sectionMovedBy shift clause.2) := by
  induction clauses with
  | nil => rfl
  | cons clause clauses ih => rw [clausesMovedBy, ih, List.map_cons]

end Tree

open Markup.Svelte.Tree (sectionMovedBy clausesMovedBy)

variable {shift : Nat}

/-- What has been opened further on. -/
def Opener.movedBy (shift : Nat) : Opener → Opener
  | .element name startTag => .element name (startTag.movedBy shift)
  | .block kind header => .block kind (header.movedBy shift)
  | .clause kind head done name header =>
    .clause kind (sectionMovedBy shift head) (clausesMovedBy shift done) name (header.movedBy shift)

/-- What is open further on. -/
def Level.movedBy (shift : Nat) (l : Level) : Level :=
  ⟨l.opener.movedBy shift, l.children.map (Tree.movedBy shift)⟩

/-- What is open stays open further on. -/
theorem Opener.context_movedBy (opener : Opener) :
    opener.context.Within (opener.movedBy shift).context := by
  cases opener with
  | element name startTag => exact .element name startTag _
  | block kind header => exact .block kind header.start _ []
  | clause kind head done name header =>
    have hnames : (clausesMovedBy shift done).map Prod.fst = done.map Prod.fst := by
      rw [Tree.clausesMovedBy_eq_map, List.map_map]
      rfl
    rw [movedBy, context, context, hnames]
    exact .block kind head.span.start _ _

/-- A section that is extended may be moved before. -/
theorem extend_movedBy (shift : Nat) (s : Section Tree) (stop : Nat) :
    extend (stop + shift) (sectionMovedBy shift s) = sectionMovedBy shift (extend stop s) := by
  cases s
  rfl

namespace Level

theorem reach_movedBy (clause : String × Section Tree) (closing : Nat) :
    reach (closing + shift) (clause.1, sectionMovedBy shift clause.2) =
      ((reach closing clause).1, sectionMovedBy shift (reach closing clause).2) := by
  simp only [reach]
  split
  · exact congrArg (Prod.mk clause.1) (extend_movedBy shift clause.2 closing)
  · rfl

theorem toSection_movedBy (shift : Nat) (l : Level) (stop : Nat) :
    (l.movedBy shift).toSection (stop + shift) = sectionMovedBy shift (l.toSection stop) := by
  obtain ⟨opener, children⟩ := l
  have hheader : (opener.movedBy shift).header = opener.header.movedBy shift := by
    cases opener <;> rfl
  rw [toSection, toSection, sectionMovedBy, Tree.allMovedBy_eq_map, List.map_reverse]
  simp only [movedBy, hheader]
  rfl

/-- **A clause begins further on** in what is open further on. -/
theorem beginClause_movedBy (l : Level) (name : String) (header : Span) :
    (l.movedBy shift).beginClause name (header.movedBy shift) =
      (l.beginClause name header).movedBy shift := by
  have hlast := l.toSection_movedBy shift header.start
  obtain ⟨opener, children⟩ := l
  cases opener with
  | element => rfl
  | block kind _ =>
    exact congrArg (fun head => Level.mk (.clause kind head [] name (header.movedBy shift)) [])
      hlast
  | clause kind head done last _ =>
    exact congrArg (fun content => Level.mk (.clause kind (sectionMovedBy shift head)
      ((last, content) :: clausesMovedBy shift done) name (header.movedBy shift)) []) hlast

/-- **What is closed further on is what was closed**, further on. -/
theorem close_movedBy (l : Level) (tag : Span) :
    (l.movedBy shift).close (tag.movedBy shift) = (l.close tag).movedBy shift := by
  have hlast := l.toSection_movedBy shift tag.start
  have hwhole := l.toSection_movedBy shift tag.stop
  obtain ⟨opener, children⟩ := l
  cases opener with
  | element name startTag =>
    have hchildren : (children.map (Tree.movedBy shift)).reverse =
        Tree.allMovedBy shift children.reverse := by
      rw [Tree.allMovedBy_eq_map, List.map_reverse]
    exact congrArg (Tree.element name ⟨startTag.start + shift, tag.stop + shift⟩
      (startTag.stop + shift) (some (tag.movedBy shift))) hchildren
  | block kind _ => exact congrArg (Tree.block kind · []) hwhole
  | clause kind head done name _ =>
    have hclauses : ∀ clauses : List (String × Section Tree),
        (clausesMovedBy shift clauses).map (reach (tag.start + shift)) =
          clausesMovedBy shift (clauses.map (reach tag.start)) := by
      intro clauses
      rw [Tree.clausesMovedBy_eq_map, Tree.clausesMovedBy_eq_map, List.map_map, List.map_map]
      exact List.map_congr_left fun clause _ => reach_movedBy clause tag.start
    have hreverse : ∀ last : Section Tree,
        ((name, sectionMovedBy shift last) :: clausesMovedBy shift done).reverse =
          clausesMovedBy shift ((name, last) :: done).reverse := by
      intro last
      rw [Tree.clausesMovedBy_eq_map, Tree.clausesMovedBy_eq_map, List.map_reverse, List.map_cons]
    have hsections := (congrArg (List.map (reach (tag.start + shift)))
      (hlast ▸ hreverse (toSection ⟨.clause kind head done name _, children⟩ tag.start))).trans
        (hclauses _)
    have hhead := extend_movedBy shift head tag.stop
    exact congrArg₂ (Tree.block kind) hhead hsections

end Level

namespace Growth

variable {g : Growth}

/-- **What has grown inside of another growth**: its roots stand beside what is finished there, and
what it has opened is inside of what is open. -/
def within (host g : Growth) : Growth :=
  let beside :=
    host.addAll (g.roots.reverse.map (Tree.movedBy host.offset)) (g.offset + host.offset)
  { beside with stack := g.stack.map (Level.movedBy host.offset) ++ beside.stack }

theorem offset_within (host g : Growth) : (host.within g).offset = g.offset + host.offset := by
  obtain ⟨offset, roots, stack⟩ := host
  cases stack <;> rfl

/-- Inside of what is around a text, what is open innermost in it is. -/
theorem context_within (host g : Growth) : g.context.Within (host.within g).context := by
  obtain ⟨offset, roots, stack⟩ := g
  cases stack with
  | nil => exact .top _
  | cons l outer => exact l.opener.context_movedBy

theorem within_add (host g : Growth) (tree : Tree) :
    host.within (g.add tree) = (host.within g).add (tree.movedBy host.offset) := by
  obtain ⟨offset, roots, stack⟩ := g
  obtain ⟨start, before, around⟩ := host
  cases stack <;> cases around <;> simp [within, Growing.addAll, Level.movedBy]

theorem within_enter (host g : Growth) (opener : Opener) :
    host.within (g.enter opener) = (host.within g).enter (opener.movedBy host.offset) := by
  obtain ⟨start, before, around⟩ := host
  cases around <;> rfl

theorem within_beginClause (host : Growth) (hopen : g.stack ≠ []) (name : String) (header : Span) :
    host.within (g.beginClause name header) =
      (host.within g).beginClause name (header.movedBy host.offset) := by
  obtain ⟨offset, roots, stack⟩ := g
  obtain ⟨l, outer, hstack⟩ := List.exists_cons_of_ne_nil hopen
  subst hstack
  simp [within, beginClause, Level.beginClause_movedBy]

theorem within_closeTop (host : Growth) (hopen : g.stack ≠ []) (tag : Span) :
    host.within (g.closeTop tag) = (host.within g).closeTop (tag.movedBy host.offset) := by
  obtain ⟨offset, roots, stack⟩ := g
  obtain ⟨l, outer, hstack⟩ := List.exists_cons_of_ne_nil hopen
  subst hstack
  have hadd := within_add host { offset, roots, stack := outer } (l.close tag)
  rw [← Level.close_movedBy] at hadd
  exact hadd

theorem within_upTo (host g : Growth) (offset : Nat) :
    host.within { g with offset } =
      { host.within g with offset := offset + host.offset } := by
  obtain ⟨start, before, around⟩ := host
  cases around <;> rfl

/-- An element with opaque content is moved with its text. -/
theorem rawElement_movedBy (offset shift : Nat) (name : String)
    (startTag content endTag : List Char) :
    (rawElement offset name startTag content endTag).movedBy shift =
      rawElement (offset + shift) name startTag content endTag := by
  simp only [rawElement, Tree.movedBy]
  split <;> simp [Tree.allMovedBy, Tree.movedBy, Span.movedBy, Nat.add_right_comm _ _ shift]

/-- **A lexeme grows inside of anything what it grows on its own.** -/
theorem within_step (host : Growth) {lexeme : Lexeme} (hfits : lexeme.Fits g.context) :
    host.within (g.step lexeme) = (host.within g).step lexeme := by
  let span : Span := ⟨g.offset, g.offset + Text.byteSize lexeme.raw⟩
  let moved : Span := ⟨(host.within g).offset, (host.within g).offset + Text.byteSize lexeme.raw⟩
  have hmoved : span.movedBy host.offset = moved := by
    rw [Span.movedBy_size, ← offset_within]
  have hstop : span.stop + host.offset = moved.stop := congrArg Span.stop hmoved
  have hgrown : ∀ {grown grown' : Growth}, host.within grown = grown' →
      host.within { grown with offset := span.stop } = { grown' with offset := moved.stop } := by
    intro grown grown' h
    rw [within_upTo, h, hstop]
  have hadd : ∀ {tree tree' : Tree}, tree.movedBy host.offset = tree' →
      host.within (g.add tree) = (host.within g).add tree' :=
    fun h => h ▸ within_add host g _
  have henter : ∀ {opener opener' : Opener}, opener.movedBy host.offset = opener' →
      host.within (g.enter opener) = (host.within g).enter opener' :=
    fun h => h ▸ within_enter host g _
  have hopen : g.context ≠ .top → g.stack ≠ [] := by
    intro hcontext hnil
    rw [context, hnil] at hcontext
    exact hcontext rfl
  cases lexeme with
  | text | comment | mustache => exact hgrown (hadd (congrArg _ hmoved))
  | special tag raw =>
    have hcontent : sectionMovedBy host.offset ⟨span, span.stop, []⟩ = ⟨moved, moved.stop, []⟩ := by
      rw [sectionMovedBy, hmoved, hstop, Tree.allMovedBy]
    exact hgrown (hadd (congrArg (Tree.special tag) hcontent))
  | closedTag name raw =>
    have helement : (Tree.element name span span.stop none []).movedBy host.offset =
        .element name moved moved.stop none [] := by
      rw [Tree.movedBy, hmoved, hstop, Tree.allMovedBy, Option.map_none]
    exact hgrown (hadd helement)
  | rawElement name startTag content endTag =>
    refine hgrown (hadd ?_)
    rw [rawElement_movedBy, offset_within]
  | openTag | openBlock => exact hgrown (henter (congrArg _ hmoved))
  | clause name raw =>
    obtain ⟨kind, start, names, -, hcontext, -⟩ := hfits
    have hbegins := within_beginClause host (hopen (by simp [hcontext])) name span
    rw [hmoved] at hbegins
    exact hgrown hbegins
  | closer raw =>
    have hcloses := within_closeTop host (hopen hfits.2.1) span
    rw [hmoved] at hcloses
    exact hgrown hcloses

/-- **A text that is read on its own is read inside of anything** that what follows it ends a text
in, and grows the same trees there. -/
theorem run_within (host : Growth) {config : Config} {cs : List Char} {trees : List Tree}
    (h : g.run config cs = .ok trees) {tail : List Char} (htail : EndsText tail) :
    (host.within g).run config (cs ++ tail) =
      run config (host.addAll (trees.map (Tree.movedBy host.offset))
        (g.offset + Text.byteSize cs + host.offset)) tail := by
  induction hlength : cs.length using Nat.strongRecOn generalizing g cs with
  | ind n ih =>
    subst hlength
    cases cs with
    | nil =>
      rw [run, finish] at h
      split at h
      · next hnil =>
        cases h
        obtain ⟨start, before, around⟩ := host
        cases around <;> simp [within, hnil, Growing.addAll]
      · cases h
    | cons c cs =>
      obtain ⟨lexeme, rest, hnext, hrun⟩ := run_cons_eq_ok h
      have hne := List.cons_ne_nil c cs
      have hlt := Lexeme.length_lt_of_next hnext hne
      have hagain := Lexeme.next_append hnext hne (context_within host g)
        (host.within g).offset htail
      have hsize : (g.step lexeme).offset + Text.byteSize rest =
          g.offset + Text.byteSize (c :: cs) := by
        rw [← (Lexeme.append_of_next hnext).1, Text.byteSize_append, ← Nat.add_assoc]
        rfl
      rw [run_of_next hagain (List.append_ne_nil_of_left_ne_nil hne tail),
        ← within_step host (Lexeme.fits_of_next hnext hne), ih _ hlt hrun rfl, hsize]

/-- **A template that is read on its own is read inside of another.** -/
theorem run_of_ofText {body : List Char} {trees : List Tree}
    (h : Tree.ofText config body = .ok trees) {tail : List Char} (htail : EndsText tail)
    (host : Growth) : host.run config (body ++ tail) =
      run config (host.addAll (trees.map (Tree.movedBy host.offset))
        (host.offset + Text.byteSize body)) tail := by
  have hwithin : host.within {} = host := by
    obtain ⟨start, before, around⟩ := host
    cases around <;> simp [within, Growing.addAll]
  have hrun := run_within host h htail
  rw [hwithin] at hrun
  simpa [Nat.add_comm] using hrun

end Growth

end Markup.Svelte
