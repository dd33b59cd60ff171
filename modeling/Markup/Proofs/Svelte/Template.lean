import Markup.Proofs.Svelte.Clause
import Markup.Proofs.Svelte.Lexeme
import Markup.Proofs.Text.Slice
import Markup.Svelte.Template

/-!
# Proofs/Svelte/Template — the trees of a template cover it

While a template's tree grows, **what is finished and what is open cover the text that has been
read**.  A block that is open has its sections so far in a row (`Opener.Begins`), and each of them
begins with the tag that is written there.  `covers_step` is the step and `exists_of_run` goes from
steps to whole texts; since nothing may be open at the end, the roots cover the text
(`Tree.forest_of_ofText`).
-/

namespace Markup.Svelte

/-! ## Tags of a text -/

/-- A range of the text is one tag in braces, with this inside. -/
def TagAt (source : List Char) (span : Span) (inner : List Char) : Prop :=
  ∃ raw, Text.slice? span.start span.stop source = some raw ∧ IsBraceTag raw inner

/-- A range of the text is a start tag with this name. -/
def StartTagAt (source : List Char) (span : Span) (name : String) (selfClosing : Bool) : Prop :=
  ∃ raw, Text.slice? span.start span.stop source = some raw ∧ IsStartTag raw name selfClosing

/-- A range of the text is a comment. -/
def CommentAt (source : List Char) (span : Span) : Prop :=
  ∃ raw, Text.slice? span.start span.stop source = some raw ∧ IsComment raw

/-- A range of the text is an expression in braces. -/
def MustacheAt (source : List Char) (span : Span) : Prop :=
  ∃ raw, Text.slice? span.start span.stop source = some raw ∧ IsMustache raw

/-- A special tag is written there. -/
def SpecialTag.WrittenAt (tag : SpecialTag) (source : List Char) (span : Span) : Prop :=
  ∃ header, TagAt source span ('@' :: header) ∧
    SpecialTag.ofWord? (String.ofList (Text.leadingWord header)) = some tag

namespace Block

variable (kind : Block) (source : List Char)

/-- The tag that opens a block is written there… -/
def OpensAt (span : Span) : Prop :=
  ∃ header, TagAt source span ('#' :: header) ∧ ofHeader? header = some kind

/-- …or the tag of the clause that goes on from those of these names, last first… -/
def ContinuesAt (names : List String) (name : String) (span : Span) : Prop :=
  ∃ header, TagAt source span (':' :: header) ∧ kind.admitsClause names = true ∧
    kind.clauseName names header = .ok name

/-- …or the tag that closes it. -/
def ClosesAt (span : Span) : Prop :=
  ∃ word, TagAt source span ('/' :: word) ∧ Text.trim word = kind.word.toList

/-- **Clauses that are written in the text**, last first. -/
inductive Written : List (String × Section Tree) → Prop
  | nil : Written []
  | cons {name : String} {s : Section Tree} {done : List (String × Section Tree)}
      (before : Written done)
      (continues : kind.ContinuesAt source (done.map Prod.fst) name ⟨s.span.start, s.headerEnd⟩) :
      Written ((name, s) :: done)

variable {kind source}

/-- Clauses that are written are ones that the block admits. -/
theorem Written.admitted {clauses : List (String × Section Tree)}
    (h : kind.Written source clauses) : kind.Admitted (clauses.map Prod.fst) := by
  induction h with
  | nil => exact Admitted.nil
  | cons _ continues ih =>
    obtain ⟨header, -, admits, named⟩ := continues
    exact Admitted.cons ih admits named

/-- Only the names and the headers of clauses are written. -/
theorem Written.map {clauses : List (String × Section Tree)} (h : kind.Written source clauses)
    {f : String × Section Tree → String × Section Tree}
    (hf : ∀ c ∈ clauses, (f c).1 = c.1 ∧ (f c).2.span.start = c.2.span.start ∧
      (f c).2.headerEnd = c.2.headerEnd) : kind.Written source (clauses.map f) := by
  induction h with
  | nil => exact Written.nil
  | @cons name s done _ continues ih =>
    rw [List.forall_mem_cons] at hf
    obtain ⟨⟨hname, hstart, hend⟩, hdone⟩ := hf
    have hnames : (done.map f).map Prod.fst = done.map Prod.fst := by
      rw [List.map_map]
      exact List.map_congr_left fun c hc => (hdone c hc).1
    rw [List.map_cons, ← Prod.eta (f (name, s)), hname]
    refine Written.cons (ih hdone) ?_
    rwa [hnames, hstart, hend]

/-- A tag that closes a block begins with a brace. -/
theorem ClosesAt.exists_cons {span : Span} (h : kind.ClosesAt source span) :
    ∃ tail, Text.dropBytes? span.start source = some ('{' :: tail) := by
  obtain ⟨word, ⟨raw, hslice, htag⟩, -⟩ := h
  obtain ⟨tail, rfl⟩ := htag.exists_cons
  obtain ⟨before, after, rfl, hsize, -⟩ := Text.slice?_eq_some_iff.1 hslice
  refine ⟨tail ++ after, Text.dropBytes?_eq_some_iff.2 ⟨before, ?_, hsize⟩⟩
  rw [List.append_assoc, List.cons_append]

/-- …so no blanks come before it. -/
theorem ClosesAt.takeWhile_eq_nil {span : Span} (h : kind.ClosesAt source span) :
    ((Text.slice? span.start span.stop source).getD []).takeWhile Text.isBlank = [] := by
  obtain ⟨tail, hbrace⟩ := h.exists_cons
  exact Text.takeWhile_slice?_eq_nil hbrace (by decide)

end Block

/-! ## Trees -/

/-- **A tree whose parts cover it and are what the text says**: the sections of a block follow each
other up to its closing tag.  What a text holds depends on where it stands. -/
inductive Tree.WellFormed (source : List Char) : Tree → Prop
  | text (span : Span) : WellFormed source (.text span)
  | comment {span : Span} (written : CommentAt source span) : WellFormed source (.comment span)
  | mustache {span : Span} (written : MustacheAt source span) : WellFormed source (.mustache span)
  | special {tag : SpecialTag} {span : Span} (written : tag.WrittenAt source span) :
      WellFormed source (.special tag ⟨span, span.stop, []⟩)
  | element {name : String} {span : Span} {startTagEnd content : Nat} {endTag : Option Span}
      {selfClosing : Bool} {children : List Tree} (startTag : span.start < startTagEnd)
      (written : StartTagAt source ⟨span.start, startTagEnd⟩ name selfClosing)
      (closed : endTag = none ↔ selfClosing = true ∨ isVoidName name = true)
      (empty : endTag = none → children = [])
      (row : Tiled startTagEnd content children) (inside : ∀ t ∈ children, WellFormed source t)
      (closes : Closes content span.stop endTag) :
      WellFormed source (.element name span startTagEnd endTag children)
  | block {kind : Block} {head : Section Tree} {clauses : List (String × Section Tree)}
      {content : Nat} (opens : kind.OpensAt source ⟨head.span.start, head.headerEnd⟩)
      (row : Consecutive head.span.start content (head :: clauses.map Prod.snd))
      (inside : ∀ s ∈ head :: clauses.map Prod.snd, ∀ t ∈ s.children, WellFormed source t)
      (written : kind.Written source clauses.reverse) (closes : content < head.span.stop)
      (closer : kind.ClosesAt source ⟨content, head.span.stop⟩) :
      WellFormed source (.block kind head clauses)

/-- **What is before the section at hand**: nothing, or the sections of the block so far. -/
inductive Opener.Begins (source : List Char) (start : Nat) : Opener → Prop
  | element {name : String} {startTag : Span} (first : startTag.start = start)
      (written : StartTagAt source startTag name false) (nonvoid : isVoidName name = false) :
      Begins source start (.element name startTag)
  | block {kind : Block} {header : Span} (first : header.start = start)
      (opens : kind.OpensAt source header) : Begins source start (.block kind header)
  | clause {kind : Block} {head : Section Tree} {done : List (String × Section Tree)}
      {name : String} {header : Span}
      (opens : kind.OpensAt source ⟨head.span.start, head.headerEnd⟩)
      (row : Consecutive start header.start (head :: done.reverse.map Prod.snd))
      (inside : ∀ s ∈ head :: done.reverse.map Prod.snd, ∀ t ∈ s.children, t.WellFormed source)
      (written : kind.Written source done)
      (continues : kind.ContinuesAt source (done.map Prod.fst) name header) :
      Begins source start (.clause kind head done name header)

/-- **A level that covers a range**: what is before its section, the header and the children. -/
structure Level.Covers (source : List Char) (start stop : Nat) (l : Level) : Prop where
  before : l.opener.Begins source start
  header : l.opener.header.start < l.opener.header.stop
  inside : Forest (Tree.WellFormed source) l.opener.header.stop stop l.children.reverse

/-- **What is open covers the text up to a place**: outermost the roots, then each level in turn. -/
inductive Stacked (source : List Char) (roots : List Tree) : List Level → Nat → Prop
  | nil {stop : Nat} (finished : Forest (Tree.WellFormed source) 0 stop roots.reverse) :
      Stacked source roots [] stop
  | cons {l : Level} {outer : List Level} {start stop : Nat}
      (before : Stacked source roots outer start) (level : l.Covers source start stop) :
      Stacked source roots (l :: outer) stop

/-! ## Levels of blocks -/

namespace Level

/-- The head section of a block, if the section at hand ends at an offset. -/
def headSection (l : Level) (stop : Nat) : Section Tree :=
  match l.opener with
  | .clause _ head _ _ _ => head
  | _ => l.toSection stop

/-- The clauses of a block, if the section at hand ends at an offset. -/
def clauses (l : Level) (stop : Nat) : List (String × Section Tree) :=
  match l.opener with
  | .clause _ _ done name _ => ((name, l.toSection stop) :: done).reverse
  | _ => []

theorem clauses_clause (kind : Block) (head : Section Tree) (done : List (String × Section Tree))
    (name : String) (header : Span) (children : List Tree) (stop : Nat) :
    clauses ⟨.clause kind head done name header, children⟩ stop = done.reverse ++
      [(name, ⟨⟨header.start, stop⟩, header.stop, children.reverse⟩)] :=
  List.reverse_cons

/-- A clause that reaches to the closing tag if it is a further alternative. -/
def reach (closing : Nat) (clause : String × Section Tree) : String × Section Tree :=
  if clause.1 = "elseif" then (clause.1, extend closing clause.2) else clause

variable {source : List Char} {l : Level} {kind : Block} {first start mid stop : Nat}
  {names : List String}

/-- **A block is closed with its head and its clauses**, each as far as it reaches… -/
theorem close_eq (h : l.opener.context = .block kind first names) (tag : Span) :
    l.close tag = .block kind (extend tag.stop (l.headSection tag.start))
      ((l.clauses tag.start).map (reach tag.start)) := by
  obtain ⟨opener, children⟩ := l
  cases opener with
  | element => exact absurd h nofun
  | block =>
    obtain ⟨rfl, -, -⟩ := Context.block.inj h
    rfl
  | clause =>
    obtain ⟨rfl, -, -⟩ := Context.block.inj h
    rfl

/-- …and a clause begins behind them. -/
theorem beginClause_eq (h : l.opener.context = .block kind first names) (name : String)
    (header : Span) :
    l.beginClause name header = ⟨.clause kind (l.headSection header.start)
      (l.clauses header.start).reverse name header, []⟩ := by
  obtain ⟨opener, children⟩ := l
  cases opener with
  | element => exact absurd h nofun
  | block =>
    obtain ⟨rfl, -, -⟩ := Context.block.inj h
    rfl
  | clause =>
    obtain ⟨rfl, -, -⟩ := Context.block.inj h
    rw [clauses, List.reverse_reverse]
    rfl

/-- The clauses have the names that the next one has to know. -/
theorem names_clauses (h : l.opener.context = .block kind first names) (stop : Nat) :
    (l.clauses stop).reverse.map Prod.fst = names := by
  obtain ⟨opener, children⟩ := l
  cases opener with
  | element => exact absurd h nofun
  | block =>
    obtain ⟨-, -, rfl⟩ := Context.block.inj h
    rfl
  | clause =>
    obtain ⟨-, -, rfl⟩ := Context.block.inj h
    rw [clauses, List.reverse_reverse]
    rfl

/-- A clause begins, has its header and its children as before, as far as it may reach. -/
theorem reach_eq (closing : Nat) (clause : String × Section Tree) :
    (reach closing clause).1 = clause.1 ∧
      (reach closing clause).2.span.start = clause.2.span.start ∧
        (reach closing clause).2.headerEnd = clause.2.headerEnd ∧
          (reach closing clause).2.children = clause.2.children := by
  by_cases h : clause.1 = "elseif" <;> simp [h, reach, extend]

/-- **Sections of which some reach further** follow each other as before… -/
theorem consecutive_reach {head : Section Tree} {clauses : List (String × Section Tree)}
    (row : Consecutive head.span.start mid (head :: clauses.map Prod.snd)) (closing stop : Nat) :
    Consecutive (extend stop head).span.start mid
      (extend stop head :: (clauses.map (reach closing)).map Prod.snd) := by
  obtain ⟨hfirst, hheader, next, htiled, hrest⟩ := row
  refine ⟨rfl, hheader, next, htiled, ?_⟩
  rw [List.map_map]
  refine (Consecutive.map_congr (fun c _ => (reach_eq closing c).2.1)
    (fun c _ => (reach_eq closing c).2.2.1) fun c _ a b => ?_).2 hrest
  rw [(reach_eq closing c).2.2.2]

/-- …and have the children that they had. -/
theorem forall_reach {p : Tree → Prop} {head : Section Tree}
    {clauses : List (String × Section Tree)}
    (inside : ∀ s ∈ head :: clauses.map Prod.snd, ∀ t ∈ s.children, p t) (closing stop : Nat) :
    ∀ s ∈ extend stop head :: (clauses.map (reach closing)).map Prod.snd,
      ∀ t ∈ s.children, p t := by
  rw [List.forall_mem_cons] at inside ⊢
  refine ⟨inside.1, ?_⟩
  intro s hs t ht
  rw [List.map_map] at hs
  obtain ⟨c, hc, rfl⟩ := List.mem_map.1 hs
  rw [Function.comp_apply, (reach_eq closing c).2.2.2] at ht
  exact inside.2 c.2 (List.mem_map_of_mem hc) t ht

/-! ## Levels that cover a range -/

/-- The header of a level is not empty, so neither is what the level covers. -/
theorem Covers.lt (h : l.Covers source start stop) : start < stop := by
  have hheader := Nat.lt_of_lt_of_le h.header h.inside.tiled.le
  obtain ⟨opener, children⟩ := l
  cases h.before with
  | element hstart => exact hstart ▸ hheader
  | block hstart => exact hstart ▸ hheader
  | clause _ row => exact Nat.lt_of_le_of_lt row.le hheader

/-- The section at hand covers what its header and its children do, wherever it is said to end. -/
theorem Covers.consecutive (h : l.Covers source start mid) (stop : Nat) :
    Consecutive l.opener.header.start mid [l.toSection stop] :=
  ⟨rfl, h.header, mid, h.inside.tiled, rfl⟩

/-- …and its children are well-formed. -/
theorem Covers.wellFormed (h : l.Covers source start mid) (stop : Nat) :
    ∀ t ∈ (l.toSection stop).children, t.WellFormed source :=
  h.inside.all

/-- **The sections of a block that is open** follow each other up to the end of the section at hand,
their children are well-formed, and their headers are written. -/
theorem Covers.sections (h : l.Covers source start mid)
    (hcontext : l.opener.context = .block kind first names) (stop : Nat) :
    kind.OpensAt source ⟨(l.headSection stop).span.start, (l.headSection stop).headerEnd⟩ ∧
      Consecutive start mid (l.headSection stop :: (l.clauses stop).map Prod.snd) ∧
        (∀ s ∈ l.headSection stop :: (l.clauses stop).map Prod.snd, ∀ t ∈ s.children,
          t.WellFormed source) ∧ kind.Written source (l.clauses stop).reverse := by
  have hlast := h.consecutive stop
  have hgood := h.wellFormed stop
  obtain ⟨opener, children⟩ := l
  cases h.before with
  | element => simp [Opener.context] at hcontext
  | block hstart opens =>
    cases hcontext
    subst hstart
    exact ⟨opens, hlast, List.forall_mem_singleton.2 hgood, .nil⟩
  | clause opens row inside written continues =>
    cases hcontext
    rw [clauses_clause, List.map_append, ← List.cons_append, List.forall_mem_append,
      List.reverse_append, List.reverse_reverse]
    exact ⟨opens, Consecutive.append_iff.2 ⟨_, row, hlast⟩,
      ⟨inside, List.forall_mem_singleton.2 hgood⟩, .cons written continues⟩

/-- **A clause goes on** from where the section at hand ends. -/
theorem Covers.beginClause (h : l.Covers source start mid)
    (hcontext : l.opener.context = .block kind first names) {name : String}
    (hcontinues : kind.ContinuesAt source names name ⟨mid, stop⟩) (hlt : mid < stop) :
    (l.beginClause name ⟨mid, stop⟩).Covers source start stop := by
  obtain ⟨hopens, hrow, hinside, hwritten⟩ := h.sections hcontext mid
  rw [← names_clauses hcontext mid] at hcontinues
  rw [beginClause_eq hcontext]
  rw [← List.reverse_reverse (l.clauses mid)] at hrow hinside
  exact ⟨.clause hopens hrow hinside hwritten hcontinues, hlt, Forest.nil _⟩

/-- The tree that a level becomes covers it and the closing tag. -/
theorem Covers.span_close (h : l.Covers source start mid) :
    (l.close ⟨mid, stop⟩).span = ⟨start, stop⟩ := by
  obtain ⟨opener, children⟩ := l
  cases h.before with
  | element hstart =>
    subst hstart
    rfl
  | block hstart =>
    subst hstart
    rfl
  | clause _ row =>
    obtain ⟨hstart, -⟩ := row
    subst hstart
    rfl

/-- **A block is closed by its own tag**… -/
theorem Covers.wellFormed_close_block (h : l.Covers source start mid) (hlt : mid < stop)
    (hcontext : l.opener.context = .block kind first names)
    (hcloses : kind.ClosesAt source ⟨mid, stop⟩) :
    (l.close ⟨mid, stop⟩).WellFormed source := by
  obtain ⟨hopens, hrow, hinside, hwritten⟩ := h.sections hcontext mid
  obtain rfl := hrow.1
  rw [close_eq hcontext]
  refine .block hopens (consecutive_reach hrow mid stop) (forall_reach hinside mid stop) ?_ hlt
    hcloses
  rw [← List.map_reverse]
  refine hwritten.map fun c _ => ?_
  obtain ⟨hname, hstart, hend, -⟩ := reach_eq mid c
  exact ⟨hname, hstart, hend⟩

/-- …so **what is closed is well-formed**. -/
theorem Covers.wellFormed_close (h : l.Covers source start mid) (hlt : mid < stop)
    (hcloses : ∀ kind first names, l.opener.context = .block kind first names →
      kind.ClosesAt source ⟨mid, stop⟩) : (l.close ⟨mid, stop⟩).WellFormed source := by
  cases hcontext : l.opener.context with
  | block kind first names =>
    exact h.wellFormed_close_block hlt hcontext (hcloses _ _ _ hcontext)
  | _ =>
    obtain ⟨opener, children⟩ := l
    cases h.before with
    | element hstart written nonvoid =>
      exact .element h.header written (by simp [nonvoid]) (by simp) h.inside.tiled h.inside.all
        ⟨rfl, hlt⟩
    | _ => cases hcontext

end Level

namespace Growth

variable {source : List Char} {g : Growth} {config : Config} {mid stop : Nat}

/-- **A growth that covers the text up to a place.** -/
def Covers (source : List Char) (g : Growth) (stop : Nat) : Prop :=
  Stacked source g.roots g.stack stop

/-- **A finished tree that begins there goes on.** -/
theorem Covers.add (h : g.Covers source mid) {t : Tree} (hspan : t.span = ⟨mid, stop⟩)
    (hlt : mid < stop) (ht : t.WellFormed source) : (g.add t).Covers source stop := by
  obtain ⟨offset, roots, stack⟩ := g
  cases h with
  | nil finished =>
    have hroots := finished.concat hspan hlt ht
    rw [← List.reverse_cons] at hroots
    exact Stacked.nil hroots
  | cons before level =>
    have hchildren := level.inside.concat hspan hlt ht
    rw [← List.reverse_cons] at hchildren
    exact Stacked.cons before ⟨level.before, level.header, hchildren⟩

/-- **An element or a block is opened.** -/
theorem Covers.enter (h : g.Covers source mid) {opener : Opener}
    (hopener : opener.Begins source mid) (hheader : opener.header = ⟨mid, stop⟩)
    (hlt : mid < stop) : (g.enter opener).Covers source stop := by
  refine Stacked.cons h ⟨hopener, ?_, ?_⟩
  · rwa [hheader]
  · rw [hheader]
    exact Forest.nil _

/-- **A clause that the innermost block admits is begun.** -/
theorem Covers.beginClause (h : g.Covers source mid) {kind : Block} {first : Nat}
    {names : List String} {name : String} (hcontext : g.context = .block kind first names)
    (hcontinues : kind.ContinuesAt source names name ⟨mid, stop⟩) (hlt : mid < stop) :
    (g.beginClause name ⟨mid, stop⟩).Covers source stop := by
  obtain ⟨offset, roots, stack⟩ := g
  cases h with
  | nil => simp [context] at hcontext
  | cons before level =>
    exact Stacked.cons before (level.beginClause hcontext hcontinues hlt)

/-- **What is open innermost is closed.** -/
theorem Covers.closeTop (h : g.Covers source mid) (hopen : g.context ≠ .top) (hlt : mid < stop)
    (hcloses : ∀ kind first names, g.context = .block kind first names →
      kind.ClosesAt source ⟨mid, stop⟩) : (g.closeTop ⟨mid, stop⟩).Covers source stop := by
  obtain ⟨offset, roots, stack⟩ := g
  cases h with
  | nil => exact absurd rfl hopen
  | @cons l outer start _ before level =>
    have houter : Covers source { offset, roots, stack := outer } start := before
    exact houter.add level.span_close (Nat.lt_trans level.lt hlt)
      (level.wellFormed_close hlt hcloses)

/-- **An element with opaque content** has it as its only child. -/
theorem wellFormed_rawElement {offset : Nat} {name : String} {startTag content endTag : List Char}
    (hstart : IsStartTag startTag name false) (hvoid : isVoidName name = false) (hend : endTag ≠ [])
    (hslice : Text.slice? offset (offset + Text.byteSize startTag) source = some startTag) :
    (rawElement offset name startTag content endTag).WellFormed source := by
  have hlt := Nat.lt_add_of_pos_right (n := offset) (Text.byteSize_pos hstart.ne_nil)
  have hinside : Forest (Tree.WellFormed source) (offset + Text.byteSize startTag)
      (offset + Text.byteSize startTag + Text.byteSize content) _ :=
    Forest.ofText rfl (Tree.WellFormed.text _)
  exact Tree.WellFormed.element hlt ⟨startTag, hslice, hstart⟩ (by simp [hvoid]) (by simp)
    hinside.tiled hinside.all ⟨rfl, Nat.lt_add_of_pos_right (Text.byteSize_pos hend)⟩

/-- **Growing by a lexeme that fits goes on by its text.** -/
theorem covers_step {lexeme : Lexeme} {rest : List Char} (h : g.Covers source g.offset)
    (hfits : lexeme.Fits g.context)
    (hrest : Text.dropBytes? g.offset source = some (lexeme.raw ++ rest)) :
    (g.step lexeme).Covers source (g.offset + Text.byteSize lexeme.raw) := by
  have hlt : g.offset < g.offset + Text.byteSize lexeme.raw :=
    Nat.lt_add_of_pos_right (Text.byteSize_pos hfits.raw_ne_nil)
  have hslice := Text.slice?_of_dropBytes? hrest
  cases lexeme with
  | text raw => exact h.add rfl hlt (Tree.WellFormed.text _)
  | comment raw => exact h.add rfl hlt (Tree.WellFormed.comment ⟨raw, hslice, hfits⟩)
  | mustache raw => exact h.add rfl hlt (Tree.WellFormed.mustache ⟨raw, hslice, hfits⟩)
  | special tag raw =>
    obtain ⟨header, htag, hword⟩ := hfits
    exact h.add rfl hlt (Tree.WellFormed.special ⟨header, ⟨raw, hslice, htag⟩, hword⟩)
  | closedTag name raw =>
    obtain ⟨selfClosing, htag, hclosed⟩ := hfits
    exact h.add rfl hlt (Tree.WellFormed.element hlt ⟨raw, hslice, htag⟩ (by simp [hclosed])
      (fun _ => rfl) rfl (by simp) rfl)
  | openTag name raw =>
    obtain ⟨htag, hvoid⟩ := hfits
    exact h.enter (Opener.Begins.element rfl ⟨raw, hslice, htag⟩ hvoid) rfl hlt
  | rawElement name startTag content endTag =>
    obtain ⟨htag, hvoid, hend⟩ := hfits
    rw [Lexeme.raw, List.append_assoc, List.append_assoc] at hrest
    refine h.add ?_ hlt (wellFormed_rawElement htag hvoid hend (Text.slice?_of_dropBytes? hrest))
    rw [Lexeme.raw, Text.byteSize_append, Text.byteSize_append, ← Nat.add_assoc, ← Nat.add_assoc]
    rfl
  | openBlock kind raw =>
    obtain ⟨header, htag, hkind⟩ := hfits
    exact h.enter (Opener.Begins.block rfl ⟨header, ⟨raw, hslice, htag⟩, hkind⟩) rfl hlt
  | clause name raw =>
    obtain ⟨kind, first, names, header, hcontext, htag, hadmits, hnamed⟩ := hfits
    exact h.beginClause hcontext ⟨header, ⟨raw, hslice, htag⟩, hadmits, hnamed⟩ hlt
  | closer raw =>
    obtain ⟨-, hopen, hcloses⟩ := hfits
    refine h.closeTop hopen hlt fun kind first names hcontext => ?_
    obtain ⟨word, htag, hword⟩ := hcloses kind first names hcontext
    exact ⟨word, ⟨raw, hslice, htag⟩, hword⟩

/-- **At the end of the text nothing may be open**, and the roots cover it. -/
theorem Covers.finish (h : g.Covers source stop) {trees : List Tree}
    (hfinish : g.finish = .ok trees) : Forest (Tree.WellFormed source) 0 stop trees := by
  obtain ⟨offset, roots, stack⟩ := g
  cases h with
  | nil finished =>
    cases hfinish
    exact finished
  | cons => exact absurd hfinish (by simp [Growth.finish])

/-- **What a text goes on with is covered, too.** -/
theorem covers_of_next {cs rest : List Char} {lexeme : Lexeme} (h : g.Covers source g.offset)
    (hne : cs ≠ []) (hrest : Text.dropBytes? g.offset source = some cs)
    (hnext : Lexeme.next config g.context g.offset cs = .ok (lexeme, rest)) :
    (g.step lexeme).Covers source (g.step lexeme).offset := by
  rw [← (Lexeme.append_of_next hnext).1] at hrest
  exact covers_step h (Lexeme.fits_of_next hnext hne) hrest

/-- A text that is not empty grows by its first lexeme, then by the rest. -/
theorem run_cons_eq_ok {c : Char} {cs : List Char} {trees : List Tree}
    (h : run config g (c :: cs) = .ok trees) :
    ∃ lexeme rest, Lexeme.next config g.context g.offset (c :: cs) = .ok (lexeme, rest) ∧
      run config (g.step lexeme) rest = .ok trees := by
  rw [run] at h
  split at h
  · simp at h
  · next lexeme rest hnext => exact ⟨lexeme, rest, hnext, h⟩

/-- **What every lexeme keeps, a whole text keeps**: it still holds where the text has been read to
its end, or where no lexeme follows… -/
theorem exists_of_run (inv : Growth → Prop)
    (hstep : ∀ g cs lexeme rest, inv g → cs ≠ [] → Text.dropBytes? g.offset source = some cs →
      Lexeme.next config g.context g.offset cs = .ok (lexeme, rest) → inv (g.step lexeme))
    {cs : List Char} (h : inv g) (hrest : Text.dropBytes? g.offset source = some cs) :
    ∃ last unread, inv last ∧ Text.dropBytes? last.offset source = some unread ∧
      (unread = [] ∧ run config g cs = last.finish ∨
        ∃ r, Lexeme.next config last.context last.offset unread = .error r ∧
          run config g cs = .error r) := by
  induction hlength : cs.length using Nat.strongRecOn generalizing g cs with
  | ind n ih =>
    subst hlength
    cases cs with
    | nil =>
      rw [run]
      exact ⟨g, [], h, hrest, Or.inl ⟨rfl, rfl⟩⟩
    | cons c cs =>
      have hne := List.cons_ne_nil c cs
      rw [run]
      split
      · next r hnext => exact ⟨g, c :: cs, h, hrest, Or.inr ⟨r, hnext, rfl⟩⟩
      · next lexeme rest hnext =>
        have hlt := Lexeme.length_lt_of_next hnext hne
        have hgrown := hstep g _ lexeme rest h hne hrest hnext
        rw [← (Lexeme.append_of_next hnext).1] at hrest
        exact ih rest.length hlt hgrown (Text.dropBytes?_of_append hrest) rfl

end Growth

/-- …so where a template has been read, it holds at its end. -/
theorem Tree.exists_of_ofText {config : Config} {text : List Char} (inv : Growth → Prop)
    (hstep : ∀ g cs lexeme rest, inv g → cs ≠ [] → Text.dropBytes? g.offset text = some cs →
      Lexeme.next config g.context g.offset cs = .ok (lexeme, rest) → inv (g.step lexeme))
    (hstart : inv {}) {trees : List Tree} (h : Tree.ofText config text = .ok trees) :
    ∃ last, inv last ∧ last.offset = Text.byteSize text ∧ last.finish = .ok trees := by
  have hall : Text.dropBytes? 0 text = some text := Text.dropBytes?_eq_some_iff.2 ⟨[], rfl, rfl⟩
  obtain ⟨last, unread, hlast, hends, ⟨rfl, hfinish⟩ | ⟨r, -, hrefused⟩⟩ :=
    Growth.exists_of_run inv hstep hstart hall
  · obtain ⟨before, rfl, hsize⟩ := Text.dropBytes?_eq_some_iff.1 hends
    refine ⟨last, hlast, ?_, hfinish.symm.trans h⟩
    rw [List.append_nil, hsize]
  · cases hrefused.symm.trans h

/-- **The trees of a template cover it.** -/
theorem Tree.forest_of_ofText {config : Config} {text : List Char} {trees : List Tree}
    (h : Tree.ofText config text = .ok trees) :
    Forest (Tree.WellFormed text) 0 (Text.byteSize text) trees := by
  have hstart : Growth.Covers text {} 0 := Stacked.nil (Forest.nil 0)
  obtain ⟨last, hcovers, hoffset, hfinish⟩ := exists_of_ofText (fun g => g.Covers text g.offset)
    (fun _ _ _ _ => Growth.covers_of_next) hstart h
  exact hoffset ▸ hcovers.finish hfinish

end Markup.Svelte
