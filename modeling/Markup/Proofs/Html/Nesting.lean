import Markup.Proofs.Html.EndTag
import Markup.Proofs.Html.Filling

/-!
# Proofs/Html/Nesting — the rules that elements nest by

`Lawful` says what an element may hold and which end tag may close it.  An element is added to what
it stands in **only when it is closed**, after any number of lexemes, so the rules are kept along
the stack: what is finished fits in all that is open around it (`Fits`, `Growth.Abides`).  An end
tag closes the innermost element of its name, for what it finds left open at the end of that element
has been closed on the way (`Growth.LeavesOpen.closeMany`) and has another name.
`Growth.Abides.step` is the step, and `lawful_of_within` the rule for every element of a text.
-/

namespace Markup.Html

/-! ## The rules -/

/-- The name of a tree that is an element. -/
def Tree.name? : Tree → Option String
  | .element name .. => some name
  | _ => none

/-- **An element that is left open**: it has no end tag, is not void, and does not close itself. -/
def Tree.LeftOpen (source : List Char) (t : Tree) : Prop := (t.lacked? source).isSome = true

/-- **A tree on the path of last trees** of a row, where each one above it is as `p` says. -/
inductive Latest (p : Tree → Prop) : List Tree → Tree → Prop
  | last {trees : List Tree} {t : Tree} (last : trees.getLast? = some t) : Latest p trees t
  | inside {trees : List Tree} {t u : Tree} (last : trees.getLast? = some t) (through : p t)
      (inner : Latest p t.children u) : Latest p trees u

/-- A range of the text is an end tag, but not one for elements of this name. -/
def StraysFrom (source : List Char) (span : Span) (name : String) : Prop :=
  ∃ raw, Text.slice? span.start span.stop source = some raw ∧
    config.namesMatch name (String.ofList (endTagName raw)) = false

/-- **A range of the text is the end tag of an element that holds these trees**: it is for the name
of the element, and for nothing that is left open in it there. -/
def ClosesInnermost (source : List Char) (name : String) (children : List Tree) (span : Span) :
    Prop :=
  ∃ raw, Text.slice? span.start span.stop source = some raw ∧
    config.namesMatch name (String.ofList (endTagName raw)) = true ∧
      ∀ u, Latest (Tree.LeftOpen source) children u → u.LeftOpen source → ∀ inner ∈ u.name?,
        config.namesMatch inner (String.ofList (endTagName raw)) = false

/-- **The rules for an element**, its children and its end tag. -/
structure Lawful (source : List Char) (name : String) (endTag : Option Span)
    (children : List Tree) : Prop where
  /-- No child is one whose start tag ends the element. -/
  allows : ∀ t ∈ children, ∀ child ∈ t.name?, lowerName child ∉ (TagRule.ofName name).closedBy
  /-- A void element is empty. -/
  void : (TagRule.ofName name).isVoid = true → children = []
  /-- Opaque content is a text, or nothing. -/
  content : lowerName name ∈ opaqueNames →
    children = [] ∨ ∃ span, children = [.leaf .text span]
  /-- An end tag for the element is no stray in it. -/
  strays : ∀ span, Within children (.stray span) → StraysFrom source span name
  /-- The end tag closes the innermost element of its name. -/
  ended : lowerName name ∉ opaqueNames → ∀ span ∈ endTag,
    ClosesInnermost source name children span

/-- A tree that keeps the rules, if it is an element. -/
def Tree.Lawful (source : List Char) : Tree → Prop
  | .element name _ _ endTag children => Html.Lawful source name endTag children
  | _ => True

/-! ## Trees and paths -/

section

variable {p : Tree → Prop} {trees : List Tree} {t u : Tree}

/-- What holds of all trees of a row, inside and out, holds of each. -/
theorem Within.every (h : Within trees t) (hall : ∀ t ∈ trees, t.Every p) : t.Every p := by
  induction h with
  | root mem => exact hall _ mem
  | inside outer mem ih =>
    obtain ⟨-, hinside⟩ := ih
    exact hinside _ mem

/-- A tree of a row is one of a member… -/
theorem Within.exists_mem (h : Within trees u) : ∃ t ∈ trees, Within [t] u := by
  induction h with
  | root mem => exact ⟨_, mem, .root List.mem_cons_self⟩
  | inside outer mem ih =>
    obtain ⟨t, ht, hwithin⟩ := ih
    exact ⟨t, ht, .inside hwithin mem⟩

/-- …that is, the member itself or one inside it. -/
theorem Within.eq_or_children (h : Within [t] u) : u = t ∨ Within t.children u := by
  induction h with
  | root mem => exact Or.inl (List.mem_singleton.1 mem)
  | inside outer mem ih =>
    obtain rfl | hinside := ih
    · exact Or.inr (.root mem)
    · exact Or.inr (.inside hinside mem)

theorem not_within_nil : ¬ Within [] u := by
  intro h
  obtain ⟨t, ht, -⟩ := h.exists_mem
  exact absurd ht List.not_mem_nil

/-- A path that begins in the last tree of a row ends there or goes on inside. -/
theorem Latest.eq_or_children (h : Latest p (trees ++ [t]) u) :
    u = t ∨ p t ∧ Latest p t.children u := by
  cases h with
  | last last =>
    rw [List.getLast?_concat] at last
    exact Or.inl (Option.some.inj last).symm
  | inside last through inner =>
    rw [List.getLast?_concat] at last
    obtain rfl := Option.some.inj last
    exact Or.inr ⟨through, inner⟩

end

/-- The rules of opaque names are those of opaque content. -/
theorem isRawText_iff {name : String} :
    (TagRule.ofName name).isRawText = true ↔ lowerName name ∈ opaqueNames := by
  refine ⟨lowerName_mem_of_isRawText, fun h => ?_⟩
  have hrules : ∀ kind ∈ opaqueNames, ((TagRule.rules.lookup kind).getD {}).isRawText = true := by
    decide +kernel
  exact hrules _ h

/-- An element whose start tag does not end another is not listed there. -/
theorem not_mem_closedBy {rule : TagRule} {child : String} (h : rule.isClosedBy child = false) :
    lowerName child ∉ rule.closedBy := by
  rw [TagRule.isClosedBy, Bool.or_eq_false_iff] at h
  exact fun hmem => Bool.eq_false_iff.1 h.2 (List.contains_iff_mem.2 hmem)

/-- **Names that an end tag is for have the same rule**, so what has opaque content has another. -/
theorem not_namesMatch_of_opaque {name inner word : String} (hname : lowerName name ∉ opaqueNames)
    (hmatch : config.namesMatch name word = true) (hinner : lowerName inner ∈ opaqueNames) :
    config.namesMatch inner word = false := by
  refine Bool.eq_false_iff.2 fun hsame => hname ?_
  have hequal : lowerName name = lowerName inner :=
    congrArg String.ofList ((beq_iff_eq.1 hmatch).trans (beq_iff_eq.1 hsame).symm)
  rwa [hequal]

/-! ## Growing -/

/-- **What is known of a lexeme** that stands at an offset of the text. -/
def Lexeme.Told (source : List Char) (offset : Nat) : Lexeme → Prop
  | .mark .. => True
  | .closedTag name raw => ¬ (Growth.closedElement offset name raw).LeftOpen source
  | .openTag name _ => HoldsMarkup opaqueNames name
  | .rawElement name .. => (TagRule.ofName name).isVoid ≠ true ∧ lowerName name ∈ opaqueNames
  | .endTag name raw => endTagName raw = name.toList ∧
      Text.slice? offset (offset + Text.byteSize raw) source = some raw

/-- **A finished tree may stand in open elements of these names**, innermost first. -/
structure Fits (source : List Char) (names : List String) (t : Tree) : Prop where
  lawful : t.Every (Tree.Lawful source)
  allowed : ∀ child ∈ t.name?, ∀ parent ∈ names.head?,
    (TagRule.ofName parent).isClosedBy child = false
  strays : ∀ span, Within [t] (.stray span) → ∀ name ∈ names, StraysFrom source span name

/-- **Open elements that keep the rules**, innermost first. -/
inductive Abiding (source : List Char) : List OpenElement → Prop
  | nil : Abiding source []
  | cons {e : OpenElement} {outer : List OpenElement} (around : Abiding source outer)
      (allowed : ∀ parent ∈ (outer.map OpenElement.name).head?,
        (TagRule.ofName parent).isClosedBy e.name = false)
      (holds : HoldsMarkup opaqueNames e.name)
      (inside : ∀ t ∈ e.children, Fits source (e.name :: outer.map OpenElement.name) t) :
      Abiding source (e :: outer)

section

variable {source : List Char}

/-- A leaf fits everywhere. -/
theorem fits_leaf (names : List String) (kind : Mark) (span : Span) :
    Fits source names (.leaf kind span) := by
  refine ⟨⟨trivial, by simp [Tree.children]⟩, by simp [Tree.name?], fun stray h => ?_⟩
  obtain heq | hinside := h.eq_or_children
  · cases heq
  · exact absurd hinside not_within_nil

/-- **A stray fits in what it is not for.** -/
theorem fits_stray {names : List String} {span : Span}
    (h : ∀ name ∈ names, StraysFrom source span name) : Fits source names (.stray span) := by
  refine ⟨⟨trivial, by simp [Tree.children]⟩, by simp [Tree.name?], fun other hother => ?_⟩
  obtain heq | hinside := hother.eq_or_children
  · cases heq
    exact h
  · exact absurd hinside not_within_nil

/-- **An element fits where its start tag ends nothing**, if it keeps the rules and holds what fits
in it and what is around it. -/
theorem fits_element {names : List String} {name : String} {span : Span} {startTagEnd : Nat}
    {endTag : Option Span} {children : List Tree} (here : Lawful source name endTag children)
    (hallowed : ∀ parent ∈ names.head?, (TagRule.ofName parent).isClosedBy name = false)
    (hinside : ∀ t ∈ children, Fits source (name :: names) t) :
    Fits source names (.element name span startTagEnd endTag children) := by
  refine ⟨⟨here, fun t ht => (hinside t ht).lawful⟩, ?_, fun stray h => ?_⟩
  · rintro child ⟨⟩
    exact hallowed
  · obtain heq | hstray := h.eq_or_children
    · cases heq
    · obtain ⟨t, ht, hwithin⟩ := hstray.exists_mem
      exact fun outer houter => (hinside t ht).strays stray hwithin outer
        (List.mem_cons_of_mem _ houter)

/-- **An open element may be closed**, by an end tag that closes it innermost or by none. -/
theorem Abiding.fits_close {e : OpenElement} {outer : List OpenElement} {endTag : Option Span}
    (h : Abiding source (e :: outer))
    (hended : ∀ span ∈ endTag, ClosesInnermost source e.name e.children.reverse span) :
    Fits source (outer.map OpenElement.name) (e.close endTag) := by
  cases h with
  | cons around allowed holds inside =>
    have hchildren : ∀ t ∈ e.children.reverse, Fits source (e.name :: outer.map _) t :=
      fun t ht => inside t (List.mem_reverse.1 ht)
    refine fits_element ⟨?_, ?_, ?_, ?_, fun _ => hended⟩ allowed hchildren
    · exact fun t ht child hchild =>
        not_mem_closedBy ((hchildren t ht).allowed child hchild e.name rfl)
    · exact fun hvoid => absurd hvoid (Bool.eq_false_iff.1 holds.not_void)
    · exact fun hraw => absurd hraw holds.not_opaque
    · intro span hstray
      obtain ⟨t, ht, hwithin⟩ := hstray.exists_mem
      exact (hchildren t ht).strays span hwithin e.name List.mem_cons_self

/-- **An element that is closed at once is empty.** -/
theorem fits_closedElement {names : List String} {name : String}
    (hallowed : ∀ parent ∈ names.head?, (TagRule.ofName parent).isClosedBy name = false)
    (offset : Nat) (raw : List Char) :
    Fits source names (Growth.closedElement offset name raw) :=
  fits_element ⟨by simp, fun _ => rfl, fun _ => Or.inl rfl,
    fun span h => absurd h not_within_nil, by simp⟩ hallowed (by simp)

/-- **Opaque content is a text.** -/
theorem fits_rawElement {names : List String} {name : String}
    (hallowed : ∀ parent ∈ names.head?, (TagRule.ofName parent).isClosedBy name = false)
    (hvoid : (TagRule.ofName name).isVoid ≠ true) (hraw : lowerName name ∈ opaqueNames)
    (offset : Nat) (startTag content : List Char) (endTag : Option (List Char)) :
    Fits source names (Growth.rawElement offset name startTag content endTag) := by
  have hfits : ∀ (outer : List String), ∀ t ∈ (Growth.rawElement offset name startTag content
      endTag).children, Fits source outer t := by
    intro outer t ht
    rw [Growth.rawElement, Tree.children] at ht
    split at ht
    · exact absurd ht List.not_mem_nil
    · obtain rfl := List.mem_singleton.1 ht
      exact fits_leaf outer _ _
  refine fits_element ⟨?_, fun h => absurd h hvoid, fun _ => ?_, ?_, fun h => absurd hraw h⟩
    hallowed (hfits _)
  · exact fun t ht child hchild => not_mem_closedBy ((hfits [name] t ht).allowed child hchild _ rfl)
  · split
    · exact Or.inl rfl
    · exact Or.inr ⟨_, rfl⟩
  · intro span hstray
    obtain ⟨t, ht, hwithin⟩ := hstray.exists_mem
    exact (hfits [name] t ht).strays span hwithin name List.mem_cons_self

/-- Opaque content is no element. -/
theorem name?_of_latest_rawElement {p : Tree → Prop} {offset : Nat} {name : String}
    {startTag content : List Char} {endTag : Option (List Char)} {u : Tree}
    (h : Latest p (Growth.rawElement offset name startTag content endTag).children u) :
    u.name? = none := by
  cases content with
  | nil =>
    cases h with
    | last last | inside last => cases last
  | cons c content =>
    have hlast : Latest p ([] ++ [_]) u := h
    obtain rfl | ⟨-, hinside⟩ := hlast.eq_or_children
    · rfl
    · cases hinside with
      | last last | inside last => cases last

end

namespace Growth

variable {source : List Char} {g : Growth} {t : Tree}

/-- **All that is finished and all that is open keep the rules.** -/
structure Abides (source : List Char) (g : Growth) : Prop where
  roots : ∀ t ∈ g.roots, Fits source [] t
  opened : Abiding source g.stack

/-- What is finished right inside the innermost open element, or the roots. -/
def current (g : Growth) : List Tree :=
  match g.stack with
  | [] => g.roots.reverse
  | e :: _ => e.children.reverse

/-- **What is left open at the end of it** has one of these names, or opaque content. -/
def LeavesOpen (source : List Char) (g : Growth) (names : List String) : Prop :=
  ∀ u, Latest (Tree.LeftOpen source) g.current u → u.LeftOpen source →
    ∀ name ∈ u.name?, name ∈ names ∨ lowerName name ∈ opaqueNames

theorem current_add (g : Growth) (t : Tree) : (g.add t).current = g.current ++ [t] := by
  obtain ⟨offset, roots, stack⟩ := g
  cases stack <;> exact List.reverse_cons

theorem Abides.add (h : g.Abides source) (ht : Fits source g.names t) :
    (g.add t).Abides source := by
  obtain ⟨offset, roots, stack⟩ := g
  obtain ⟨hroots, hopened⟩ := h
  cases hopened with
  | nil => exact ⟨List.forall_mem_cons.2 ⟨ht, hroots⟩, .nil⟩
  | cons around allowed holds inside =>
    exact ⟨hroots, .cons around allowed holds (List.forall_mem_cons.2 ⟨ht, inside⟩)⟩

/-- **The innermost element is closed**, by an end tag that closes it innermost or by none. -/
theorem Abides.closeTop (h : g.Abides source) {endTag : Option Span}
    (hended : ∀ span ∈ endTag, ∀ name ∈ g.top?, ClosesInnermost source name g.current span) :
    (g.closeTop endTag).Abides source := by
  obtain ⟨offset, roots, stack⟩ := g
  cases stack with
  | nil => exact h
  | cons e outer =>
    obtain ⟨hroots, hopened⟩ := h
    have hfits := hopened.fits_close fun span hspan => hended span hspan e.name rfl
    cases hopened with
    | cons around => exact Abides.add (g := ⟨offset, roots, outer⟩) ⟨hroots, around⟩ hfits

/-- What is open holds markup. -/
theorem Abides.not_mem_of_top? (h : g.Abides source) {name : String} (htop : g.top? = some name) :
    lowerName name ∉ opaqueNames := by
  obtain ⟨offset, roots, stack⟩ := g
  obtain ⟨-, hopened⟩ := h
  cases hopened with
  | nil => cases htop
  | cons around allowed holds =>
    obtain rfl := Option.some.inj htop
    exact holds.not_opaque

theorem Abides.closeMany (n : Nat) (h : g.Abides source) : (closeMany n g).Abides source :=
  closeMany_keeps (fun h => h.closeTop (by simp)) n h

/-- **Behind what a start tag closes stands nothing that it closes.** -/
theorem not_isClosedBy_imply (g : Growth) (name : String) :
    ∀ parent ∈ (g.imply name).names.head?, (TagRule.ofName parent).isClosedBy name = false := by
  intro parent hparent
  have hnone : ((g.imply name).names.takeWhile fun inner =>
      (TagRule.ofName inner).isClosedBy name).length = 0 := by
    rw [imply_eq_closeMany, names_eq_drop]
    exact length_takeWhile_drop_takeWhile _ g.names
  obtain ⟨others, hnames⟩ := List.head?_eq_some_iff.1 hparent
  rw [hnames] at hnone
  refine Bool.eq_false_iff.2 fun hclosed => ?_
  rw [List.takeWhile_cons_of_pos (by exact hclosed)] at hnone
  exact Nat.succ_ne_zero _ hnone

/-! ### What is left open -/

/-- Nothing is left open behind a tree that is not left open itself, or has opaque content. -/
theorem leavesOpen_add {names : List String}
    (hself : t.LeftOpen source → ∀ name ∈ t.name?, name ∈ names ∨ lowerName name ∈ opaqueNames)
    (hinside : t.LeftOpen source → ∀ u, Latest (Tree.LeftOpen source) t.children u →
      u.LeftOpen source → ∀ name ∈ u.name?, name ∈ names ∨ lowerName name ∈ opaqueNames) :
    (g.add t).LeavesOpen source names := by
  intro u hu hopen
  rw [current_add] at hu
  obtain rfl | ⟨hthrough, hinner⟩ := hu.eq_or_children
  · exact hself hopen
  · exact hinside hthrough u hinner hopen

/-- …so nothing is left open behind one that is not. -/
theorem leavesOpen_add_of_not (h : ¬ t.LeftOpen source) : (g.add t).LeavesOpen source [] :=
  leavesOpen_add (fun hopen => absurd hopen h) fun hopen => absurd hopen h

/-- An element that has its end tag is not left open. -/
theorem leavesOpen_closeTop_some (hopen : g.stack ≠ []) (endTag : Span) :
    (g.closeTop (some endTag)).LeavesOpen source [] := by
  obtain ⟨offset, roots, stack⟩ := g
  cases stack with
  | nil => exact absurd rfl hopen
  | cons e outer =>
    rw [closeTop_cons]
    exact leavesOpen_add_of_not Bool.false_ne_true

/-- **Elements that are closed without end tags are left open**, with what is left open in them. -/
theorem LeavesOpen.closeMany {n : Nat} {names : List String} (h : g.LeavesOpen source names) :
    (closeMany n g).LeavesOpen source (names ++ g.names.take n) := by
  induction n generalizing g names with
  | zero => rwa [List.take_zero, List.append_nil]
  | succ n ih =>
    obtain ⟨offset, roots, stack⟩ := g
    cases stack with
    | nil =>
      have hrest := ih (g := ⟨offset, roots, []⟩) h
      rwa [Growth.names, List.map_nil, List.take_nil] at hrest ⊢
    | cons e outer =>
      have hclosed : (Growth.closeTop ⟨offset, roots, e :: outer⟩ none).LeavesOpen source
          (names ++ [e.name]) := by
        rw [closeTop_cons]
        refine leavesOpen_add ?_ fun _ u hu hopen name hname =>
          (h u hu hopen name hname).imp_left (List.mem_append_left _)
        rintro - name ⟨⟩
        exact Or.inl (List.mem_append_right _ List.mem_cons_self)
      have hnames := names_closeTop ⟨offset, roots, e :: outer⟩ none
      have hrest := ih hclosed
      rw [Growth.names, hnames, List.append_assoc] at hrest
      exact hrest

/-! ### The step -/

/-- **An end tag closes the innermost element of its name**, or is a stray in what is open. -/
theorem Abides.closeNamed (h : g.Abides source) (hleft : g.LeavesOpen source []) {raw : List Char}
    {span : Span} (hslice : Text.slice? span.start span.stop source = some raw) :
    (g.closeNamed config (String.ofList (endTagName raw)) span).Abides source ∧
      (g.closeNamed config (String.ofList (endTagName raw)) span).LeavesOpen source [] := by
  cases hfind : g.names.findIdx? (config.namesMatch · (String.ofList (endTagName raw))) with
  | none =>
    have hstray : ∀ name ∈ g.names, StraysFrom source span name := fun name hname =>
      ⟨raw, hslice, List.findIdx?_eq_none_iff.1 hfind name hname⟩
    rw [closeNamed_of_none hfind]
    exact ⟨h.add (fits_stray hstray), leavesOpen_add_of_not Bool.false_ne_true⟩
  | some n =>
    obtain ⟨hbound, -, hbefore⟩ := List.findIdx?_eq_some_iff_getElem.1 hfind
    obtain ⟨first, htop, hmatch⟩ := top?_closeMany hfind
    have hmarkup : lowerName first ∉ opaqueNames := (h.closeMany n).not_mem_of_top? htop
    have hcloses : ClosesInnermost source first (Growth.closeMany n g).current span := by
      refine ⟨raw, hslice, hmatch, fun u hu hopen inner hinner => ?_⟩
      obtain hclosed | hraw := hleft.closeMany u hu hopen inner hinner
      · obtain ⟨i, hi, hget⟩ := List.mem_take_iff_getElem.1 hclosed
        exact hget ▸ Bool.eq_false_iff.2 (hbefore i (by omega))
      · exact not_namesMatch_of_opaque hmarkup hmatch hraw
    rw [closeNamed_of_some hfind]
    refine ⟨(h.closeMany n).closeTop ?_, leavesOpen_closeTop_some ?_ span⟩
    · rintro _ ⟨⟩ name hname
      obtain rfl := Option.some.inj (htop.symm.trans hname)
      exact hcloses
    · intro hnil
      rw [top?, hnil] at htop
      cases htop

/-- **Growing by a lexeme keeps the rules**, and leaves nothing open that is finished. -/
theorem Abides.step (h : g.Abides source) (hleft : g.LeavesOpen source []) {l : Lexeme}
    (hl : l.Told source g.offset) :
    (g.step config l).Abides source ∧ (g.step config l).LeavesOpen source [] := by
  have hupTo : ∀ {grown : Growth}, grown.Abides source ∧ grown.LeavesOpen source [] → ∀ offset,
      Growth.Abides source { grown with offset := offset } ∧
        Growth.LeavesOpen source { grown with offset := offset } [] :=
    fun h _ => ⟨⟨h.1.roots, h.1.opened⟩, h.2⟩
  have himply : ∀ name, (g.imply name).Abides source := fun _ => h.closeMany _
  cases l with
  | mark kind raw =>
    exact hupTo ⟨h.add (fits_leaf g.names kind _), leavesOpen_add_of_not Bool.false_ne_true⟩ _
  | closedTag name raw =>
    have hfits : Fits source (g.imply name).names (closedElement g.offset name raw) :=
      fits_closedElement (not_isClosedBy_imply g name) g.offset raw
    exact hupTo ⟨(himply name).add hfits, leavesOpen_add_of_not hl⟩ _
  | openTag name raw =>
    have hopened : ((g.imply name).enter name
        ⟨g.offset, g.offset + Text.byteSize raw⟩).Abides source :=
      ⟨(himply name).roots, .cons (himply name).opened (not_isClosedBy_imply g name) hl (by simp)⟩
    refine hupTo ⟨hopened, fun u hu => ?_⟩ _
    cases hu with
    | last last | inside last => cases last
  | rawElement name startTag content endTag =>
    obtain ⟨hvoid, hraw⟩ := hl
    have hfits : Fits source (g.imply name).names
        (Growth.rawElement g.offset name startTag content endTag) :=
      fits_rawElement (not_isClosedBy_imply g name) hvoid hraw g.offset startTag content endTag
    refine hupTo ⟨(himply name).add hfits, leavesOpen_add ?_ fun _ u hu hopen => ?_⟩ _
    · rintro - _ ⟨⟩
      exact Or.inr hraw
    · rw [name?_of_latest_rawElement hu]
      simp
  | endTag name raw =>
    obtain ⟨hname, hslice⟩ := hl
    obtain rfl : String.ofList (endTagName raw) = name := by rw [hname, String.ofList_toList]
    exact hupTo (h.closeNamed hleft hslice) _

end Growth

/-! ## Texts -/

/-- **The lexemes that a text begins with are told by what they are.** -/
theorem Lexeme.told_of_next {source cs rest : List Char} {l : Lexeme} {offset : Nat}
    (h : next config cs = .ok (l, rest)) (hne : cs ≠ [])
    (hrest : Text.dropBytes? offset source = some cs) : l.Told source offset := by
  have hproper := proper_of_next h hne
  rw [← (append_of_next h).1] at hrest
  cases l with
  | mark => trivial
  | closedTag name raw =>
    have hslice : Text.slice? offset (offset + Text.byteSize raw) source = some raw :=
      Text.slice?_of_dropBytes? hrest
    have hlacked := Growth.lacked?_closedElement hslice (closed_of_next h)
    intro hopen
    rw [Tree.LeftOpen, hlacked] at hopen
    cases hopen
  | openTag name raw =>
    obtain ⟨-, hopen⟩ := hproper
    refine ⟨Bool.eq_false_iff.2 fun hvoid => hopen (Or.inl hvoid), fun hraw => ?_⟩
    have hmarkup := markup_of_next h
    rw [rawTextEnd?, isRawText_iff.2 hraw] at hmarkup
    split at hmarkup <;> cases hmarkup
  | rawElement name startTag content closing =>
    obtain ⟨-, hopen, -⟩ := hproper
    obtain ⟨-, word, inner, hword, -⟩ := rawElement_of_next h
    exact ⟨fun hvoid => hopen (Or.inl hvoid), isRawText_iff.1 (closing_of_rawTextEnd? hword).1⟩
  | endTag name raw => exact ⟨endTagName_of_next h, Text.slice?_of_dropBytes? hrest⟩

/-- **All trees of a text keep the rules.** -/
theorem Tree.every_lawful {front : Bool} {source : List Char} {trees : List Tree}
    (h : Tree.ofText config front source = .ok trees) :
    ∀ t ∈ trees, t.Every (Tree.Lawful source) := by
  have hstart : Growth.Abides source {} := ⟨by simp, .nil⟩
  have hnothing : Growth.LeavesOpen source {} [] := by
    intro u hu
    cases hu with
    | last last | inside last => cases last
  obtain ⟨last, ⟨habides, -⟩, -, rfl⟩ := Tree.exists_of_ofText
    (fun g => g.Abides source ∧ g.LeavesOpen source [])
    (fun _ _ _ => hstart.step hnothing trivial)
    (fun _ _ _ _ hg hne hrest hnext => hg.1.step hg.2 (Lexeme.told_of_next hnext hne hrest))
    ⟨hstart, hnothing⟩ h
  exact fun t ht => ((habides.closeMany _).roots t (List.mem_reverse.1 ht)).lawful

/-- **Every element of the trees of a text keeps the rules**: none of its children is one that would
end it, it is empty if it is void and holds a text at most if its content is opaque, no end tag for
it is a stray in it, and its own end tag closes the innermost element of its name. -/
theorem lawful_of_within {front : Bool} {source : List Char} {trees : List Tree} {name : String}
    {span : Span} {startTagEnd : Nat} {endTag : Option Span} {children : List Tree}
    (h : Tree.ofText config front source = .ok trees)
    (helement : Within trees (.element name span startTagEnd endTag children)) :
    Lawful source name endTag children := by
  obtain ⟨hlawful, -⟩ := helement.every (Tree.every_lawful h)
  exact hlawful

/-- A list with a paragraph left open in an item that is left open, and an end tag that strays. -/
def unclosedList : List Char := "<ul><li>a<li><P>b<br></ul></p>".toList

/-- A closed element with one left open last in it, which holds a paragraph left open. -/
def leavesParagraphOpen : List Tree → Bool
  | [.element _ _ _ (some _) [_, .element name span stop none [inner]], _] =>
    (Tree.lacked? unclosedList (.element name span stop none [inner])).isSome &&
      inner.name? == some "P"
  | _ => false

theorem lawful_unclosedList : ∃ trees name span startTagEnd endTag children u,
    Tree.ofText config false unclosedList = .ok trees ∧
      Within trees (.element name span startTagEnd (some endTag) children) ∧
        Latest (Tree.LeftOpen unclosedList) children u ∧ u.name? = some "P" ∧
          Lawful unclosedList name (some endTag) children := by
  have hall : (Tree.ofText config false unclosedList).toOption.any leavesParagraphOpen = true := by
    decide +kernel
  obtain ⟨trees, htrees, htest⟩ := exists_of_any hall
  unfold leavesParagraphOpen at htest
  split at htest
  · next name span startTagEnd endTag first item itemSpan itemStop inner stray =>
    obtain ⟨hopen, hinner⟩ := Bool.and_eq_true_iff.1 htest
    have helement : Within [.element name span startTagEnd (some endTag)
        [first, .element item itemSpan itemStop none [inner]], stray] _ := .root List.mem_cons_self
    exact ⟨_, _, _, _, _, _, inner, htrees, helement, .inside rfl hopen (.last rfl),
      beq_iff_eq.1 hinner, lawful_of_within htrees helement⟩
  · cases htest

/-- A division in a span in a division. -/
def closedAround : List Char := "<div><span><div></span></div>".toList

/-- A closed element with another in it, in which one of the name of its end tag is left open. -/
def endsAroundItsName : List Tree → Bool
  | [.element name _ _ (some endTag) [.element _ _ _ _ [u]]] =>
    !opaqueNames.contains (lowerName name) && ((u.lacked? closedAround).isSome &&
      (Text.slice? endTag.start endTag.stop closedAround).any fun raw =>
        u.name?.any (config.namesMatch · (String.ofList (endTagName raw))))
  | _ => false

/-- **What another end tag has closed is not left open**, though it has no end tag of its own and
lies on the path of last trees: the inner division is closed by the end tag of the span, so that of
the outer one finds the outer one innermost. -/
theorem not_leftOpen_closedAround : ∃ trees name span startTagEnd endTag children raw u inner,
    Tree.ofText config false closedAround = .ok trees ∧
      Within trees (.element name span startTagEnd (some endTag) children) ∧
        lowerName name ∉ opaqueNames ∧
          Text.slice? endTag.start endTag.stop closedAround = some raw ∧
            Latest (fun _ => True) children u ∧ u.LeftOpen closedAround ∧ u.name? = some inner ∧
              config.namesMatch inner (String.ofList (endTagName raw)) = true := by
  have hall : (Tree.ofText config false closedAround).toOption.any endsAroundItsName = true := by
    decide +kernel
  obtain ⟨trees, htrees, htest⟩ := exists_of_any hall
  unfold endsAroundItsName at htest
  split at htest
  · next name span startTagEnd endTag middle middleSpan middleStop middleEnd u =>
    obtain ⟨hname, htest⟩ := Bool.and_eq_true_iff.1 htest
    obtain ⟨hopen, htest⟩ := Bool.and_eq_true_iff.1 htest
    obtain ⟨raw, hraw, htest⟩ := (Option.any_eq_true ..).1 htest
    obtain ⟨inner, hinner, hmatch⟩ := (Option.any_eq_true ..).1 htest
    exact ⟨_, name, _, _, endTag, _, raw, u, inner, htrees, .root List.mem_cons_self,
      by simpa using hname, hraw, .inside rfl trivial (.last rfl), hopen, hinner, hmatch⟩
  · cases htest

end Markup.Html
