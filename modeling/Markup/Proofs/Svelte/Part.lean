import Mathlib.Data.List.Forall2
import Markup.Proofs.Svelte.Dialect

/-!
# Proofs/Svelte/Part — the parts that a tree shows side by side

A tree of a template shows one part, and a block **one for its head, one for each clause and one for
its closing tag** (`Tree.parts`).  The parts of a block have the roles of its kind (`Block.Roles`)
and cover one tag each (`Tree.Tagged`), and a row that the tree becomes is the row of its parts
(`Tree.WellFormed.row_parts`).
-/

namespace Markup.Svelte

/-- **What one node of a document shows**: a kind of thing, its role if it is a block, the range
that it covers, and the trees inside it. -/
structure Part where
  kind : NodeKind
  role : Option String := none
  span : Span
  body : List Tree := []

/-- The part of a branch. -/
def Part.branch (role : String) (span : Span) (body : List Tree) : Part where
  kind := .block
  role := some role
  span := span
  body := body

namespace Block

/-- Where the last section of a block ends and its closing tag begins. -/
def contentEnd (head : Section Tree) (clauses : List (String × Section Tree)) : Nat :=
  ((head :: clauses.map Prod.snd).getLast (List.cons_ne_nil _ _)).bodyEnd

/-- The parts of a block's sections. -/
def sectionParts (kind : Block) (head : Section Tree) (clauses : List (String × Section Tree)) :
    List Part :=
  ((kind.headRole, head) :: clauses).map fun clause =>
    .branch clause.1 ⟨clause.2.span.start, clause.2.headerEnd⟩ clause.2.children

/-- The part of its closing tag. -/
def closingPart (kind : Block) (head : Section Tree) (clauses : List (String × Section Tree)) :
    Part :=
  .branch ("/" ++ kind.word) ⟨contentEnd head clauses, head.span.stop⟩ []

/-- **The roles of a block's parts**: its head, the clauses written, and its closing tag. -/
inductive Roles : Block → List String → Prop
  | cond (elseIfs : Nat) {last : List String} (h : last.Sublist ["else"]) :
      Roles .cond (["if"] ++ List.replicate elseIfs "elseif" ++ last ++ ["/if"])
  | each {clauses : List String} (h : clauses.Sublist ["else"]) :
      Roles .each (["each"] ++ clauses ++ ["/each"])
  | await {clauses : List String} (h : clauses.Sublist ["then", "catch"]) :
      Roles (.await none) (["await"] ++ clauses ++ ["/await"])
  | awaitThen {clauses : List String} (h : clauses.Sublist ["catch"]) :
      Roles (.await (some .fulfilled)) (["then"] ++ clauses ++ ["/await"])
  | awaitCatch : Roles (.await (some .rejected)) ["catch", "/await"]
  | key : Roles .key ["key", "/key"]
  | snippet : Roles .snippet ["snippet", "/snippet"]

end Block

namespace Tree

/-- **The parts that a tree shows**, side by side. -/
def parts : Tree → List Part
  | .text span => [{ kind := .text, span }]
  | .comment span => [{ kind := .comment, span }]
  | .mustache span => [.branch "MustacheTag" span []]
  | .strayClause span => [.branch "#block" span []]
  | .special tag content => [.branch tag.word content.span []]
  | .block kind head clauses => kind.sectionParts head clauses ++ [kind.closingPart head clauses]
  | .element _ span startTagEnd _ children =>
    [{ kind := .element, span := ⟨span.start, startTagEnd⟩, body := children }]

/-- **The tags of a block or special tag are written in the text**, and its parts have the roles of
its kind. -/
def Tagged (source : List Char) : Tree → Prop
  | .special tag content => tag.WrittenAt source content.span
  | .block kind head clauses =>
    kind.OpensAt source ⟨head.span.start, head.headerEnd⟩ ∧
      kind.Written source clauses.reverse ∧
      kind.ClosesAt source ⟨Block.contentEnd head clauses, head.span.stop⟩ ∧
      kind.Roles ((Tree.block kind head clauses).parts.filterMap Part.role)
  | _ => True

end Tree

namespace Block

variable {kind : Block} {names : List String}

/-- **Clauses that are admitted in order have the roles of their block.** -/
theorem roles_of_admitted (h : Admitted kind names.reverse)
    (horder : kind ≠ .cond → names.Sublist kind.phases.tail) :
    kind.Roles ([kind.headRole] ++ names ++ ["/" ++ kind.word]) := by
  match kind with
  | .cond =>
    rcases h.cond with hall | ⟨others, hnames, hall⟩
    · have hrow := Roles.cond names.length (List.nil_sublist _)
      rwa [← List.eq_replicate_of_mem fun name hname => hall name (List.mem_reverse.2 hname),
        List.append_nil] at hrow
    · rw [List.reverse_eq_iff, List.reverse_cons] at hnames
      have hrow := Roles.cond others.reverse.length (List.Sublist.refl ["else"])
      rw [← List.eq_replicate_of_mem fun name hname => hall name (List.mem_reverse.1 hname)] at hrow
      rwa [hnames, ← List.append_assoc]
  | .each => exact Roles.each (horder (by decide))
  | .await none => exact Roles.await (horder (by decide))
  | .await (some .fulfilled) => exact Roles.awaitThen (horder (by decide))
  | .await (some .rejected) =>
    obtain rfl := List.sublist_nil.1 (horder (by decide))
    exact Roles.awaitCatch
  | .key =>
    obtain rfl := List.sublist_nil.1 (horder (by decide))
    exact Roles.key
  | .snippet =>
    obtain rfl := List.sublist_nil.1 (horder (by decide))
    exact Roles.snippet

/-- The roles of a block's parts are its own and the names of its clauses. -/
theorem filterMap_role_parts (kind : Block) (head : Section Tree)
    (clauses : List (String × Section Tree)) :
    (Tree.block kind head clauses).parts.filterMap Part.role =
      [kind.headRole] ++ clauses.map Prod.fst ++ ["/" ++ kind.word] := by
  simp [Tree.parts, sectionParts, closingPart, Part.branch, List.filterMap_map]

end Block

/-- A tag is not empty. -/
theorem TagAt.lt {source : List Char} {span : Span} {inner : List Char}
    (h : TagAt source span inner) : span.start < span.stop := by
  obtain ⟨raw, hslice, htag⟩ := h
  obtain ⟨tail, rfl⟩ := htag.exists_cons
  obtain ⟨-, -, -, -, hstop⟩ := Text.slice?_eq_some_iff.1 hslice
  rw [← hstop]
  exact Nat.lt_add_of_pos_right (Text.byteSize_pos (List.cons_ne_nil _ _))

/-- **A part is what a blueprint says.** -/
inductive Part.Plans (source : Source) : Part → Blueprint → Prop
  | text (span : Span) : Plans source { kind := .text, span } (.leaf {} span .text)
  | comment (span : Span) : Plans source { kind := .comment, span } (.leaf {} span (.comment false))
  | branch (role : String) (span : Span) (body : List Tree) :
      Plans source (.branch role span body) (.block {} span role (blueprints source body))
  | element (span : Span) (body : List Tree) (endTag : Option Span) :
      Plans source { kind := .element, span, body }
        (.element {} span (blueprints source body) endTag)

variable {source : Source}

/-- The block of a planned section has the section's trees inside. -/
theorem ofSection_planned (role : String) (s : Section Tree) :
    Blueprint.ofSection role (plannedSection source s) =
      .block {} ⟨s.span.start, s.headerEnd⟩ role (blueprints source s.children) := by
  rw [Blueprint.ofSection, plannedSection_eq, blueprints_eq_map, Section.map, List.map_map]
  rfl

/-- **The blocks of planned sections are what the parts of the sections say.** -/
theorem plans_sectionParts (kind : Block) (head : Section Tree)
    (clauses : List (String × Section Tree)) :
    List.Forall₂ (Part.Plans source) (kind.sectionParts head clauses)
      ((plannedVisits source kind head clauses).map fun visit =>
        Blueprint.ofSection visit.1 visit.2) := by
  rw [Block.sectionParts, plannedVisits_eq_map, List.map_map, List.forall₂_map_left_iff,
    List.forall₂_map_right_iff, List.forall₂_same]
  intro clause _
  rw [Function.comp_apply, ofSection_planned]
  exact Part.Plans.branch ..

namespace Tree.WellFormed

variable {d : Dialect} {here : Position} {ns : Namespace} {start : Nat} {nodes : List Node}
  {tops : List NodeId} {t : Tree}

/-- **A tree that becomes a row has its tags written, and the row is that of its parts.** -/
theorem row_parts (h : t.WellFormed source.text)
    (hrow : Row d source here ns start [t.blueprint source] nodes tops) :
    t.Tagged source.text ∧ ∃ items, List.Forall₂ (Part.Plans source) t.parts items ∧
      Row d source here ns start items nodes tops := by
  cases h with
  | text span =>
    rw [blueprint] at hrow
    exact ⟨trivial, _, .cons (.text span) .nil, hrow⟩
  | @comment span =>
    rw [blueprint] at hrow
    exact ⟨trivial, _, .cons (.comment span) .nil, hrow⟩
  | @mustache span =>
    rw [blueprint, ← blueprints] at hrow
    exact ⟨trivial, _, .cons (.branch "MustacheTag" span []) .nil, hrow⟩
  | @special tag span written =>
    obtain ⟨header, htag, -⟩ := id written
    rcases blueprint_special htag.lt with heq | ⟨e, -, heq⟩
    · rw [heq, ← blueprints] at hrow
      exact ⟨written, _, .cons (.branch tag.word span []) .nil, hrow.of_group⟩
    · rw [heq] at hrow
      exact absurd hrow Row.ne_fault
  | @element name span startTagEnd _ endTag _ children =>
    rw [blueprint] at hrow
    exact ⟨trivial, _, .cons (.element ⟨span.start, startTagEnd⟩ children endTag) .nil,
      hrow.of_group⟩
  | @block kind head clauses content opens row inside written closes closer =>
    rcases blueprint_block row written closes closer with ⟨horder, heq⟩ | ⟨e, -, heq⟩
    · have hadmitted := written.admitted
      rw [List.map_reverse] at hadmitted
      obtain rfl : Block.contentEnd head clauses = content := row.bodyEnd_getLast _
      rw [heq, ← blueprints] at hrow
      refine ⟨⟨opens, written, closer, ?_⟩, _, ?_, hrow.of_group⟩
      · rw [Block.filterMap_role_parts]
        exact Block.roles_of_admitted hadmitted horder
      · exact List.rel_append (plans_sectionParts kind head clauses)
          (.cons (.branch ("/" ++ kind.word) _ []) .nil)
    · rw [heq] at hrow
      exact absurd hrow Row.ne_fault

/-- The trees inside the parts of a tree are well-formed. -/
theorem of_mem_parts {text : List Char} (h : t.WellFormed text) {part : Part}
    (hpart : part ∈ t.parts) : ∀ u ∈ part.body, u.WellFormed text := by
  cases h with
  | element _ _ _ _ _ inside =>
    obtain rfl := List.mem_singleton.1 hpart
    exact inside
  | block opens row inside =>
    rcases List.mem_append.1 hpart with hsection | hclosing
    · obtain ⟨clause, hclause, rfl⟩ := List.mem_map.1 hsection
      exact inside clause.2 (List.mem_map_of_mem (f := Prod.snd) hclause)
    · obtain rfl := List.mem_singleton.1 hclosing
      exact fun u hu => absurd hu List.not_mem_nil
  | _ =>
    obtain rfl := List.mem_singleton.1 hpart
    exact fun u hu => absurd hu List.not_mem_nil

/-- …and none of them is empty. -/
theorem lt_of_mem_parts {text : List Char} (h : t.WellFormed text) {part : Part}
    (hpart : part ∈ t.parts) : ∀ u ∈ part.body, u.span.start < u.span.stop := by
  cases h with
  | element _ _ _ _ row =>
    obtain rfl := List.mem_singleton.1 hpart
    exact fun u hu => row.lt_of_mem hu
  | block opens row =>
    rcases List.mem_append.1 hpart with hsection | hclosing
    · obtain ⟨clause, hclause, rfl⟩ := List.mem_map.1 hsection
      exact fun u hu => row.lt_of_mem (List.mem_map_of_mem (f := Prod.snd) hclause) hu
    · obtain rfl := List.mem_singleton.1 hclosing
      exact fun u hu => absurd hu List.not_mem_nil
  | _ =>
    obtain rfl := List.mem_singleton.1 hpart
    exact fun u hu => absurd hu List.not_mem_nil

end Tree.WellFormed

end Markup.Svelte
