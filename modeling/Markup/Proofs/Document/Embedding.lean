import Markup.Proofs.Blueprint.Shift
import Markup.Proofs.Construct.Map
import Markup.Proofs.Html.Dialect
import Markup.Proofs.Svelte.Dialect

/-!
# Proofs/Document/Embedding — a text is parsed in a file as it is on its own

A reader sees a text and not where it stands, so both dialects plan **the same blueprints**, but for
where a construct without branches is refused.  With `Blueprint.raise_shift`, a document that is
embedded in a file is the one that the text makes alone, moved as a whole
(`parse_embedded`).
-/

namespace Markup

namespace Shift

variable (σ : Shift)

/-- What is read of a text, in the file. -/
def reading (r : Reading) : Reading := { r with roots := σ.blueprints r.roots }

/-- **A document in the file**: all its nodes stand there. -/
def document (doc : Document) : Document := { doc with nodes := σ.arena doc.nodes }

/-- A plan in the file. -/
def planned (p : Planned) : Planned := { p with blueprint := σ.blueprint p.blueprint }

end Shift

variable (σ : Shift) (text : String)

/-! ## Documents -/

/-- **Roots in place become the same nodes**, moved. -/
theorem Blueprint.raiseForest_shift {d : Dialect} (hread : d.readAttribute.Portable)
    {roots : List Blueprint} (hplace : ∀ b ∈ roots, b.InPlace) :
    raiseForest d (σ.source text) σ.depth (σ.blueprints roots) =
      σ.result (Prod.map id σ.arena) (raiseForest d (.alone text) 0 roots) := by
  have htop : σ.position ⟨none, 0⟩ = ⟨none, σ.depth⟩ := by rw [Shift.position, Nat.zero_add]
  have hempty : σ.arena #[] = #[] := Array.map_empty
  have hportable : Portable σ (fun here => raiseAll d (.alone text) here roots)
      fun here => raiseAll d (σ.source text) here (σ.blueprints roots) :=
    portable_raiseAll hplace fun b hb => raise_shift hread (hplace b hb)
  have hraise := @hportable ⟨none, 0⟩ #[] (by simp)
  rw [Shift.InStep, hempty] at hraise
  rw [raiseForest, raiseForest, ← htop]
  refine Shift.result_bind hraise fun r _ => ?_
  obtain ⟨ids, a⟩ := r
  simp only [Prod.map, id_eq, Shift.settle_arena]
  rfl

/-- …none of which is left over. -/
theorem Blueprint.displaced_of_raiseForest {d : Dialect} {source : Source} {depth : Nat}
    {roots : List Blueprint} (hplace : ∀ b ∈ roots, b.InPlace) {displaced : List NodeId}
    {nodes : Arena} (h : raiseForest d source depth roots = .ok (displaced, nodes)) :
    displaced = [] := by
  obtain ⟨⟨ids, a⟩, hraise, hsettle⟩ := Except.bind_eq_ok.1 h
  obtain ⟨row, hrow, hnodes⟩ :=
    adds_raiseAll (fun b hb => adds_raise (hplace b hb)) (by simp) hraise
  simp only [Arena.settle_of_standsAt (hnodes.standsAt hrow)] at hsettle
  exact (Prod.mk.inj (Except.ok.inj hsettle)).1.symm

/-- **A dialect whose readers see nothing but the text** parses it in a file as it does alone. -/
theorem Document.parse_shift {d : Dialect} {raw : String} {o : Options}
    (hattributes : d.readAttribute.Portable)
    (hread : d.read (o.shift.source raw) o =
      (d.read (.alone raw) { ignoreFrontMatter := o.ignoreFrontMatter }).map o.shift.reading)
    (hplace : ∀ reading,
      d.read (.alone raw) { ignoreFrontMatter := o.ignoreFrontMatter } = .ok reading →
        ∀ b ∈ reading.roots, b.InPlace) :
    Document.parse d raw o = o.shift.result o.shift.document
      (Document.parse d raw { ignoreFrontMatter := o.ignoreFrontMatter }) := by
  have halone : Source.ofString raw
      ({ ignoreFrontMatter := o.ignoreFrontMatter } : Options).base = .alone raw := rfl
  rw [Document.parse, Document.parse, Options.ofString_base, halone, hread]
  cases hreading : d.read (.alone raw) { ignoreFrontMatter := o.ignoreFrontMatter } with
  | error rejection => exact congrArg Except.error (Source.reject_shift _ _ _ _)
  | ok reading =>
    have hroots := hplace reading hreading
    refine Shift.result_bind (Blueprint.raiseForest_shift _ _ hattributes hroots) fun r hr => ?_
    obtain ⟨displaced, nodes⟩ := r
    obtain rfl := Blueprint.displaced_of_raiseForest hroots hr
    rfl

/-! ## HTML -/

namespace Html

mutual

theorem Tree.blueprint_shift : ∀ t : Tree,
    t.blueprint (σ.source text) = σ.blueprint (t.blueprint (.alone text))
  | .leaf kind span => by cases kind <;> rfl
  | .stray span => rfl
  | .element _ span startTagEnd endTag children => by
    rw [Tree.blueprint, Tree.blueprint, Tree.blueprints_shift children]
    rfl

theorem Tree.blueprints_shift : ∀ trees : List Tree,
    Tree.blueprints (σ.source text) trees = σ.blueprints (Tree.blueprints (.alone text) trees)
  | [] => rfl
  | t :: trees => by
    rw [Tree.blueprints, Tree.blueprints, Tree.blueprint_shift t, Tree.blueprints_shift trees]
    rfl

end

theorem read_shift (o : Options) :
    read (σ.source text) o =
      (read (.alone text) { ignoreFrontMatter := o.ignoreFrontMatter }).map σ.reading := by
  change (Tree.ofText config o.ignoreFrontMatter text.toList >>= _) =
    (Tree.ofText config o.ignoreFrontMatter text.toList >>= _).map _
  cases Tree.ofText config o.ignoreFrontMatter text.toList with
  | error rejection => rfl
  | ok trees =>
    simp only [bind, Except.bind, Tree.blueprints_shift]
    rfl

end Html

/-! ## Templates -/

/-- **The branches of a construct are refused where it stands**, if at all. -/
theorem Blueprint.ofConstruct_shift (c : Construct Planned) :
    ofConstruct (σ.source text) {} (c.map σ.planned) =
      σ.blueprint (ofConstruct (.alone text) {} c) := by
  have htext : (σ.source text).text = (Source.alone text).text := rfl
  rw [ofConstruct, ofConstruct, Construct.branches, Construct.branches, Construct.span_map,
    Construct.allPieces_map (f := σ.planned) fun _ => rfl, htext, Source.slice_shift]
  cases c.allPieces (Source.alone text).text with
  | ok pieces =>
    simp only [Except.map, Piece.gather_map, Shift.blueprint, Shift.blueprints_eq_map]
    simp [Branches.map, List.map_flatten, Function.comp_def, Branch.map, ofBranch, Shift.planned,
      Shift.blueprint, Shift.blueprints_eq_map]
  | error range => cases (Source.alone text).slice c.span <;> rfl

namespace Svelte

/-- What the dialect reads into an attribute is a matter of its texts. -/
theorem interpret_shift (a : Attribute.Plain) : interpret (σ.plain a) = σ.plain (interpret a) := by
  have hbase : (σ.plain a).baseName = a.baseName := rfl
  have hdirective : directiveTarget? (σ.plain a) = directiveTarget? a := rfl
  have hclass : isClass (σ.plain a) = isClass a := by rw [isClass, isClass, hbase]
  have hbound : boundProperty? (σ.plain a) = boundProperty? a := by
    rw [boundProperty?, boundProperty?, hbase, hdirective]
  have hshorthand : shorthandName? (σ.plain a) = shorthandName? a := rfl
  rw [interpret, interpret, hclass, hdirective, hbound, hshorthand]
  simp only [Shift.plain]

theorem portable_readAttribute : readAttribute.Portable := by
  intro σ text token
  refine Shift.result_bind (Attribute.read_shift σ text _ token) fun a _ => ?_
  cases a with
  | plain a => exact congrArg (fun a => Except.ok (Attribute.plain a)) (interpret_shift σ a)
  | spread token spaces => rfl

theorem clausesNamed_map {α β : Type} (f : α → β) (name : String)
    (clauses : List (String × Section α)) :
    clausesNamed name (clauses.map fun c => (c.1, c.2.map f)) =
      (clausesNamed name clauses).map (Section.map f) := by
  rw [clausesNamed, clausesNamed, List.filterMap_map, List.map_filterMap]
  congr 1
  funext c
  simp only [Function.comp_apply]
  split <;> rfl

/-- A block is a construct whatever its children are. -/
theorem Block.construct_map {α β : Type} (f : α → β) (kind : Block) (head : Section α)
    (clauses : List (String × Section α)) :
    kind.construct (head.map f) (clauses.map fun c => (c.1, c.2.map f)) =
      (kind.construct head clauses).map f := by
  cases kind with
  | cond => simp only [construct, clausesNamed_map, List.head?_map, Construct.map]
  | _ =>
    simp only [construct, clausesNamed_map, List.head?_map]
    exact Construct.ofPhases_map f _ _ _ _

mutual

theorem Tree.blueprint_shift : ∀ t : Tree,
    t.blueprint (σ.source text) = σ.blueprint (t.blueprint (.alone text))
  | .text span | .comment span | .mustache span | .strayClause span => rfl
  | .special tag content => by
    have hconstruct := Construct.ofPhases_map σ.planned tag.word
      (plannedSection (.alone text) content) Construct.singlePhase fun _ => none
    rw [Tree.blueprint, Tree.blueprint, plannedSection_shift content, SpecialTag.construct,
      SpecialTag.construct, ← Blueprint.ofConstruct_shift, ← hconstruct]
    rfl
  | .block kind head clauses => by
    rw [Tree.blueprint, Tree.blueprint, plannedSection_shift head, plannedClauses_shift clauses,
      Block.construct_map, Blueprint.ofConstruct_shift]
  | .element _ span startTagEnd endTag children => by
    rw [Tree.blueprint, Tree.blueprint, blueprints_shift children]
    rfl

theorem blueprints_shift : ∀ trees : List Tree,
    blueprints (σ.source text) trees = σ.blueprints (blueprints (.alone text) trees)
  | [] => rfl
  | t :: trees => by
    rw [blueprints, blueprints, Tree.blueprint_shift t, blueprints_shift trees]
    rfl

theorem planned_shift : ∀ trees : List Tree,
    planned (σ.source text) trees = (planned (.alone text) trees).map σ.planned
  | [] => rfl
  | t :: trees => by
    rw [planned, planned, Tree.blueprint_shift t, planned_shift trees]
    rfl

theorem plannedSection_shift : ∀ s : Section Tree,
    plannedSection (σ.source text) s = (plannedSection (.alone text) s).map σ.planned
  | ⟨span, headerEnd, children⟩ => by
    rw [plannedSection, plannedSection, planned_shift children]
    rfl

theorem plannedClauses_shift : ∀ clauses : List (String × Section Tree),
    plannedClauses (σ.source text) clauses =
      (plannedClauses (.alone text) clauses).map fun c => (c.1, c.2.map σ.planned)
  | [] => rfl
  | (name, s) :: clauses => by
    rw [plannedClauses, plannedClauses, plannedSection_shift s, plannedClauses_shift clauses]
    rfl

end

theorem read_shift (o : Options) :
    read (σ.source text) o =
      (read (.alone text) { ignoreFrontMatter := o.ignoreFrontMatter }).map σ.reading := by
  change (Tree.ofText config text.toList >>= _) = (Tree.ofText config text.toList >>= _).map _
  cases Tree.ofText config text.toList with
  | error rejection => rfl
  | ok trees =>
    simp only [bind, Except.bind, blueprints_shift]
    rfl

end Svelte

/-! ## Both dialects -/

/-- **A text that is embedded in a file is parsed as it is on its own**: the same document with
every token and every depth moved, or the same refusal at the token moved. -/
theorem parse_embedded (raw : String) (o : Options) :
    Document.parse Html.dialect raw o = o.shift.result o.shift.document
        (Document.parse Html.dialect raw { ignoreFrontMatter := o.ignoreFrontMatter }) ∧
      Document.parse Svelte.dialect raw o = o.shift.result o.shift.document
        (Document.parse Svelte.dialect raw { ignoreFrontMatter := o.ignoreFrontMatter }) := by
  constructor
  · exact Document.parse_shift (AttributeReader.portable_read {}) (Html.read_shift _ _ o)
      fun reading hread => (Html.covers_of_read hread).inPlace
  · exact Document.parse_shift Svelte.portable_readAttribute (Svelte.read_shift _ _ o)
      fun reading hread => (Svelte.covers_of_read o hread).inPlace

end Markup
