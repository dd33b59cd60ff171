import Markup.Proofs.Blueprint.Row

/-!
# Proofs/Blueprint/Block — a block of a row is what a blueprint said

What holds of **the names of all blocks that blueprints ask for** (`Blueprint.AllBlocks`) holds of
those of the row that they become (`Row.name_of_block`).
-/

namespace Markup

/-- **Something holds of the names of all blocks in a blueprint.** -/
inductive Blueprint.AllBlocks (p : String → Prop) : Blueprint → Prop
  | leaf (place : Placement) (span : Span) (kind : Leaf) : AllBlocks p (.leaf place span kind)
  | block {place : Placement} {span : Span} {name : String} {children : List Blueprint}
      (here : p name) (inside : ∀ b ∈ children, AllBlocks p b) :
      AllBlocks p (.block place span name children)
  | element {place : Placement} {startTag : Span} {endTag : Option Span} {children : List Blueprint}
      (inside : ∀ b ∈ children, AllBlocks p b) :
      AllBlocks p (.element place startTag children endTag)
  | group {place : Placement} {span : Option Span} {items : List Blueprint}
      (inside : ∀ b ∈ items, AllBlocks p b) : AllBlocks p (.group place span items)
  | fault (error : Error) : AllBlocks p (.fault error)

variable {d : Dialect} {source : Source} {here : Position} {ns inside : Namespace} {start : Nat}
  {p : String → Prop} {name : String} {kids : List NodeId} {n : Node}

/-- A node with children is a block as its blueprint says, and so are those inside it. -/
theorem Trunk.name_of_block {inner closers : List Node} {children : List NodeId} {b : Blueprint}
    {bs : List Blueprint} {node : Node}
    (h : Trunk d source here ns start inner children b bs inside node closers)
    (hb : b.AllBlocks p) : (∀ b ∈ bs, b.AllBlocks p) ∧
      ∀ n ∈ node :: closers, n.data = .block name kids → p name := by
  cases h with
  | block =>
    cases hb with
    | block hhere hinside =>
      refine ⟨hinside, List.forall_mem_singleton.2 fun hdata => ?_⟩
      obtain ⟨rfl, -⟩ := NodeData.block.inj hdata
      exact hhere
  | element slice read closing =>
    cases hb with
    | element hinside =>
      refine ⟨hinside, List.forall_mem_cons.2 ⟨nofun, ?_⟩⟩
      cases closing <;> simp [Position.node]

/-- **Every block of a row has the name of one that its blueprints ask for.** -/
theorem Row.name_of_block {bs : List Blueprint} {nodes : List Node} {tops : List NodeId}
    (h : Row d source here ns start bs nodes tops) (hall : ∀ b ∈ bs, b.AllBlocks p)
    (hn : n ∈ nodes) (hdata : n.data = .block name kids) : p name := by
  induction h with
  | nil => exact absurd hn List.not_mem_nil
  | @leaf _ _ _ _ _ kind _ _ _ slice rest ih =>
    rw [List.forall_mem_cons] at hall
    rcases List.mem_cons.1 hn with rfl | hlater
    · cases kind <;> cases hdata
    · exact ih hall.2 hlater
  | trunk grows content rest ihContent ihRest =>
    rw [List.forall_mem_cons] at hall
    obtain ⟨hinside, htrunk⟩ := grows.name_of_block hall.1
    rw [List.mem_cons, List.mem_append, List.mem_append] at hn
    rcases hn with rfl | (hinner | hcloser) | hlater
    · exact htrunk _ List.mem_cons_self hdata
    · exact ihContent hinside hinner
    · exact htrunk n (List.mem_cons_of_mem _ hcloser) hdata
    · exact ihRest hall.2 hlater
  | group content rest ihContent ihRest =>
    rw [List.forall_mem_cons] at hall
    rcases List.mem_append.1 hn with hfirst | hlater
    · cases hall.1 with
      | group hitems => exact ihContent hitems hfirst
    · exact ihRest hall.2 hlater

end Markup
