import Markup.Proofs.Blueprint.Row
import Markup.Proofs.Source.Token
import Markup.Proofs.Tiling

/-!
# Proofs/Blueprint/Cover — blueprints that cover a range, and their tokens

`Covers a b bs` says that the ranges of the blueprints, read as their nodes will stand — **a start
tag, what is inside, an end tag** — run from `a` to `b` without a gap.  `Row.tokensTile` carries
this over to the tokens of the nodes: a ghost, whose range no blueprint gives, stands where the node
before it ends.
-/

namespace Markup

namespace Blueprint

/-- **The blueprints cover the range between two offsets**, in the order of their nodes. -/
inductive Covers : Nat → Nat → List Blueprint → Prop
  | nil {a : Nat} : Covers a a []
  | leaf {a mid b : Nat} {kind : Leaf} {bs : List Blueprint} (lt : a < mid)
      (rest : Covers mid b bs) : Covers a b (.leaf {} ⟨a, mid⟩ kind :: bs)
  | block {a head mid b : Nat} {name : String} {children bs : List Blueprint} (lt : a < head)
      (content : Covers head mid children) (rest : Covers mid b bs) :
      Covers a b (.block {} ⟨a, head⟩ name children :: bs)
  | element {a head last mid b : Nat} {children bs : List Blueprint} {endTag : Option Span}
      (lt : a < head) (content : Covers head last children) (closes : Closes last mid endTag)
      (rest : Covers mid b bs) : Covers a b (.element {} ⟨a, head⟩ children endTag :: bs)
  | group {a mid b : Nat} {span : Option Span} {items bs : List Blueprint}
      (content : Covers a mid items) (rest : Covers mid b bs) :
      Covers a b (.group {} span items :: bs)
  /-- Of what is never built nothing is asked. -/
  | fault {a mid b : Nat} {error : Error} {bs : List Blueprint} (rest : Covers mid b bs) :
      Covers a b (.fault error :: bs)

namespace Covers

variable {a mid b : Nat} {xs ys : List Blueprint}

/-- Rows of blueprints that meet are one. -/
theorem append (h : Covers a mid xs) (h' : Covers mid b ys) : Covers a b (xs ++ ys) := by
  induction h with
  | nil => exact h'
  | leaf lt _ ih => exact leaf lt (ih h')
  | block lt content _ _ ih => exact block lt content (ih h')
  | element lt content closes _ _ ih => exact element lt content closes (ih h')
  | group content _ _ ih => exact group content (ih h')
  | fault _ ih => exact fault (ih h')

/-- **Blueprints of values in a row cover what the values do**, if each does on its own. -/
theorem of_tiled {α : Type} [Spanned α] {f : α → Blueprint} {values : List α}
    (h : Tiled a b values) (hf : ∀ v ∈ values, (Spanned.span v).start < (Spanned.span v).stop →
      Covers (Spanned.span v).start (Spanned.span v).stop [f v]) : Covers a b (values.map f) := by
  induction values generalizing a with
  | nil =>
    obtain rfl : a = b := h
    exact nil
  | cons v values ih =>
    obtain ⟨hv, hrest⟩ := List.forall_mem_cons.1 hf
    obtain ⟨rfl, hlt, htiled⟩ := h
    rw [List.map_cons]
    exact (hv hlt).append (ih htiled hrest)

/-- **Blueprints that cover a range ask for no place of their own.** -/
theorem inPlace (h : Covers a b xs) : ∀ x ∈ xs, x.InPlace := by
  induction h with
  | nil => simp
  | leaf _ _ ih => exact List.forall_mem_cons.2 ⟨.leaf _ _, ih⟩
  | block _ _ _ ihContent ih => exact List.forall_mem_cons.2 ⟨.block _ _ ihContent, ih⟩
  | element _ _ _ _ ihContent ih => exact List.forall_mem_cons.2 ⟨.element _ _ ihContent, ih⟩
  | group _ _ ihContent ih => exact List.forall_mem_cons.2 ⟨.group _ ihContent, ih⟩
  | fault _ ih => exact List.forall_mem_cons.2 ⟨.fault _, ih⟩

end Covers

end Blueprint

/-! ## Tokens -/

/-- **The tokens of the nodes are slices of the source that follow each other** from one offset to
another, and the empty ones are those of the ghosts. -/
def TokensTile (source : Source) : Nat → Nat → List Node → Prop
  | start, stop, [] => start = stop
  | start, stop, n :: nodes => ∃ mid, source.slice ⟨start, mid⟩ = .ok n.token ∧
      (n.isGhost = true ↔ start = mid) ∧ TokensTile source mid stop nodes

namespace TokensTile

variable {source : Source} {start mid stop : Nat} {n : Node} {nodes others : List Node}

theorem append_iff :
    TokensTile source start stop (nodes ++ others) ↔
      ∃ mid, TokensTile source start mid nodes ∧ TokensTile source mid stop others := by
  induction nodes generalizing start with
  | nil => simp [TokensTile]
  | cons n nodes ih =>
    simp only [List.cons_append, TokensTile, ih]
    constructor
    · rintro ⟨next, hslice, hghost, mid, hnodes, hothers⟩
      exact ⟨mid, ⟨next, hslice, hghost, hnodes⟩, hothers⟩
    · rintro ⟨mid, ⟨next, hslice, hghost, hnodes⟩, hothers⟩
      exact ⟨next, hslice, hghost, mid, hnodes, hothers⟩

/-- A node that is no ghost goes before a row. -/
theorem cons_of_lt (hslice : source.slice ⟨start, mid⟩ = .ok n.token) (hghost : n.isGhost = false)
    (hlt : start < mid) (h : TokensTile source mid stop nodes) :
    TokensTile source start stop (n :: nodes) :=
  ⟨mid, hslice, by simp [hghost, Nat.ne_of_lt hlt], h⟩

/-- The last of a token and those of a row after it ends where the row does. -/
theorem slice_last {token : Token} (hslice : source.slice ⟨start, mid⟩ = .ok token)
    (h : TokensTile source mid stop nodes) :
    ∃ last, source.slice ⟨last, stop⟩ = .ok ((nodes.getLast?.map Node.token).getD token) := by
  induction nodes generalizing start mid token with
  | nil =>
    obtain rfl : mid = stop := h
    exact ⟨start, hslice⟩
  | cons n nodes ih =>
    obtain ⟨next, hnext, -, hrest⟩ := h
    obtain ⟨last, hlast⟩ := ih hnext hrest
    rw [List.getLast?_cons]
    refine ⟨last, hlast.trans ?_⟩
    cases nodes.getLast? <;> rfl

/-- **The empty token at the end of a row is the empty slice there.** -/
theorem slice_ghost {token : Token} (hslice : source.slice ⟨start, mid⟩ = .ok token)
    (h : TokensTile source mid stop nodes) :
    source.slice ⟨stop, stop⟩ = .ok (source.emptyToken (source.toLocal (endOf token nodes))) := by
  obtain ⟨last, hlast⟩ := slice_last hslice h
  have hend : source.toLocal (endOf token nodes) = stop := by
    rw [Source.toLocal, endOf, Source.endOffset_of_slice hlast, Nat.add_sub_cancel]
  rw [hend]
  exact Source.slice_emptyToken hlast

end TokensTile

@[simp] theorem Leaf.token_node (kind : Leaf) (here : Position) (ns : Namespace) (id : NodeId)
    (token : Token) : (kind.node here ns id token).token = token := by
  cases kind <;> rfl

@[simp] theorem Leaf.isGhost_node (kind : Leaf) (here : Position) (ns : Namespace) (id : NodeId)
    (token : Token) : (kind.node here ns id token).isGhost = false := by
  cases kind <;> rfl

theorem Trunk.isGhost_eq {d : Dialect} {source : Source} {here : Position} {ns inside : Namespace}
    {id : Nat} {inner closers : List Node} {kids : List NodeId} {b : Blueprint}
    {children : List Blueprint} {node : Node}
    (h : Trunk d source here ns id inner kids b children inside node closers) :
    node.isGhost = false := by
  cases h <;> rfl

theorem Trunk.isGhost_closers {d : Dialect} {source : Source} {here : Position}
    {ns inside : Namespace} {id : Nat} {inner closers : List Node} {kids : List NodeId}
    {b : Blueprint} {children : List Blueprint} {node : Node}
    (h : Trunk d source here ns id inner kids b children inside node closers)
    (hd : ∀ tag, d.impliesClose tag = false) : ∀ n ∈ closers, n.isGhost = false := by
  cases h with
  | block => simp
  | element slice read closing =>
    cases closing with
    | endTag => exact List.forall_mem_singleton.2 rfl
    | ghost implied => simp [hd] at implied
    | nothing => simp

/-- **The closing of an element goes on with the tokens of the element and what is inside it.** -/
theorem Closing.tokensTile {d : Dialect} {source : Source} {here : Position} {ns : Namespace}
    {id next content : Nat} {tag : StartTag} {endTag : Option Span} {link : Option NodeId}
    {implied : Bool} {closers : List Node} {last stop : Nat}
    (h : Closing d source here ns id next content tag endTag link implied closers)
    (hcloses : Closes last stop endTag)
    (hempty : source.slice ⟨last, last⟩ = .ok (source.emptyToken (source.toLocal content))) :
    TokensTile source last stop closers := by
  cases h with
  | endTag slice =>
    obtain ⟨rfl, hlt⟩ := hcloses
    exact ⟨stop, slice, by simp [Node.isGhost, Node.kind, Position.node, Nat.ne_of_lt hlt], rfl⟩
  | ghost implied =>
    obtain rfl : last = stop := hcloses
    exact ⟨last, hempty, by simp [Node.isGhost, Node.kind, Position.node], rfl⟩
  | nothing unimplied => exact hcloses

namespace Row

variable {d : Dialect} {source : Source} {here : Position} {ns : Namespace} {first : Nat}
  {bs : List Blueprint} {nodes : List Node} {tops : List NodeId} {start stop : Nat}

/-- **The tokens of a row cover the range that the blueprints do.** -/
theorem tokensTile (h : Row d source here ns first bs nodes tops)
    (hcovers : Blueprint.Covers start stop bs) : TokensTile source start stop nodes := by
  induction h generalizing start stop with
  | nil => cases hcovers; rfl
  | leaf slice rest ih =>
    cases hcovers with
    | leaf lt hrest =>
      exact TokensTile.cons_of_lt (slice.trans (by rw [Leaf.token_node])) (by simp) lt (ih hrest)
  | trunk grows content rest ihContent ih =>
    cases grows with
    | block slice =>
      cases hcovers with
      | block lt hcontent hrest =>
        refine TokensTile.cons_of_lt slice rfl lt ?_
        rw [List.append_nil]
        exact TokensTile.append_iff.2 ⟨_, ihContent hcontent, ih hrest⟩
    | element slice read closing =>
      cases hcovers with
      | element lt hcontent hcloses hrest =>
        have hinner := ihContent hcontent
        have hclosers := closing.tokensTile hcloses (TokensTile.slice_ghost slice hinner)
        refine TokensTile.cons_of_lt slice rfl lt ?_
        exact TokensTile.append_iff.2
          ⟨_, TokensTile.append_iff.2 ⟨_, hinner, hclosers⟩, ih hrest⟩
  | group content rest ihContent ih =>
    cases hcovers with
    | group hcontent hrest => exact TokensTile.append_iff.2 ⟨_, ihContent hcontent, ih hrest⟩

/-- **Where no end tag may be left out there are no ghosts.** -/
theorem isGhost_of_mem (h : Row d source here ns first bs nodes tops)
    (hd : ∀ tag, d.impliesClose tag = false) : ∀ n ∈ nodes, n.isGhost = false := by
  induction h with
  | nil => simp
  | leaf slice rest ih => exact List.forall_mem_cons.2 ⟨Leaf.isGhost_node _ _ _ _ _, ih⟩
  | trunk grows content rest ihContent ih =>
    rw [List.forall_mem_cons, List.forall_mem_append, List.forall_mem_append]
    exact ⟨grows.isGhost_eq, ⟨ihContent, grows.isGhost_closers hd⟩, ih⟩
  | group content rest ihContent ih => exact List.forall_mem_append.2 ⟨ihContent, ih⟩

/-- The first node of a row is no ghost. -/
theorem isGhost_head? (h : Row d source here ns first bs nodes tops) {n : Node}
    (hn : nodes.head? = some n) : n.isGhost = false := by
  induction h with
  | nil => simp at hn
  | leaf slice rest _ =>
    obtain rfl := Option.some.inj hn
    exact Leaf.isGhost_node _ _ _ _ _
  | trunk grows _ _ _ _ =>
    obtain rfl := Option.some.inj hn
    exact grows.isGhost_eq
  | @group _ _ _ _ _ _ nodes others _ _ _ _ ihContent ih =>
    cases nodes with
    | nil => exact ih hn
    | cons m nodes => exact ihContent hn

end Row

end Markup
