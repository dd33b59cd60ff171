import Markup.Construct.Basic

/-!
# Svelte/Tree — the tree of a Svelte template

Blocks and special tags are **a head section and clauses**: the clauses of a block are the sections
that its `{:…}` tags open, each named by the word of its tag.  `Tree.construct?` reads the same
thing as a control-flow construct, whose branches the builder makes; a tree that links the clauses
of a block instead is followed to the same construct (`Block.construct?_linked`).
-/

namespace Markup.Svelte

/-- The tags `{@…}`. -/
inductive SpecialTag where
  | html
  | const
  | debug
  | render
deriving DecidableEq, Repr

namespace SpecialTag

/-- The word after the sign. -/
def word : SpecialTag → String
  | .html => "html"
  | .const => "const"
  | .debug => "debug"
  | .render => "render"

/-- All special tags. -/
def all : List SpecialTag := [.html, .const, .debug, .render]

/-- The special tag of a word. -/
def ofWord? (word : String) : Option SpecialTag := all.find? fun tag => tag.word == word

end SpecialTag

/-- The phases of an await block that a clause or a header may open. -/
inductive Phase where
  | fulfilled
  | rejected
deriving DecidableEq, Repr

/-- The word that opens a phase. -/
def Phase.word : Phase → String
  | .fulfilled => "then"
  | .rejected => "catch"

/-- The phase that a word opens. -/
def Phase.ofWord? (word : String) : Option Phase :=
  [Phase.fulfilled, Phase.rejected].find? fun phase => phase.word == word

/-- The blocks `{#…}`. -/
inductive Block where
  | cond
  | each
  /-- A wait; its header may open a phase at once. -/
  | await (shorthand : Option Phase)
  | key
  | snippet
deriving DecidableEq, Repr

/-- The word after the sign, which the closing tag repeats. -/
def Block.word : Block → String
  | .cond => "if"
  | .each => "each"
  | .await _ => "await"
  | .key => "key"
  | .snippet => "snippet"

/-- **The tree of a template**, each part with its range in bytes. -/
inductive Tree where
  | text (span : Span)
  | comment (span : Span)
  /-- An expression to be shown. -/
  | mustache (span : Span)
  | special (tag : SpecialTag) (content : Section Tree)
  /-- A block: the span of its head section is that of the whole, and its clauses come in source
  order. -/
  | block (kind : Block) (head : Section Tree) (clauses : List (String × Section Tree))
  | element (name : String) (span : Span) (startTagEnd : Nat) (endTag : Option Span)
      (children : List Tree)
  /-- A clause that stands outside of all blocks. -/
  | strayClause (span : Span)
deriving Inhabited

namespace Tree

/-- The range that a tree covers. -/
def span : Tree → Span
  | .text span | .comment span | .mustache span | .strayClause span => span
  | .special _ content => content.span
  | .block _ head _ => head.span
  | .element _ span .. => span

instance : Spanned Tree := ⟨span⟩

end Tree

/-- The sections that clauses of a name open. -/
def clausesNamed {α : Type} (name : String) (clauses : List (String × Section α)) :
    List (Section α) :=
  clauses.filterMap fun clause => if clause.1 = name then some clause.2 else none

namespace Block

variable {α : Type}

/-- The phases of a block that may have any. -/
def phases : Block → List String
  | .cond => []
  | .each => Construct.eachPhases
  | .await none => Construct.awaitPhases
  | .await (some .fulfilled) => Construct.awaitThenPhases
  | .await (some .rejected) => Construct.awaitCatchPhases
  | .key | .snippet => Construct.singlePhase

/-- **A block as a construct**: alternatives if it is conditional, phases otherwise. -/
def construct (kind : Block) (head : Section α) (clauses : List (String × Section α)) :
    Construct α :=
  match kind with
  | .cond => .conditional head (clausesNamed "elseif" clauses) (clausesNamed "else" clauses).head?
  | _ => .ofPhases kind.word head kind.phases fun name => (clausesNamed name clauses).head?

end Block

/-- A special tag as a construct of one phase. -/
def SpecialTag.construct {α : Type} (tag : SpecialTag) (content : Section α) : Construct α :=
  .ofPhases tag.word content Construct.singlePhase fun _ => none

/-- **The construct that a tree is**, if it is a block or a special tag. -/
def Tree.construct? : Tree → Option (Construct Tree)
  | .special tag content => some (tag.construct content)
  | .block kind head clauses => some (kind.construct head clauses)
  | _ => none

end Markup.Svelte
