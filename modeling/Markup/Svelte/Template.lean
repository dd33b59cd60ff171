import Markup.Growing
import Markup.Svelte.Lexeme

/-!
# Svelte/Template — the tree that a template's lexemes grow

A `Growth` holds what is finished and the **stack of what is open** (`Growing`): elements, and
blocks with the section that is being read.  What is open innermost is the `Context` in which the
next lexeme is read, so a lexeme always fits, and `Tree.ofText` refuses a text only where a lexeme
is missing.
-/

namespace Markup.Svelte

/-- What has been opened. -/
inductive Opener where
  | element (name : String) (startTag : Span)
  /-- A block in its head section. -/
  | block (kind : Block) (header : Span)
  /-- A block in the clause of this name, after its head and other clauses, last first. -/
  | clause (kind : Block) (head : Section Tree) (done : List (String × Section Tree))
      (name : String) (header : Span)

/-- Something open with what is finished in its last section, last first. -/
structure Level where
  opener : Opener
  children : List Tree := []

namespace Opener

/-- The tag that began the section at hand. -/
def header : Opener → Span
  | .element _ startTag => startTag
  | .block _ header => header
  | .clause _ _ _ _ header => header

/-- What a lexeme has to know of what is open. -/
def context : Opener → Context
  | .element name startTag => .element name startTag
  | .block kind header => .block kind header.start []
  | .clause kind head done name _ => .block kind head.span.start (name :: done.map Prod.fst)

/-- Why the text may not end here. -/
def leftOpen : Opener → Rejection
  | .element name startTag => (Fault.openElement name).reject startTag.start startTag.stop
  | .block kind header => (Fault.openBlock kind.word).reject header.start (header.start + 1)
  | .clause kind head .. => (Fault.openBlock kind.word).reject head.span.start (head.span.start + 1)

end Opener

/-- A section with its end moved. -/
def extend (stop : Nat) (s : Section Tree) : Section Tree :=
  { s with span := ⟨s.span.start, stop⟩ }

namespace Level

/-- The section at hand, ended at an offset. -/
def toSection (l : Level) (stop : Nat) : Section Tree where
  span := ⟨l.opener.header.start, stop⟩
  headerEnd := l.opener.header.stop
  children := l.children.reverse

/-- The level after a clause has begun.  An element has no clauses. -/
def beginClause (l : Level) (name : String) (header : Span) : Level :=
  match l.opener with
  | .element .. => l
  | .block kind _ => { opener := .clause kind (l.toSection header.start) [] name header }
  | .clause kind head done last _ =>
    { opener := .clause kind head ((last, l.toSection header.start) :: done) name header }

/-- **What was open, closed by a tag.**  A block reaches through its closing tag, a further
alternative through the last section, and any other clause through its own. -/
def close (l : Level) (tag : Span) : Tree :=
  match l.opener with
  | .element name startTag =>
    .element name ⟨startTag.start, tag.stop⟩ startTag.stop (some tag) l.children.reverse
  | .block kind _ => .block kind (l.toSection tag.stop) []
  | .clause kind head done name _ =>
    let clauses := ((name, l.toSection tag.start) :: done).reverse
    .block kind (extend tag.stop head) <| clauses.map fun clause =>
      if clause.1 = "elseif" then (clause.1, extend tag.start clause.2) else clause

instance : Holder Level Tree where
  take trees l := { l with children := trees ++ l.children }
  take_nil _ := rfl
  take_take _ _ _ := congrArg (Level.mk _) (List.append_assoc ..).symm

@[simp] theorem take_eq (trees : List Tree) (l : Level) :
    Holder.take trees l = { l with children := trees ++ l.children } := rfl

end Level

/-- **Trees that grow** by levels of what is open. -/
abbrev Growth : Type := Growing Tree Level

namespace Growth

/-- What is open where the next lexeme begins. -/
def context (g : Growth) : Context :=
  match g.stack with
  | [] => .top
  | l :: _ => l.opener.context

/-- Adds a finished tree to what is open innermost, or to the roots. -/
abbrev add (g : Growth) (tree : Tree) : Growth := Growing.add g tree

/-- Opens something. -/
def enter (g : Growth) (opener : Opener) : Growth := { g with stack := { opener } :: g.stack }

/-- Begins a clause of what is open innermost. -/
def beginClause (g : Growth) (name : String) (header : Span) : Growth :=
  match g.stack with
  | [] => g
  | l :: outer => { g with stack := l.beginClause name header :: outer }

/-- Closes what is open innermost. -/
abbrev closeTop (g : Growth) (tag : Span) : Growth := Growing.closeTop (fun l => l.close tag) g

/-- The element that a lexeme with opaque content is, read from an offset on. -/
def rawElement (offset : Nat) (name : String) (startTag content endTag : List Char) : Tree :=
  let contentStart := offset + Text.byteSize startTag
  let contentEnd := contentStart + Text.byteSize content
  let stop := contentEnd + Text.byteSize endTag
  .element name ⟨offset, stop⟩ contentStart (some ⟨contentEnd, stop⟩)
    (if content.isEmpty then [] else [.text ⟨contentStart, contentEnd⟩])

/-- **Grows by a lexeme.** -/
def step (g : Growth) (lexeme : Lexeme) : Growth :=
  let span : Span := ⟨g.offset, g.offset + Text.byteSize lexeme.raw⟩
  let grown :=
    match lexeme with
    | .text _ => g.add (.text span)
    | .comment _ => g.add (.comment span)
    | .mustache _ => g.add (.mustache span)
    | .special tag _ => g.add (.special tag ⟨span, span.stop, []⟩)
    | .closedTag name _ => g.add (.element name span span.stop none [])
    | .openTag name _ => g.enter (.element name span)
    | .rawElement name startTag content endTag =>
      g.add (rawElement g.offset name startTag content endTag)
    | .openBlock kind _ => g.enter (.block kind span)
    | .clause name _ => g.beginClause name span
    | .closer _ => g.closeTop span
  { grown with offset := span.stop }

/-- The roots in order, if nothing is open. -/
def finish (g : Growth) : Except Rejection (List Tree) :=
  match g.stack with
  | [] => .ok g.roots.reverse
  | l :: _ => .error l.opener.leftOpen

/-- Grows by the lexemes of a text up to its end. -/
def run (config : Config) (g : Growth) : List Char → Except Rejection (List Tree)
  | [] => g.finish
  | c :: cs =>
    match h : Lexeme.next config g.context g.offset (c :: cs) with
    | .error rejection => .error rejection
    | .ok (lexeme, rest) =>
      have : rest.length < cs.length + 1 := Lexeme.length_lt_of_next h (by simp)
      run config (g.step lexeme) rest
termination_by cs => cs.length
decreasing_by simpa using this

end Growth

/-- **The trees of a template.** -/
def Tree.ofText (config : Config) (text : List Char) : Except Rejection (List Tree) :=
  Growth.run config {} text

end Markup.Svelte
