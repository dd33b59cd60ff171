import Markup.Error
import Markup.Growing
import Markup.Html.Lexeme

/-!
# Html/Tree — the tree that a row of lexemes grows

A `Growth` holds what is finished and the **stack of open elements** (`Growing`).  A start tag
closes the elements whose rule says so before it opens its own; an end tag closes the innermost
element of its name with all inside it, or is a stray; the end of the text closes everything.
`Tree.ofText` reads a text; no lexeme is refused, so the only fault of a text is an open tag.
-/

namespace Markup.Html

/-- **The tree of an HTML text**, each part with its range in bytes. -/
inductive Tree where
  | leaf (kind : Mark) (span : Span)
  /-- An end tag that closes nothing. -/
  | stray (span : Span)
  | element (name : String) (span : Span) (startTagEnd : Nat) (endTag : Option Span)
      (children : List Tree)
deriving Inhabited

/-- The range that a tree covers. -/
def Tree.span : Tree → Span
  | .leaf _ span | .stray span | .element _ span .. => span

instance : Spanned Tree := ⟨Tree.span⟩

/-- An element whose end has not been read. -/
structure OpenElement where
  name : String
  startTag : Span
  /-- What is finished inside it, last first. -/
  children : List Tree := []

namespace OpenElement

/-- Where the element ends if nothing follows in it. -/
def contentEnd (e : OpenElement) : Nat :=
  match e.children with
  | [] => e.startTag.stop
  | last :: _ => last.span.stop

/-- The element, closed by an end tag or by what follows. -/
def close (e : OpenElement) (endTag : Option Span) : Tree :=
  .element e.name ⟨e.startTag.start, (endTag.map Span.stop).getD e.contentEnd⟩ e.startTag.stop
    endTag e.children.reverse

instance : Holder OpenElement Tree where
  take trees e := { e with children := trees ++ e.children }
  take_nil _ := rfl
  take_take _ _ _ := congrArg (OpenElement.mk _ _) (List.append_assoc ..).symm

@[simp] theorem take_eq (trees : List Tree) (e : OpenElement) :
    Holder.take trees e = { e with children := trees ++ e.children } := rfl

end OpenElement

/-- **Trees that grow** by open elements. -/
abbrev Growth : Type := Growing Tree OpenElement

namespace Growth

/-- Adds a finished tree to the innermost open element, or to the roots. -/
abbrev add (g : Growth) (tree : Tree) : Growth := Growing.add g tree

/-- Closes the innermost open element. -/
abbrev closeTop (g : Growth) (endTag : Option Span) : Growth :=
  Growing.closeTop (fun e => e.close endTag) g

/-- Closes the `n` innermost open elements without end tags. -/
def closeMany : Nat → Growth → Growth
  | 0, g => g
  | n + 1, g => closeMany n (g.closeTop none)

/-- **Closes the elements that a start tag of this name ends**: the innermost ones, as long as their
rules say so. -/
def imply (g : Growth) (name : String) : Growth :=
  closeMany (g.stack.takeWhile fun e => (TagRule.ofName e.name).isClosedBy name).length g

/-- Opens an element. -/
def enter (g : Growth) (name : String) (startTag : Span) : Growth :=
  { g with stack := { name, startTag } :: g.stack }

/-- **Closes the innermost open element of the name**, and those inside it before; without one, the
end tag is a stray. -/
def closeNamed (config : Config) (g : Growth) (name : String) (endTag : Span) : Growth :=
  match g.stack.findIdx? fun e => config.namesMatch e.name name with
  | none => g.add (.stray endTag)
  | some inner => (closeMany inner g).closeTop (some endTag)

/-- The element that a lexeme with opaque content is, read from an offset on. -/
def rawElement (offset : Nat) (name : String) (startTag content : List Char)
    (endTag : Option (List Char)) : Tree :=
  let contentStart := offset + Text.byteSize startTag
  let contentEnd := contentStart + Text.byteSize content
  let stop := contentEnd + Text.byteSize (endTag.getD [])
  .element name ⟨offset, stop⟩ contentStart (endTag.map fun _ => ⟨contentEnd, stop⟩)
    (if content.isEmpty then [] else [.leaf .text ⟨contentStart, contentEnd⟩])

/-- **Grows by a lexeme.** -/
def step (config : Config) (g : Growth) (lexeme : Lexeme) : Growth :=
  let span : Span := ⟨g.offset, g.offset + Text.byteSize lexeme.text⟩
  let grown :=
    match lexeme with
    | .mark kind _ => g.add (.leaf kind span)
    | .closedTag name _ => (g.imply name).add (.element name span span.stop none [])
    | .openTag name _ => (g.imply name).enter name span
    | .rawElement name startTag content endTag =>
      (g.imply name).add (rawElement g.offset name startTag content endTag)
    | .endTag name _ => g.closeNamed config name span
  { grown with offset := span.stop }

/-- The roots in order, after all that is open has been closed. -/
def finish (g : Growth) : List Tree := (closeMany g.stack.length g).roots.reverse

end Growth

namespace Tree

/-- The trees that lexemes grow. -/
def ofLexemes (config : Config) (ls : List Lexeme) : List Tree :=
  (ls.foldl (Growth.step config) {}).finish

/-- **The trees of a text**; a tag left open is pointed at up to the end of the text. -/
def ofText (config : Config) (withFrontMatter : Bool) (text : List Char) :
    Except Rejection (List Tree) :=
  match documentLexemes config withFrontMatter text with
  | .ok ls => .ok (ofLexemes config ls)
  | .error unread =>
    let size := Text.byteSize text
    .error ⟨"Unexpected end of file in tag", ⟨size - Text.byteSize unread, size⟩⟩

end Tree

end Markup.Html
