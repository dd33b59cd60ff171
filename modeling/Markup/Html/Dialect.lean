import Markup.Dialect
import Markup.Html.Declaration
import Markup.Html.Tree

/-!
# Html/Dialect — plain HTML as a dialect

End tags may be left out, names do not differ by case, and scripts and styles are opaque.  An
element's blueprint stands in a group with the element's **whole range**, so that it is refused
unless that range is one of the source.
-/

namespace Markup.Html

/-- What is fixed for HTML. -/
def config : Config where
  endTags := .omittable
  ignored := [.element "script", .element "style"]

/-- The blueprint of a leaf. -/
def leafBlueprint (source : Source) (kind : Mark) (span : Span) : Blueprint :=
  match kind with
  | .text => .leaf {} span .text
  | .comment => .leaf {} span (.comment false)
  | .bogus => .leaf {} span (.comment true)
  | .doctype =>
    let raw := (Text.slice? span.start span.stop source.text).getD []
    .leaf {} span (.doctype (doctypeOf raw))
  | .frontMatter => .block {} span "#front-matter" []
  | .cdata => .expression {} span

mutual

/-- **The blueprint of a tree.** -/
def Tree.blueprint (source : Source) : Tree → Blueprint
  | .leaf kind span => leafBlueprint source kind span
  | .stray span => .leaf {} span .strayEndTag
  | .element _ span startTagEnd endTag children =>
    .group {} (some span)
      [.element {} ⟨span.start, startTagEnd⟩ (Tree.blueprints source children) endTag]

/-- The blueprints of trees in a row. -/
def Tree.blueprints (source : Source) : List Tree → List Blueprint
  | [] => []
  | tree :: trees => tree.blueprint source :: Tree.blueprints source trees

end

/-- Where the markup begins: after the front matter, if there is any. -/
def markupStart : List Tree → Nat
  | .leaf .frontMatter span :: _ => span.stop
  | _ => 0

/-- Reads an HTML source. -/
def read (source : Source) (options : Options) : Except Rejection Reading := do
  let trees ← Tree.ofText config options.ignoreFrontMatter source.text
  let markup := (Text.dropBytes? (markupStart trees) source.text).getD []
  return { roots := Tree.blueprints source trees, isFragment := !isDocumentStart markup }

/-- **Plain HTML.** -/
def dialect : Dialect where
  name := "html"
  config := config
  read := read
  isVoid := fun name => (TagRule.ofName name).isVoid

end Markup.Html
