import Markup.Dialect
import Markup.Svelte.Attribute
import Markup.Svelte.Template

/-!
# Svelte/Dialect — Svelte templates as a dialect

Every element has an end tag or closes itself, names differ by case, scripts and styles are opaque,
and each block or special tag becomes **one block of the document for each of its branches**.
A template is always a fragment, and front matter is no part of it.
-/

namespace Markup.Svelte

/-- What is fixed for templates. -/
def config : Config where
  endTags := .xml
  caseSensitive := true
  ignored := [.element "script", .element "style"]

mutual

/-- **The blueprint of a tree.** -/
def Tree.blueprint (source : Source) : Tree → Blueprint
  | .text span => .leaf {} span .text
  | .comment span => .leaf {} span (.comment false)
  | .mustache span => .block {} span "MustacheTag" []
  | .strayClause span => .bareBlock {} span
  | .special tag content =>
    .ofConstruct source {} (tag.construct (plannedSection source content))
  | .block kind head clauses =>
    .ofConstruct source {}
      (kind.construct (plannedSection source head) (plannedClauses source clauses))
  | .element _ span startTagEnd endTag children =>
    .group {} (some span)
      [.element {} ⟨span.start, startTagEnd⟩ (blueprints source children) endTag]

/-- The blueprints of trees in a row. -/
def blueprints (source : Source) : List Tree → List Blueprint
  | [] => []
  | tree :: trees => tree.blueprint source :: blueprints source trees

/-- The blueprints of trees in a row, with what they cover. -/
def planned (source : Source) : List Tree → List Planned
  | [] => []
  | tree :: trees => ⟨tree.span, tree.blueprint source⟩ :: planned source trees

/-- A section with the blueprints of its children. -/
def plannedSection (source : Source) : Section Tree → Section Planned
  | ⟨span, headerEnd, children⟩ => ⟨span, headerEnd, planned source children⟩

/-- The clauses of a block with the blueprints of their children. -/
def plannedClauses (source : Source) :
    List (String × Section Tree) → List (String × Section Planned)
  | [] => []
  | (name, content) :: clauses =>
    (name, plannedSection source content) :: plannedClauses source clauses

end

/-- Reads a template. -/
def read (source : Source) (_ : Options) : Except Rejection Reading := do
  let trees ← Tree.ofText config source.text
  return { roots := blueprints source trees, isFragment := true }

/-- **Svelte templates.**  A refusal shows the lines that it points at. -/
def dialect : Dialect where
  name := "svelte"
  config := config
  read := read
  readAttribute := readAttribute
  isAuthored := ElementType.isComponentName
  refusal := fun text rejection => rejection.message ++ "\n" ++ rejection.frame text

end Markup.Svelte
