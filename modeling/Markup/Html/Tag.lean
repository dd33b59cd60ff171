import Markup.Text.Search

/-!
# Html/Tag — what the name of an HTML element implies

A `TagRule` says which children end an element, what its text is, and whether it can hold anything
at all.  `TagRule.ofName` looks the rule up **in any case of the name's ASCII letters**; an element
without an entry holds anything and is ended by nothing.
-/

namespace Markup.Html

/-- How the text inside an element is read. -/
inductive Content where
  /-- Neither markup nor references. -/
  | rawText
  /-- References, but no markup. -/
  | escapableRawText
  /-- Markup. -/
  | parsableData
deriving DecidableEq, Repr

/-- **What is known of an element by its name.** -/
structure TagRule where
  /-- The names of the elements whose start tag ends it, in ascending order. -/
  closedBy : List String := []
  content : Content := .parsableData
  /-- It has neither content nor an end tag. -/
  isVoid : Bool := false
deriving DecidableEq, Repr

/-- A name with its ASCII letters made small. -/
def lowerName (name : String) : String := String.ofList (name.toList.map Char.toLower)

namespace TagRule

/-- The start tag of `child` ends the element. -/
def isClosedBy (rule : TagRule) (child : String) : Bool :=
  rule.isVoid || rule.closedBy.contains (lowerName child)

/-- The element holds text and nothing else. -/
def isRawText (rule : TagRule) : Bool := rule.content != .parsableData

/-- The elements that are empty. -/
def voidNames : List String :=
  ["area", "base", "br", "col", "embed", "hr", "img", "input", "link", "meta", "param", "source",
   "track", "wbr"]

/-- What ends a paragraph. -/
def paragraphClosers : List String :=
  ["address", "article", "aside", "blockquote", "details", "div", "dl", "fieldset", "figcaption",
   "figure", "footer", "form", "h1", "h2", "h3", "h4", "h5", "h6", "header", "hgroup", "hr", "main",
   "menu", "nav", "ol", "p", "pre", "section", "table", "ul"]

/-- The rules that are not the common one, by small names. -/
def rules : List (String × TagRule) :=
  voidNames.map (fun name => (name, { isVoid := true })) ++
  [("p", { closedBy := paragraphClosers }),
   ("thead", { closedBy := ["tbody", "tfoot"] }),
   ("tbody", { closedBy := ["tbody", "tfoot"] }),
   ("tfoot", { closedBy := ["tbody"] }),
   ("tr", { closedBy := ["tr"] }),
   ("td", { closedBy := ["td", "th"] }),
   ("th", { closedBy := ["td", "th"] }),
   ("li", { closedBy := ["li"] }),
   ("dt", { closedBy := ["dd", "dt"] }),
   ("dd", { closedBy := ["dd", "dt"] }),
   ("rb", { closedBy := ["rb", "rp", "rt", "rtc"] }),
   ("rt", { closedBy := ["rb", "rp", "rt", "rtc"] }),
   ("rp", { closedBy := ["rb", "rp", "rt", "rtc"] }),
   ("rtc", { closedBy := ["rb", "rp", "rtc"] }),
   ("optgroup", { closedBy := ["optgroup"] }),
   ("option", { closedBy := ["optgroup", "option"] }),
   ("script", { content := .rawText }),
   ("style", { content := .rawText }),
   ("textarea", { content := .escapableRawText }),
   ("title", { content := .escapableRawText })]

/-- **The rule of an element.** -/
def ofName (name : String) : TagRule := (rules.lookup (lowerName name)).getD {}

end TagRule

end Markup.Html
