import Markup.Text.Search

/-!
# Config — what is fixed for a dialect

A `Config` says how missing end tags are taken, whether tag names differ by case, and which
elements hold opaque text.  `Config.rawTextEnd?` and `Config.namesMatch` are the two questions that
readers ask of it.
-/

namespace Markup

/-- How a dialect treats missing end tags. -/
inductive EndTags where
  /-- An element that is not void is closed by its end tag or a slash. -/
  | xml
  /-- What follows may close an element. -/
  | omittable
  /-- There are no end tags. -/
  | never
deriving DecidableEq, Repr

/-- A region of **opaque text**, from its opening to its closing text. -/
structure IgnoredTag where
  kind : String
  opening : String
  closing : String
deriving DecidableEq, Repr

namespace IgnoredTag

/-- The element of a name: it opens with its start tag and closes with its end tag. -/
def element (name : String) : IgnoredTag := ⟨name, "<" ++ name, "</" ++ name⟩

/-- The region is the element of this name, in any case of its ASCII letters. -/
def isElement (tag : IgnoredTag) (name : String) : Bool :=
  Text.equalIgnoreCase tag.kind.toList name.toList &&
    Text.equalIgnoreCase tag.opening.toList ('<' :: name.toList)

end IgnoredTag

/-- **What is fixed for a dialect.** -/
structure Config where
  endTags : EndTags := .omittable
  caseSensitive : Bool := false
  ignored : List IgnoredTag := []
deriving DecidableEq, Repr

namespace Config

/-- The text that ends the opaque text of an element, if the element is in the list: the first
entry for it counts. -/
def rawTextEnd? (config : Config) (name : String) : Option String :=
  (config.ignored.find? fun tag => tag.isElement name).map IgnoredTag.closing

/-- The names are the same in the dialect. -/
def namesMatch (config : Config) (a b : String) : Bool :=
  if config.caseSensitive then a == b else Text.equalIgnoreCase a.toList b.toList

end Config

end Markup
