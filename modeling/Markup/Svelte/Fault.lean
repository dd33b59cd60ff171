import Markup.Error

/-!
# Svelte/Fault — why a template is refused

A `Fault` says what is wrong; **all wording is in `Fault.message`**.  `Fault.reject` points it at a
range of the text.
-/

namespace Markup.Svelte

/-- **Why a template is refused.** -/
inductive Fault where
  | openComment
  | openStartTag (name : String)
  /-- A quoted value in a start tag that is left open. -/
  | openValue
  /-- An expression in a start tag that is left open. -/
  | openExpression
  /-- A tag in braces that is left open. -/
  | openMustache
  | openElement (name : String)
  | openBlock (word : String)
  | unknownBlock (word : String)
  | unknownTag (word : String)
  /-- An end tag where no element is open. -/
  | strayEndTag (name : String)
  /-- A clause or closing tag where no block is open. -/
  | strayBlockTag
  /-- An end tag of another name than the element. -/
  | mismatch (closing name : String)
  /-- An end tag that goes on after its name. -/
  | noBracket
  /-- A clause of a conditional that opens neither kind of alternative. -/
  | noAlternative
  /-- A clause of an iteration that is not its last part. -/
  | noElse
  /-- A clause of a wait that opens no phase. -/
  | noPhase
  | duplicate (word : String)
  /-- Something else where a block has to be closed. -/
  | noBlockEnd (word : String)
deriving DecidableEq, Repr

namespace Fault

/-- **The text of a fault.** -/
def message : Fault → String
  | .openComment => "comment was left open"
  | .openStartTag name => "<" ++ name ++ "> start tag was left open"
  | .openValue => "Unclosed attribute value"
  | .openExpression => "Unclosed expression in attribute"
  | .openMustache => "Unclosed mustache tag"
  | .openElement name => "<" ++ name ++ "> was left open"
  | .openBlock word => "Block \x7b#" ++ word ++ "\x7d was left open"
  | .unknownBlock word => "Unknown block type \"" ++ word ++ "\""
  | .unknownTag word => "Unknown tag \"@" ++ word ++ "\""
  | .strayEndTag name => "</" ++ name ++ "> attempted to close an element that was not open"
  | .strayBlockTag => "Unexpected block tag"
  | .mismatch closing name => "</" ++ closing ++ "> attempted to close <" ++ name ++ ">"
  | .noBracket => "Expected >"
  | .noAlternative => "Expected \x7b:else\x7d or \x7b:else if ...\x7d"
  | .noElse => "Expected \x7b:else\x7d"
  | .noPhase => "Expected \x7b:then ...\x7d or \x7b:catch ...\x7d"
  | .duplicate word => "Duplicate \x7b:" ++ word ++ "\x7d block"
  | .noBlockEnd word => "Expected \x7b/" ++ word ++ "\x7d"

/-- The fault, pointed at a range. -/
def reject (f : Fault) (start stop : Nat) : Rejection := ⟨f.message, ⟨start, stop⟩⟩

end Fault

end Markup.Svelte
