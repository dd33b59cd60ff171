import Markup.Svelte.Fault
import Markup.Svelte.Tree
import Markup.Text.Search

/-!
# Svelte/Clause — the headers of blocks and the clauses that they admit

`Block.ofHeader?` reads what a block is off its header, and `Block.clauseName` says **which clause a
tag opens in a block**, given the clauses that came before.
-/

namespace Markup.Svelte

namespace Block

/-- After these clauses the block may go on with another. -/
def admitsClause (kind : Block) (clauses : List String) : Bool :=
  match kind with
  | .cond => !clauses.contains "else"
  | .each => clauses.isEmpty
  | .await _ => true
  | .key | .snippet => false

/-- The text after a colon opens a further alternative of a conditional. -/
def isElseIf (header : List Char) : Bool :=
  ['e', 'l', 's', 'e'].isPrefixOf header &&
    let condition := (header.drop 4).dropWhile Text.isSpace
    ['i', 'f'].isPrefixOf condition && (condition.drop 2).head?.all Text.isBlank

/-- **The name of the clause that a tag opens**, by the text after its colon. -/
def clauseName (kind : Block) (clauses : List String) (header : List Char) : Except Fault String :=
  let isElse := header.dropWhile Text.isSpace = ['e', 'l', 's', 'e']
  match kind with
  | .cond =>
    if isElse then .ok "else"
    else if isElseIf (header.dropWhile Text.isSpace) then .ok "elseif"
    else .error .noAlternative
  | .await shorthand =>
    match Phase.ofWord? (String.ofList (Text.leadingWord header)) with
    | none => .error .noPhase
    | some phase =>
      if shorthand = some .rejected ∨ shorthand = some phase ∨ clauses.contains phase.word then
        .error (.duplicate phase.word)
      else .ok phase.word
  | _ => if isElse then .ok "else" else .error .noElse

/-- The phase that the header of a wait opens: the first word for one after the waiting and its
subject. -/
def shorthand? (header : List Char) : Option Phase :=
  ((Text.words header).drop 2).findSome? fun word => Phase.ofWord? (String.ofList word)

/-- The block that a header opens. -/
def ofHeader? (header : List Char) : Option Block :=
  match String.ofList (Text.leadingWord header) with
  | "if" => some .cond
  | "each" => some .each
  | "await" => some (.await (shorthand? header))
  | "key" => some .key
  | "snippet" => some .snippet
  | _ => none

end Block

end Markup.Svelte
