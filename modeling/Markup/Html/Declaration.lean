import Markup.Html.Lexeme
import Markup.Node.Basic

/-!
# Html/Declaration — what the beginning of a document declares

`doctypeOf` reads the name and the identifiers of a document type declaration; **what does not
fit is left out**, and so is all after it.  `isDocumentStart` tells whole documents from fragments.
Keywords are read in any case, where the long s and the Kelvin sign count as `s` and `k`.
-/

namespace Markup.Html

/-- A character with its case taken away. -/
def foldCase (c : Char) : Char :=
  if c = '\u017f' then 's' else if c = '\u212a' then 'k' else c.toLower

/-- What follows a keyword, given in small letters, if the text begins with it in any case. -/
def afterKeyword? (word cs : List Char) : Option (List Char) :=
  if (cs.take word.length).map foldCase = word then some (cs.drop word.length) else none

/-- What follows white space, of which there must be some. -/
def afterSpace? (cs : List Char) : Option (List Char) :=
  if cs.head?.any Text.isSpace then some (cs.dropWhile Text.isSpace) else none

/-- A quote of either kind: the closing one need not be like the opening one. -/
def isQuote (c : Char) : Bool := c == '"' || c == '\''

/-- A quoted identifier after white space, and what follows it. -/
def identifier? (cs : List Char) : Option (List Char × List Char) :=
  match afterSpace? cs with
  | some (q :: inner) =>
    if isQuote q then
      match inner.dropWhile fun c => !isQuote c with
      | [] => none
      | _ :: rest => some (inner.takeWhile fun c => !isQuote c, rest)
    else none
  | _ => none

/-- What a declaration says after its name: a public identifier and what follows it, or that there
is none. -/
def publicPart? (cs : List Char) : Option (List Char × List Char) :=
  (afterSpace? cs).bind fun cs =>
    match (afterKeyword? ['p', 'u', 'b', 'l', 'i', 'c'] cs).bind identifier? with
    | some part => some part
    | none => (afterKeyword? ['s', 'y', 's', 't', 'e', 'm'] cs).map fun rest => ([], rest)

/-- **The document type that a declaration states.** -/
def doctypeOf (cs : List Char) : Doctype :=
  match (afterKeyword? doctypeStart cs).bind afterSpace? with
  | none => {}
  | some cs =>
    let isNameChar := fun c : Char => !Text.isSpace c && c != '>'
    let name := cs.takeWhile isNameChar
    if name.isEmpty then {}
    else
      match publicPart? (cs.dropWhile isNameChar) with
      | none => { name := String.ofList name }
      | some (publicId, rest) =>
        { name := String.ofList name
          publicId := String.ofList publicId
          systemId := String.ofList (((identifier? rest).map Prod.fst).getD []) }

/-- After its name, a tag of a document's first element goes on or ends. -/
def endsName (cs : List Char) : Bool :=
  cs.head?.any fun c => Text.isSpace c || c == '>'

/-- **A whole document begins here**: after white space, with a declaration of `html` that is closed
or with the tag of that element. -/
def isDocumentStart (cs : List Char) : Bool :=
  let cs := cs.dropWhile Text.isSpace
  let declared := ((afterKeyword? doctypeStart cs).bind afterSpace?).bind
    (afterKeyword? ['h', 't', 'm', 'l'])
  declared.any (fun rest => endsName rest && rest.contains '>') ||
    (afterKeyword? ['<', 'h', 't', 'm', 'l'] cs).any endsName

end Markup.Html
