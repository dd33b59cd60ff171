import Markup.Construct.Basic
import Markup.Error

/-!
# Construct/Branches — a construct as a row of branches that tile it

`Construct.branches` turns a construct into `Branches`: each branch covers **the text from where the
last body ended to where its own begins** and owns the children written after it, and a closing
branch covers what remains.  A section without a header of its own gives its children to the branch
before it, or to the orphans if there is none.
-/

namespace Markup

/-- A branch: its role, the header that it covers, and the children it owns, group by group. -/
structure Branch (α : Type) where
  role : String
  span : Span
  groups : List (List α) := []

/-- The branch closes its construct. -/
def Branch.isClosing {α : Type} (b : Branch α) : Bool := b.role.toList.head? == some '/'

/-- The branches of a construct in order, and the children that come before all of them. -/
structure Branches (α : Type) where
  branches : List (Branch α)
  orphans : List (List α)

/-- A visited section: its header, if it has any text, and its children. -/
structure Piece (α : Type) where
  role : String
  header : Option Span
  children : List α

namespace Piece

variable {α : Type}

/-- **Children follow the last header before them.** -/
def gather : List (Piece α) → Branches α
  | [] => ⟨[], []⟩
  | piece :: pieces =>
    let rest := gather pieces
    let groups := if piece.children.isEmpty then rest.orphans else piece.children :: rest.orphans
    match piece.header with
    | none => ⟨rest.branches, groups⟩
    | some span => ⟨⟨piece.role, span, groups⟩ :: rest.branches, []⟩

end Piece

namespace Construct

variable {α : Type} [Spanned α]

/-- The pieces of the sections visited from `cursor` on, and where the last body ends; or the header
that ends before it begins. -/
def pieces (cursor : Nat) : List (String × Section α) → Except Span (List (Piece α) × Nat)
  | [] => .ok ([], cursor)
  | (role, s) :: rest =>
    let stop := s.bodyStart
    if stop < cursor then .error ⟨cursor, stop⟩
    else do
      let header := if cursor = stop then none else some ⟨cursor, stop⟩
      let (after, last) ← pieces (max s.bodyEnd stop) rest
      return (⟨role, header, s.children⟩ :: after, last)

/-- The piece that closes a construct of which all before `cursor` is covered: what remains, less
the blanks that lead it. -/
def closing (text : List Char) (name : String) (cursor stop : Nat) :
    Except Span (Option (Piece α)) :=
  if stop < cursor then .error ⟨cursor, stop⟩
  else
    let trailing := (Text.slice? cursor stop text).getD []
    let start := cursor + Text.byteSize (trailing.takeWhile Text.isBlank)
    .ok (if start < stop then some ⟨"/" ++ name, some ⟨start, stop⟩, []⟩ else none)

/-- All pieces of a construct, the closing one last. -/
def allPieces (c : Construct α) (text : List Char) : Except Span (List (Piece α)) := do
  let (opened, cursor) ← pieces c.span.start c.visits
  let closed ← closing text c.name cursor c.span.stop
  return opened ++ closed.toList

/-- **The branches of a construct**; a header that ends before it begins is refused at the whole. -/
def branches (c : Construct α) (source : Source) : Except Error (Branches α) :=
  match c.allPieces source.text with
  | .ok pieces => .ok (Piece.gather pieces)
  | .error range => do
    let token ← source.slice c.span
    throw ⟨.negativeBranch range, token⟩

end Construct

end Markup
