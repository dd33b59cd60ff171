import Markup.Svelte.Clause
import Markup.Svelte.Tag

/-!
# Svelte/Lexeme — what a template goes on with

A `Lexeme` carries the text it was read from.  What may be read **depends on what is open**: an end
tag must name the innermost element, a clause must be one that the innermost block admits.
`Lexeme.next` reads the first lexeme of a text in a given `Context`, or says why there is none;
`append_of_next` says that nothing is lost and `length_lt_of_next` that something is read.
-/

namespace Markup.Svelte

/-- **A piece of a template**, with its text. -/
inductive Lexeme where
  | text (raw : List Char)
  | comment (raw : List Char)
  | mustache (raw : List Char)
  | special (tag : SpecialTag) (raw : List Char)
  /-- A start tag that nothing belongs to: that of a void element, or one that closes itself. -/
  | closedTag (name : String) (raw : List Char)
  | openTag (name : String) (raw : List Char)
  /-- An element with opaque content. -/
  | rawElement (name : String) (startTag content endTag : List Char)
  | openBlock (kind : Block) (raw : List Char)
  /-- A tag that ends a section of the innermost block and opens the next. -/
  | clause (name : String) (raw : List Char)
  /-- The tag that closes what is open innermost. -/
  | closer (raw : List Char)
deriving DecidableEq, Repr

/-- The text that a lexeme was read from. -/
def Lexeme.raw : Lexeme → List Char
  | .text raw | .comment raw | .mustache raw | .special _ raw | .closedTag _ raw | .openTag _ raw
  | .openBlock _ raw | .clause _ raw | .closer raw => raw
  | .rawElement _ startTag content endTag => startTag ++ content ++ endTag

/-- What is open innermost where a lexeme is read. -/
inductive Context where
  | top
  | element (name : String) (startTag : Span)
  /-- A block that begins at `start`, with the names of the clauses it has so far. -/
  | block (kind : Block) (start : Nat) (clauses : List String)
deriving DecidableEq, Repr

/-! ## Blocks -/

/-- The clause or the closing tag of a block. -/
def blockTag (kind : Block) (start : Nat) (clauses : List String) (offset : Nat)
    (cs : List Char) : Except Rejection (Lexeme × List Char) :=
  let noEnd := Fault.noBlockEnd kind.word
  match cs with
  | [] => .error ((Fault.openBlock kind.word).reject start (start + 1))
  | '{' :: ':' :: _ =>
    if kind.admitsClause clauses then do
      let tag ← readBraceTag offset cs
      match kind.clauseName clauses (tag.inner.drop 1) with
      | .ok name => .ok (.clause name tag.raw, tag.rest)
      | .error fault => .error (fault.reject offset (offset + Text.byteSize tag.raw))
    else .error (noEnd.reject offset (offset + 2))
  | '{' :: '/' :: _ => do
    let tag ← readBraceTag offset cs
    if Text.trim (tag.inner.drop 1) = kind.word.toList then .ok (.closer tag.raw, tag.rest)
    else .error (noEnd.reject offset (offset + Text.byteSize tag.raw))
  | _ => .error (noEnd.reject offset (offset + 2))

/-- **What is read of a block goes on with a tag in braces**: a clause that the block admits, or the
tag that closes it. -/
theorem blockTag_eq_ok {kind : Block} {start offset : Nat} {clauses : List String}
    {cs rest : List Char} {lexeme : Lexeme}
    (h : blockTag kind start clauses offset cs = .ok (lexeme, rest)) :
    ∃ tag, braceTag? cs = some tag ∧ rest = tag.rest ∧
      ((∃ name tail, cs = '{' :: ':' :: tail ∧ kind.admitsClause clauses = true ∧
        kind.clauseName clauses (tag.inner.drop 1) = .ok name ∧ lexeme = .clause name tag.raw) ∨
      ∃ tail, cs = '{' :: '/' :: tail ∧ Text.trim (tag.inner.drop 1) = kind.word.toList ∧
        lexeme = .closer tag.raw) := by
  simp only [blockTag] at h
  split at h
  · simp at h
  · split at h
    · next hadmits =>
      obtain ⟨tag, htag, h⟩ := Except.bind_eq_ok.1 h
      split at h
      · next hnamed =>
        cases h
        exact ⟨tag, readBraceTag_eq_ok htag, rfl, Or.inl ⟨_, _, rfl, hadmits, hnamed, rfl⟩⟩
      · simp at h
    · simp at h
  · obtain ⟨tag, htag, h⟩ := Except.bind_eq_ok.1 h
    split at h
    · next hword =>
      cases h
      exact ⟨tag, readBraceTag_eq_ok htag, rfl, Or.inr ⟨_, rfl, hword, rfl⟩⟩
    · simp at h
  · simp at h

theorem append_of_blockTag {kind : Block} {start offset : Nat} {clauses : List String}
    {cs rest : List Char} {lexeme : Lexeme}
    (h : blockTag kind start clauses offset cs = .ok (lexeme, rest)) :
    lexeme.raw ++ rest = cs ∧ lexeme.raw ≠ [] := by
  obtain ⟨tag, htag, rfl, ⟨name, tail, -, -, -, rfl⟩ | ⟨tail, -, -, rfl⟩⟩ := blockTag_eq_ok h
  · exact append_of_braceTag? htag
  · exact append_of_braceTag? htag

/-! ## Nodes -/

/-- What a text begins with. -/
inductive Opening where
  /-- An end tag, a clause or a closing tag: siblings end here. -/
  | boundary
  | comment
  | startTag
  | brace
  | text
deriving DecidableEq, Repr

/-- **What a text begins with.** -/
def opening : List Char → Opening
  | '{' :: ':' :: _ | '{' :: '/' :: _ | '<' :: '/' :: _ => .boundary
  | '{' :: _ => .brace
  | '<' :: '!' :: '-' :: '-' :: _ => .comment
  | '<' :: c :: _ => if Text.isLetter c then .startTag else .text
  | _ => .text

/-- A text split before the first thing after its first character that is not text. -/
def textRun : List Char → List Char × List Char
  | [] => ([], [])
  | c :: cs =>
    match Text.cutWhere (fun cs => opening cs != .text) cs with
    | none => (c :: cs, [])
    | some (run, rest) => (c :: run, rest)

/-- The comment that the text at an offset begins with. -/
def comment (offset : Nat) (cs : List Char) : Except Rejection (List Char × List Char) :=
  match Text.cut ['-', '-', '>'] (cs.drop 4) with
  | none => .error (Fault.openComment.reject offset (offset + 4))
  | some (body, rest) => .ok (cs.take 4 ++ body ++ rest.take 3, rest.drop 3)

/-- The expression, block or special tag that the text at an offset begins with. -/
def mustache (offset : Nat) (cs : List Char) : Except Rejection (Lexeme × List Char) := do
  let tag ← readBraceTag offset cs
  let stop := offset + Text.byteSize tag.raw
  match tag.inner with
  | '#' :: header =>
    match Block.ofHeader? header with
    | some kind => .ok (.openBlock kind tag.raw, tag.rest)
    | none =>
      .error ((Fault.unknownBlock (String.ofList (Text.leadingWord header))).reject offset stop)
  | '@' :: header =>
    let word := String.ofList (Text.leadingWord header)
    match SpecialTag.ofWord? word with
    | some special => .ok (.special special tag.raw, tag.rest)
    | none => .error ((Fault.unknownTag word).reject offset stop)
  | _ => .ok (.mustache tag.raw, tag.rest)

/-- The content and end tag of an element with opaque content, which begins at an offset. -/
def rawContent (config : Config) (name closing : String) (startTag : Span) (cs : List Char) :
    Except Rejection ((List Char × List Char) × List Char) :=
  match Text.cut closing.toList cs with
  | none => .error ((Fault.openElement name).reject startTag.start startTag.stop)
  | some (content, rest) => do
    let (tag, rest) ←
      endTag config name startTag (startTag.stop + Text.byteSize content) rest
    return ((content, tag), rest)

/-- The start tag that the text at an offset begins with, and all that belongs to it. -/
def startTag (config : Config) (offset : Nat) (cs : List Char) :
    Except Rejection (Lexeme × List Char) :=
  let nameChars := leadingName (cs.drop 1)
  let name := String.ofList nameChars
  let stop := offset + Text.byteSize cs
  match tagTail (afterName (cs.drop 1)) with
  | .error (.tag, _) => .error ((Fault.openStartTag name).reject offset stop)
  | .error (.value, unread) => .error (Fault.openValue.reject (stop - Text.byteSize unread) stop)
  | .error (.expression, unread) =>
    .error (Fault.openExpression.reject (stop - Text.byteSize unread) stop)
  | .ok tail =>
    let raw := cs.take 1 ++ nameChars ++ tail.raw
    if tail.selfClosing ∨ isVoidName name then .ok (.closedTag name raw, tail.rest)
    else
      match config.rawTextEnd? name with
      | none => .ok (.openTag name raw, tail.rest)
      | some closing => do
        let ((content, endTag), rest) ←
          rawContent config name closing ⟨offset, offset + Text.byteSize raw⟩ tail.rest
        return (.rawElement name raw content endTag, rest)

/-- **What a brace begins is one tag in braces**, and its sign says which. -/
theorem mustache_eq_ok {offset : Nat} {cs rest : List Char} {lexeme : Lexeme}
    (h : mustache offset cs = .ok (lexeme, rest)) :
    ∃ tag, braceTag? cs = some tag ∧ rest = tag.rest ∧
      ((∃ kind header, tag.inner = '#' :: header ∧ Block.ofHeader? header = some kind ∧
        lexeme = .openBlock kind tag.raw) ∨
      (∃ special header, tag.inner = '@' :: header ∧
        SpecialTag.ofWord? (String.ofList (Text.leadingWord header)) = some special ∧
        lexeme = .special special tag.raw) ∨
      (tag.inner.head? ≠ some '#' ∧ tag.inner.head? ≠ some '@') ∧ lexeme = .mustache tag.raw) := by
  obtain ⟨tag, htag, h⟩ := Except.bind_eq_ok.1 h
  refine ⟨tag, readBraceTag_eq_ok htag, ?_⟩
  simp only at h
  split at h
  · next hinner =>
    split at h
    · next hkind =>
      cases h
      exact ⟨rfl, Or.inl ⟨_, _, hinner, hkind, rfl⟩⟩
    · simp at h
  · next hinner =>
    split at h
    · next hspecial =>
      cases h
      exact ⟨rfl, Or.inr (Or.inl ⟨_, _, hinner, hspecial, rfl⟩)⟩
    · simp at h
  · next hblock hspecial =>
    cases h
    refine ⟨rfl, Or.inr (Or.inr ⟨⟨fun hsign => ?_, fun hsign => ?_⟩, rfl⟩)⟩
    · obtain ⟨header, hinner⟩ := List.head?_eq_some_iff.1 hsign
      exact hblock header hinner
    · obtain ⟨header, hinner⟩ := List.head?_eq_some_iff.1 hsign
      exact hspecial header hinner

theorem append_of_mustache {offset : Nat} {cs rest : List Char} {lexeme : Lexeme}
    (h : mustache offset cs = .ok (lexeme, rest)) : lexeme.raw ++ rest = cs ∧ lexeme.raw ≠ [] := by
  obtain ⟨tag, htag, rfl, ⟨kind, header, -, -, rfl⟩ | ⟨special, header, -, -, rfl⟩ | ⟨-, rfl⟩⟩ :=
    mustache_eq_ok h
  · exact append_of_braceTag? htag
  · exact append_of_braceTag? htag
  · exact append_of_braceTag? htag

theorem append_of_comment {offset : Nat} {cs raw rest : List Char}
    (h : comment offset cs = .ok (raw, rest)) : raw ++ rest = cs ∧ (cs ≠ [] → raw ≠ []) := by
  rw [comment] at h
  split at h
  · simp at h
  · next hc =>
    cases h
    exact ⟨by simp [Text.append_of_cut hc], fun hcs => by simp [hcs]⟩

theorem append_of_rawContent {config : Config} {name closing : String} {startTag : Span}
    {cs content raw rest : List Char}
    (h : rawContent config name closing startTag cs = .ok ((content, raw), rest)) :
    content ++ (raw ++ rest) = cs ∧ raw ≠ [] := by
  rw [rawContent] at h
  split at h
  · simp at h
  · next hcut =>
    obtain ⟨⟨raw', rest'⟩, hend, h⟩ := Except.bind_eq_ok.1 h
    cases h
    obtain ⟨happ, hne⟩ := append_of_endTag hend
    exact ⟨happ ▸ Text.append_of_cut hcut, hne⟩

/-- **What a start tag begins** is the tag alone, or an element with opaque content. -/
theorem startTag_eq_ok {config : Config} {offset : Nat} {cs rest : List Char} {lexeme : Lexeme}
    (h : startTag config offset cs = .ok (lexeme, rest)) :
    ∃ tail, tagTail (afterName (cs.drop 1)) = .ok tail ∧
      let name := String.ofList (leadingName (cs.drop 1))
      let raw := cs.take 1 ++ leadingName (cs.drop 1) ++ tail.raw
      ((tail.selfClosing = true ∨ isVoidName name = true) ∧ rest = tail.rest ∧
        lexeme = .closedTag name raw) ∨
      ¬(tail.selfClosing = true ∨ isVoidName name = true) ∧
        (rest = tail.rest ∧ lexeme = .openTag name raw ∨
          ∃ closing span content endTag, lexeme = .rawElement name raw content endTag ∧
            rawContent config name closing span tail.rest = .ok ((content, endTag), rest)) := by
  simp only [startTag] at h
  split at h
  · simp at h
  · simp at h
  · simp at h
  · next tail htail =>
    refine ⟨tail, htail, ?_⟩
    split at h
    · next hclosed =>
      cases h
      exact Or.inl ⟨hclosed, rfl, rfl⟩
    · next hopen =>
      refine Or.inr ⟨hopen, ?_⟩
      split at h
      · cases h
        exact Or.inl ⟨rfl, rfl⟩
      · obtain ⟨⟨⟨content, endTag⟩, after⟩, hcontent, h⟩ := Except.bind_eq_ok.1 h
        cases h
        exact Or.inr ⟨_, _, content, endTag, rfl, hcontent⟩

theorem append_of_startTag {config : Config} {offset : Nat} {cs rest : List Char} {lexeme : Lexeme}
    (h : startTag config offset cs = .ok (lexeme, rest)) :
    lexeme.raw ++ rest = cs ∧ lexeme.raw ≠ [] := by
  obtain ⟨tail, htail, hlexeme⟩ := startTag_eq_ok h
  obtain ⟨happ, hne⟩ := append_of_tagTail htail
  have htag : cs.take 1 ++ leadingName (cs.drop 1) ++ tail.raw ++ tail.rest = cs := by
    rw [List.append_assoc, List.append_assoc, happ, leadingName_append_afterName,
      List.take_append_drop]
  obtain ⟨-, rfl, rfl⟩ | ⟨-, ⟨rfl, rfl⟩ | ⟨_, _, content, endTag, rfl, hcontent⟩⟩ := hlexeme
  · exact ⟨htag, by simp [Lexeme.raw, hne]⟩
  · exact ⟨htag, by simp [Lexeme.raw, hne]⟩
  · refine ⟨?_, by simp [Lexeme.raw, hne]⟩
    rw [Lexeme.raw, List.append_assoc, List.append_assoc, (append_of_rawContent hcontent).1, htag]

theorem append_textRun (cs : List Char) :
    (textRun cs).1 ++ (textRun cs).2 = cs ∧ (cs ≠ [] → (textRun cs).1 ≠ []) := by
  cases cs with
  | nil => exact ⟨rfl, absurd rfl⟩
  | cons c cs =>
    simp only [textRun]
    split
    · simp
    · next h => simp [Text.append_of_cutWhere h]

/-! ## Lexemes -/

/-- What goes on from a boundary. -/
def boundary (config : Config) (context : Context) (offset : Nat) (cs : List Char) :
    Except Rejection (Lexeme × List Char) :=
  match context with
  | .top => .error (unexpected offset cs)
  | .element name startTag => do
    let (raw, rest) ← endTag config name startTag offset cs
    return (.closer raw, rest)
  | .block kind start clauses => blockTag kind start clauses offset cs

/-- **What goes on from a boundary** closes an element or belongs to a block. -/
theorem boundary_eq_ok {config : Config} {context : Context} {offset : Nat} {cs rest : List Char}
    {lexeme : Lexeme} (h : boundary config context offset cs = .ok (lexeme, rest)) :
    (∃ name startTag raw, context = .element name startTag ∧
      endTag config name startTag offset cs = .ok (raw, rest) ∧ lexeme = .closer raw) ∨
    ∃ kind start clauses, context = .block kind start clauses ∧
      blockTag kind start clauses offset cs = .ok (lexeme, rest) := by
  cases context with
  | top => simp [boundary] at h
  | element name startTag =>
    obtain ⟨⟨raw, after⟩, hend, h⟩ := Except.bind_eq_ok.1 h
    cases h
    exact Or.inl ⟨name, startTag, raw, rfl, hend, rfl⟩
  | block kind start clauses => exact Or.inr ⟨kind, start, clauses, rfl, h⟩

theorem append_of_boundary {config : Config} {context : Context} {offset : Nat}
    {cs rest : List Char} {lexeme : Lexeme}
    (h : boundary config context offset cs = .ok (lexeme, rest)) :
    lexeme.raw ++ rest = cs ∧ lexeme.raw ≠ [] := by
  obtain ⟨name, startTag, raw, rfl, hend, rfl⟩ | ⟨kind, start, clauses, rfl, hblock⟩ :=
    boundary_eq_ok h
  · exact append_of_endTag hend
  · exact append_of_blockTag hblock

/-- **The first lexeme of the text at an offset**, and what follows it. -/
def Lexeme.next (config : Config) (context : Context) (offset : Nat) (cs : List Char) :
    Except Rejection (Lexeme × List Char) :=
  match opening cs with
  | .boundary => boundary config context offset cs
  | .comment => do
    let (raw, rest) ← Svelte.comment offset cs
    return (.comment raw, rest)
  | .startTag => startTag config offset cs
  | .brace => Svelte.mustache offset cs
  | .text =>
    let parts := textRun cs
    .ok (.text parts.1, parts.2)

namespace Lexeme

variable {config : Config} {context : Context} {offset : Nat} {cs rest : List Char}
  {lexeme : Lexeme}

/-- **Nothing is lost**, for what was read and what was not are the text, and something is read of a
text that is not empty. -/
theorem append_of_next (h : next config context offset cs = .ok (lexeme, rest)) :
    lexeme.raw ++ rest = cs ∧ (cs ≠ [] → lexeme.raw ≠ []) := by
  rw [next] at h
  split at h
  · exact (append_of_boundary h).imp_right fun hne _ => hne
  · obtain ⟨⟨raw, after⟩, hcomment, h⟩ := Except.bind_eq_ok.1 h
    cases h
    exact append_of_comment hcomment
  · exact (append_of_startTag h).imp_right fun hne _ => hne
  · exact (append_of_mustache h).imp_right fun hne _ => hne
  · cases h
    exact append_textRun cs

theorem length_lt_of_next (h : next config context offset cs = .ok (lexeme, rest))
    (hc : cs ≠ []) : rest.length < cs.length := by
  obtain ⟨happend, hne⟩ := append_of_next h
  have happ := congrArg List.length happend
  have hpos := List.length_pos_iff.2 (hne hc)
  simp only [List.length_append] at happ
  omega

end Lexeme

end Markup.Svelte
