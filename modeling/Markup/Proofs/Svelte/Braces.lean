import Markup.Proofs.Expression.Nested
import Markup.Proofs.Svelte.Tag
import Markup.Proofs.Text.Search
import Markup.Svelte.Clause

/-!
# Proofs/Svelte/Braces — written tags in braces are read back

A tag in braces holds a well-nested expression, so **it ends with its own brace**
(`braceTag?_writeBraces`).  Behind the word of a block, a clause or a special tag stand a space and
more such code: the tag is known by that word (`IsKeyword.trim_wordTag`), so a written header opens
its block (`Head.ofHeader?_eq`) and a written clause is admitted where the block may go on with it
(`Block.clauseName_eq`).
-/

namespace Markup.Svelte

open Expression (WellNested IsPlain)

/-! ## Tags in braces -/

section Braces

variable {inner code word : List Char} {sign c : Char}

/-- A tag in braces as it is written. -/
def writeBraces (inner : List Char) : List Char := '{' :: (inner ++ ['}'])

/-- The inside of a tag that a sign and a word begin. -/
def wordTag (sign : Char) (word code : List Char) : List Char := sign :: (word ++ ' ' :: code)

/-- **A written tag ends with its own brace.** -/
theorem braceTag?_writeBraces (h : WellNested .code inner) (rest : List Char) :
    braceTag? (writeBraces inner ++ rest) = some ⟨Text.trim inner, writeBraces inner, rest⟩ := by
  have hwritten : writeBraces inner ++ rest = '{' :: (inner ++ '}' :: rest) := by simp [writeBraces]
  rw [hwritten, braceTag?, h.split?_append]
  rfl

theorem readBraceTag_writeBraces (h : WellNested .code inner) (offset : Nat) (rest : List Char) :
    readBraceTag offset (writeBraces inner ++ rest) =
      .ok ⟨Text.trim inner, writeBraces inner, rest⟩ := by
  rw [readBraceTag, braceTag?_writeBraces h]

/-- A sign and a word are code. -/
theorem wellNested_wordTag (hsign : IsPlain sign) (hword : ∀ c ∈ word, IsPlain c)
    (h : WellNested .code code) : WellNested .code (wordTag sign word code) :=
  .plain hsign ((WellNested.of_plain hword).append rfl (.plain (by decide) h))

/-- **What is trimmed off a tag stands behind its word**: what is left behind that begins with a
space, if it is anything, and has the same words. -/
theorem trim_wordTag (sign : Char) (word : List Char) (hsign : Text.isSpace sign = false)
    (hword : word.getLast?.all Text.isSpace = false) (code : List Char) :
    ∃ tail, Text.trim (wordTag sign word code) = sign :: (word ++ tail) ∧
      (tail = [] ∨ tail.head? = some ' ') ∧ Text.words tail = Text.words code := by
  refine ⟨Text.trimEnd Text.isSpace (' ' :: code), ?_, ?_, ?_⟩
  · rw [wordTag, Text.trim_cons_of_not hsign, Text.trimEnd_append hword]
  · obtain ⟨back, htext, -⟩ := Text.exists_append_trimEnd Text.isSpace (' ' :: code)
    cases htail : Text.trimEnd Text.isSpace (' ' :: code) with
    | nil => exact Or.inl rfl
    | cons d tail =>
      rw [htail, List.cons_append] at htext
      exact Or.inr (congrArg some (List.cons.inj htext).1.symm)
  · rw [Text.words_trimEnd]
    exact Text.words_append_cons [] (by decide)

/-- **A word that a tag may begin with**: letters and digits. -/
structure IsKeyword (word : List Char) : Prop where
  ne_nil : word ≠ []
  alphanum : ∀ c ∈ word, c.isAlphanum = true

instance (word : List Char) : Decidable (IsKeyword word) :=
  decidable_of_iff (word ≠ [] ∧ word.all Char.isAlphanum = true)
    ⟨fun h => ⟨h.1, List.all_eq_true.1 h.2⟩, fun h => ⟨h.ne_nil, List.all_eq_true.2 h.alphanum⟩⟩

theorem isPlain_of_isAlphanum (h : c.isAlphanum = true) : IsPlain c :=
  Text.not_mem_of_isAlphanum (by decide) h

namespace IsKeyword

theorem wellNested_wordTag (hword : IsKeyword word) (sign : Char) (hsign : IsPlain sign)
    (h : WellNested .code code) : WellNested .code (wordTag sign word code) :=
  Svelte.wellNested_wordTag hsign (fun c hc => isPlain_of_isAlphanum (hword.alphanum c hc)) h

/-- **A tag that begins with a word is known by it**, and has the words of what stands behind it. -/
theorem trim_wordTag (hword : IsKeyword word) (sign : Char) (hsign : Text.isSpace sign = false)
    (code : List Char) :
    ∃ header, Text.trim (wordTag sign word code) = sign :: header ∧
      Text.leadingWord header = word ∧ Text.words header = word :: Text.words code := by
  have hlast : word.getLast?.all Text.isSpace = false := by
    have hmem := List.getLast_mem hword.ne_nil
    rw [List.getLast?_eq_some_getLast hword.ne_nil, Option.all_some,
      Text.isSpace_of_isAlphanum (hword.alphanum _ hmem)]
  obtain ⟨tail, htrim, htail, hwords⟩ := Svelte.trim_wordTag sign word hsign hlast code
  refine ⟨word ++ tail, htrim, ?_, ?_⟩
  · refine Text.leadingWord_append hword.ne_nil hword.alphanum ?_
    rcases htail with rfl | hspace
    · rfl
    · rw [hspace]
      decide
  · have hone := Text.words_of_isAlphanum hword.ne_nil hword.alphanum
    rcases htail with rfl | hspace
    · rw [← hwords, List.append_nil, hone]
      rfl
    · obtain ⟨others, rfl⟩ := List.head?_eq_some_iff.1 hspace
      have hothers : Text.words (' ' :: others) = Text.words others :=
        Text.words_append_cons [] (by decide)
      rw [Text.words_append_cons word (by decide), hone, ← hwords, hothers]
      rfl

end IsKeyword

theorem isKeyword_block (kind : Block) : IsKeyword kind.word.toList := by
  have hword : ∀ word ∈ ["if", "each", "await", "key", "snippet"], IsKeyword word.toList := by
    decide
  exact hword kind.word (by cases kind <;> simp [Block.word])

theorem isKeyword_phase (phase : Phase) : IsKeyword phase.word.toList := by
  cases phase <;> decide

theorem isKeyword_special (tag : SpecialTag) : IsKeyword tag.word.toList := by
  cases tag <;> decide

end Braces

/-! ## Headers of blocks -/

/-- **The tag that opens a block**, with the expressions in it. -/
inductive Head where
  | cond (condition : List Char)
  | each (items : List Char)
  | await (promise : List Char)
  /-- A wait whose header opens a phase at once. -/
  | awaitPhase (promise : List Char) (phase : Phase) (binding : List Char)
  | key (value : List Char)
  | snippet (signature : List Char)
deriving DecidableEq, Repr

namespace Head

/-- The block that it opens. -/
def kind : Head → Block
  | cond _ => .cond
  | each _ => .each
  | await _ => .await none
  | awaitPhase _ phase _ => .await (some phase)
  | key _ => .key
  | snippet _ => .snippet

/-- What stands behind the word of the block. -/
def subject : Head → List Char
  | cond code | each code | await code | key code | snippet code => code
  | awaitPhase promise phase binding =>
    promise ++ ' ' :: (phase.word.toList ++ ' ' :: binding)

/-- The tag as it is written. -/
def write (h : Head) : List Char := writeBraces (wordTag '#' h.kind.word.toList h.subject)

/-- The expressions of a header are well nested. -/
def WellNested : Head → Prop
  | cond code | each code | await code | key code | snippet code => Expression.WellNested .code code
  | awaitPhase promise _ binding =>
    Expression.WellNested .code promise ∧ Expression.WellNested .code binding

/-- **The header of a wait is read with the phase that it is written with**: behind the first word
of the subject, the first word of a phase is the one that is written, or there is none.  The reader
looks at words alone, so that a word in a string counts like any other. -/
def ReadAsWritten : Head → Prop
  | await promise =>
    (Text.words promise).tail.findSome? (fun word => Phase.ofWord? (String.ofList word)) = none
  | awaitPhase promise phase binding =>
    (Text.words promise ++ phase.word.toList :: Text.words binding).tail.findSome?
      (fun word => Phase.ofWord? (String.ofList word)) = some phase
  | _ => True

instance : (h : Head) → Decidable h.ReadAsWritten
  | await _ => inferInstanceAs (Decidable (_ = none))
  | awaitPhase _ phase _ => inferInstanceAs (Decidable (_ = some phase))
  | cond _ | each _ | key _ | snippet _ => isTrue trivial

theorem wellNested_subject {h : Head} (hnested : h.WellNested) :
    Expression.WellNested .code h.subject := by
  cases h with
  | awaitPhase promise phase binding =>
    have hspace : IsPlain ' ' := by decide
    have hword : ∀ c ∈ phase.word.toList, IsPlain c := fun c hc =>
      isPlain_of_isAlphanum ((isKeyword_phase phase).alphanum c hc)
    have hbinding := (WellNested.of_plain hword).append rfl (.plain hspace hnested.2)
    exact WellNested.append hnested.1 rfl (.plain hspace hbinding)
  | _ => exact hnested

/-- The phase that a header with the same words opens is the one that it is written with. -/
theorem readAsWritten_iff {h : Head} {header : List Char}
    (hwords : Text.words header = h.kind.word.toList :: Text.words h.subject) :
    h.ReadAsWritten ↔
      ∀ shorthand, h.kind = .await shorthand → Block.shorthand? header = shorthand := by
  have hshorthand : Block.shorthand? header = (Text.words h.subject).tail.findSome?
      (fun word => Phase.ofWord? (String.ofList word)) := by
    rw [Block.shorthand?, hwords, List.drop_succ_cons, List.drop_one]
  rw [hshorthand]
  cases h with
  | await promise => simp [ReadAsWritten, kind, subject]
  | awaitPhase promise phase binding =>
    have hsubject : Text.words (awaitPhase promise phase binding).subject =
        Text.words promise ++ phase.word.toList :: Text.words binding := by
      have hphase := isKeyword_phase phase
      rw [subject, Text.words_append_cons _ (by decide), Text.words_append_cons _ (by decide),
        Text.words_of_isAlphanum hphase.ne_nil hphase.alphanum]
      rfl
    rw [hsubject]
    simp [ReadAsWritten, kind]
  | _ => simp [ReadAsWritten, kind]

/-- **A header that is read as it is written opens its block.** -/
theorem ofHeader?_eq {h : Head} (hphase : h.ReadAsWritten) {header : List Char}
    (hword : Text.leadingWord header = h.kind.word.toList)
    (hwords : Text.words header = h.kind.word.toList :: Text.words h.subject) :
    Block.ofHeader? header = some h.kind := by
  have hshorthand := (readAsWritten_iff hwords).1 hphase
  rw [Block.ofHeader?, hword, String.ofList_toList]
  cases h with
  | await promise => exact congrArg (fun phase => some (Block.await phase)) (hshorthand _ rfl)
  | awaitPhase promise phase binding =>
    exact congrArg (fun phase => some (Block.await phase)) (hshorthand _ rfl)
  | _ => rfl

end Head

/-! ## Clauses -/

/-- **The tag that opens a clause**, with the expression in it. -/
inductive Continuation where
  | elseIf (condition : List Char)
  | otherwise
  | phase (phase : Phase) (binding : List Char)
deriving DecidableEq, Repr

namespace Continuation

/-- The name of the clause. -/
def name : Continuation → String
  | elseIf _ => "elseif"
  | otherwise => "else"
  | phase opened _ => opened.word

/-- What stands between the braces. -/
def inner : Continuation → List Char
  | elseIf condition => wordTag ':' "else if".toList condition
  | otherwise => ":else".toList
  | phase opened binding => wordTag ':' opened.word.toList binding

/-- The tag as it is written. -/
def write (tag : Continuation) : List Char := writeBraces tag.inner

/-- The expression of a clause is well nested. -/
def WellNested : Continuation → Prop
  | elseIf code | phase _ code => Expression.WellNested .code code
  | otherwise => True

theorem wellNested_inner {tag : Continuation} (h : tag.WellNested) :
    Expression.WellNested .code tag.inner := by
  cases tag with
  | elseIf condition => exact wellNested_wordTag (by decide) (by simp [IsPlain]) h
  | otherwise => exact .of_plain (by simp [inner, IsPlain])
  | phase opened binding => exact (isKeyword_phase opened).wellNested_wordTag ':' (by decide) h

theorem exists_write (tag : Continuation) : ∃ cs, tag.write = '{' :: ':' :: cs := by
  cases tag <;> exact ⟨_, rfl⟩

end Continuation

/-- **After clauses of these names a block may go on with another**: alternatives up to the last
one, and each phase of a wait that its header has not opened, unless that was the rejection. -/
def Block.GoesOnWith : Block → List String → Continuation → Prop
  | .cond, names, .elseIf _ | .cond, names, .otherwise => "else" ∉ names
  | .each, names, .otherwise => names = []
  | .await shorthand, names, .phase phase _ =>
    shorthand ≠ some .rejected ∧ shorthand ≠ some phase ∧ phase.word ∉ names
  | _, _, _ => False

theorem Phase.ofWord?_word (phase : Phase) : Phase.ofWord? phase.word = some phase := by
  cases phase <;> decide

/-- **A clause that a block may go on with is admitted by its name.** -/
theorem Block.clauseName_eq {kind : Block} {names : List String} {tag : Continuation}
    (h : kind.GoesOnWith names tag) :
    kind.admitsClause names = true ∧
      kind.clauseName names ((Text.trim tag.inner).drop 1) = .ok tag.name := by
  match kind, tag, h with
  | .cond, .otherwise, h =>
    exact ⟨by simpa [admitsClause] using show "else" ∉ names from h, rfl⟩
  | .cond, .elseIf condition, h =>
    refine ⟨by simpa [admitsClause] using show "else" ∉ names from h, ?_⟩
    obtain ⟨tail, htrim, htail, -⟩ :=
      trim_wordTag ':' "else if".toList (by decide) (by decide) condition
    rw [Continuation.inner, htrim, List.drop_succ_cons, List.drop_zero]
    rcases htail with rfl | hspace
    · rfl
    · obtain ⟨others, rfl⟩ := List.head?_eq_some_iff.1 hspace
      rfl
  | .each, .otherwise, h =>
    obtain rfl : names = [] := h
    exact ⟨rfl, rfl⟩
  | .await shorthand, .phase phase binding, ⟨hrejected, hopened, hnames⟩ =>
    refine ⟨rfl, ?_⟩
    obtain ⟨header, htrim, hword, -⟩ :=
      (isKeyword_phase phase).trim_wordTag ':' (by decide) binding
    rw [Continuation.inner, htrim, List.drop_succ_cons, List.drop_zero, clauseName]
    simp only [hword, String.ofList_toList, Phase.ofWord?_word]
    exact if_neg (by simp [hrejected, hopened, hnames])

/-- The tag that closes a block. -/
def writeCloser (kind : Block) : List Char := writeBraces ('/' :: kind.word.toList)

end Markup.Svelte
