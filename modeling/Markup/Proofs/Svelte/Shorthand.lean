import Markup.Proofs.Svelte.Element
import Markup.Proofs.Svelte.Recovery
import Markup.Proofs.Text.Words

/-!
# Proofs/Svelte/Shorthand — the phase that the header of a wait opens

The header of a wait is read by its words: it opens **the first phase whose word stands behind the
first word of its subject** (`Block.shorthand?_eq_some_iff`), wherever that is.  This is the first
at the top level unless the first of all is hidden in a bracket, a string or a template literal
(`opensPhase_iff_of_bare`).  So a header that waits for an expression without such words names the
phase that it is written with (`Head.WaitsFor.names`), and its template is recovered.
-/

namespace Markup.Svelte

open Expression (WellNested)
open Text (WordAt)

/-- **An expression that names no phase** behind its first word, at its top level or hidden. -/
def NamesNoPhase (code : List Char) : Prop :=
  ∀ (phase : Phase) before after, WordAt code before phase.word.toList after →
    Text.words before = []

/-- What opens a wait begins with its word and names its phase. -/
theorem Block.of_ofHeader?_await {header : List Char} {shorthand : Option Phase}
    (h : Block.ofHeader? header = some (.await shorthand)) :
    Text.leadingWord header = "await".toList ∧ Block.shorthand? header = shorthand := by
  rw [Block.ofHeader?] at h
  split at h
  case h_3 hword =>
    exact ⟨by rw [← hword, String.toList_ofList], Block.await.inj (Option.some.inj h)⟩
  all_goals cases h

/-! ## Headers that are written -/

namespace NamesNoPhase

variable {code : List Char}

/-- An expression names no phase if none of its words does. -/
theorem of_words (h : ∀ phase ∈ [Phase.fulfilled, .rejected],
    phase.word.toList ∉ Text.words code) : NamesNoPhase code := by
  intro phase before after hat
  have hmem : phase.word.toList ∈ Text.words code := hat.mem_drop (Nat.zero_le _)
  exact absurd hmem (h phase (by cases phase <;> simp))

/-- No word behind the first one is that of a phase… -/
theorem findSome?_tail (h : NamesNoPhase code) :
    (Text.words code).tail.findSome? (fun word => Phase.ofWord? (String.ofList word)) = none := by
  refine List.findSome?_eq_none_iff.2 fun word hword => ?_
  by_contra hsome
  obtain ⟨phase, hphase⟩ := Option.ne_none_iff_exists'.1 hsome
  obtain rfl := Phase.ofWord?_eq_some_iff.1 hphase
  rw [← List.drop_one] at hword
  obtain ⟨before, after, hat, hbehind⟩ := Text.exists_wordAt_of_mem_drop hword
  rw [h phase before after hat] at hbehind
  exact absurd hbehind (Nat.not_succ_le_zero 0)

/-- …so a header with such a promise opens **no phase or the one that is written**. -/
theorem readAsWritten_await (h : NamesNoPhase code) : (Head.await code).ReadAsWritten :=
  h.findSome?_tail

theorem readAsWritten_awaitPhase (h : NamesNoPhase code) (hcode : Text.words code ≠ [])
    (phase : Phase) (binding : List Char) :
    (Head.awaitPhase code phase binding).ReadAsWritten := by
  have hnone := h.findSome?_tail
  obtain ⟨first, others, hwords⟩ := List.exists_cons_of_ne_nil hcode
  rw [hwords, List.tail_cons] at hnone
  rw [Head.ReadAsWritten, hwords, List.cons_append, List.tail_cons, List.findSome?_append, hnone,
    Option.none_or, List.findSome?_cons, Phase.ofWord?_eq_some_iff.2 rfl]

end NamesNoPhase

/-- **A header that waits for an expression**, without a phase or with one behind it. -/
inductive Head.WaitsFor (promise : List Char) : Head → Prop
  | await : WaitsFor promise (.await promise)
  | awaitPhase (phase : Phase) {binding : List Char} (nonblank : Text.words promise ≠ [])
      (wellNested : Expression.WellNested .code binding) :
      WaitsFor promise (.awaitPhase promise phase binding)

theorem Head.WaitsFor.names {promise : List Char} {head : Head} (h : head.WaitsFor promise)
    (hnested : Expression.WellNested .code promise) (hnone : NamesNoPhase promise) :
    head.WellNested ∧ head.ReadAsWritten := by
  cases h with
  | await => exact ⟨hnested, hnone.readAsWritten_await⟩
  | awaitPhase phase nonblank wellNested =>
    exact ⟨⟨hnested, wellNested⟩, hnone.readAsWritten_awaitPhase nonblank phase _⟩

/-! ## Templates -/

/-- **The header of a wait opens the first phase whose word stands behind the first word of its
subject**, which is the first at its top level as far as none is hidden.  A wait for an expression
that names no phase is read with the phase that is written behind the expression, or with none, and
goes on with the clauses that it may have then. -/
theorem shorthand_of_header (source promise : List Char) :
    (∀ trees, Tree.ofText config source = .ok trees → ∀ shorthand head clauses,
      Within trees (.block (.await shorthand) head clauses) →
        ∃ header, TagAt source ⟨head.span.start, head.headerEnd⟩ ('#' :: header) ∧
          Text.leadingWord header = "await".toList ∧
          (∀ phase, shorthand = some phase ↔ OpensPhase Behind header phase) ∧
          (Bare header → ∀ phase, shorthand = some phase ↔ OpensPhase BehindAtTop header phase)) ∧
    ∀ head : Head, WellNested .code promise → NamesNoPhase promise → head.WaitsFor promise →
      ∀ body clauses others, body.WellFormed Head.ReadAsWritten →
        clauses.WellFormed Head.ReadAsWritten head.kind [] → others.WellFormed Head.ReadAsWritten →
          let t := Template.block head body clauses others
          Tree.ofText config t.render = .ok (t.trees 0) := by
  constructor
  · intro trees htrees shorthand head clauses hwithin
    cases hwithin.wellFormed (Tree.forest_of_ofText htrees).all with
    | block opens =>
      obtain ⟨header, htag, hheader⟩ := opens
      obtain ⟨hword, hshorthand⟩ := Block.of_ofHeader?_await hheader
      have hlaw : ∀ phase, shorthand = some phase ↔ OpensPhase Behind header phase := fun phase =>
        hshorthand ▸ Block.shorthand?_eq_some_iff
      exact ⟨header, htag, hword, hlaw, fun hbare phase =>
        (hlaw phase).trans (opensPhase_iff_of_bare hbare phase)⟩
  · intro head hnested hnone hwaits body clauses others hbody hclauses hothers
    exact Template.ofText_render _ ⟨hwaits.names hnested hnone, hbody, hclauses, hothers⟩

/-- Code with white space in a string. -/
def spacedCode : List Char := bracesInCode ++ " + 'a b'".toList

/-- A wait for it whose header opens a phase. -/
def waitForCode : Template :=
  .block (.awaitPhase spacedCode .fulfilled "v".toList) (.text "x".toList .blank)
    (.clause (.phase .rejected "e".toList) .blank .done) .blank

/-- The same for words. -/
def waitForSum : Template :=
  .block (.awaitPhase "p + q".toList .fulfilled "v".toList) (.text "x".toList .blank) .done .blank

theorem shorthand_waits :
    (Tree.ofText config waitForCode.render = .ok (waitForCode.trees 0)) ∧
    ∃ trees head clauses header, Tree.ofText config waitForSum.render = .ok trees ∧
      Within trees (.block (.await (some .fulfilled)) head clauses) ∧
      TagAt waitForSum.render ⟨head.span.start, head.headerEnd⟩ ('#' :: header) ∧
      Bare header ∧ OpensPhase BehindAtTop header .fulfilled := by
  have hplain : ∀ code ∈ ["p + q".toList, "v".toList, "e".toList, "await p + q then v".toList],
      ∀ c ∈ code, Expression.IsPlain c := by
    simp [Expression.IsPlain]
  simp only [List.forall_mem_cons] at hplain
  obtain ⟨hp, hv, he, hheader, -⟩ := hplain
  have hcode : WellNested .code spacedCode := by
    have hstring : Expression.IsQuoted '\'' "a b".toList := .of_chars (by simp)
    exact wellNested_bracesInCode.append rfl (.plain (by decide) (.plain (by decide)
      (.plain (by decide) (@WellNested.quoted '\'' _ _ (Or.inl rfl) hstring .nil))))
  have hx : (Template.text "x".toList .blank).WellFormed Head.ReadAsWritten := by
    simp [Template.WellFormed, Template.BeginsWithText]
  have hwait := (shorthand_of_header waitForCode.render spacedCode).2
    (.awaitPhase spacedCode .fulfilled "v".toList) hcode (.of_words (by decide +kernel))
    (.awaitPhase .fulfilled (by decide +kernel) (.of_plain hv)) _
    (.clause (.phase .rejected "e".toList) .blank .done) .blank hx
    ⟨⟨.of_plain he, by decide, by decide, List.not_mem_nil⟩, trivial, trivial⟩ trivial
  obtain ⟨hread, hwritten⟩ := shorthand_of_header waitForSum.render "p + q".toList
  have hsum := hwritten (.awaitPhase "p + q".toList .fulfilled "v".toList) (.of_plain hp)
    (.of_words (by decide +kernel)) (.awaitPhase .fulfilled (by decide +kernel) (.of_plain hv)) _
    .done .blank hx trivial trivial
  have hwithin : Within (waitForSum.trees 0) (.block (.await (some .fulfilled)) _ _) :=
    .root List.mem_cons_self
  obtain ⟨header, htag, -, -, hbareLaw⟩ := hread _ hsum _ _ _ hwithin
  obtain rfl : header = "await p + q then v".toList := by
    obtain ⟨raw, hslice, hbraces⟩ := htag
    have hinner : (Text.slice? 0 21 waitForSum.render).map
        (fun raw => Text.trim raw.tail.dropLast) = some ('#' :: "await p + q then v".toList) := by
      decide +kernel
    rw [show Text.slice? 0 21 waitForSum.render = some raw from hslice, Option.map_some,
      ← hbraces.inner_eq] at hinner
    exact (List.cons.inj (Option.some.inj hinner)).2
  have hbare : Bare "await p + q then v".toList := .of_plain hheader
  exact ⟨hwait, _, _, _, _, hsum, hwithin, htag, hbare, (hbareLaw hbare .fulfilled).1 rfl⟩

/-- A wait for code with a word in a string. -/
def waitForString : Template :=
  .block (.await "f(\"a then b\")".toList) (.text "x".toList .blank)
    (.clause (.phase .fulfilled "v".toList) (.text "y".toList .blank) .done) .blank

/-- **A word in a string opens a phase**, so a wait for the code is refused with its clause. -/
theorem not_shorthand_of_string :
    ∃ promise body clauses, waitForString = .block (.await promise) body clauses .blank ∧
      WellNested .code promise ∧ waitForString.WellFormed (fun _ => True) ∧
      (∀ (phase : Phase) before after, WordAt promise before phase.word.toList after →
        ¬WellNested .code before) ∧
      (Tree.ofText config waitForString.render).isOk = false := by
  have hv : WellNested .code "v".toList := .of_plain (by simp [Expression.IsPlain])
  have hstring : Expression.IsQuoted '"' "a then b".toList := .of_chars (by simp)
  have hcode : WellNested .code "f(\"a then b\")".toList :=
    .plain (by decide) (@WellNested.bracketed '(' ')' _ [] rfl
      (@WellNested.quoted '"' _ [] (Or.inr rfl) hstring .nil) .nil)
  have hx : (Template.text "x".toList .blank).WellFormed fun _ => True := by
    simp [Template.WellFormed, Template.BeginsWithText]
  have hy : (Template.text "y".toList .blank).WellFormed fun _ => True := by
    simp [Template.WellFormed, Template.BeginsWithText]
  refine ⟨_, _, _, rfl, hcode, ?_, fun phase before after hat hnested => ?_, by decide +kernel⟩
  · exact ⟨⟨hcode, trivial⟩, hx,
      ⟨⟨hv, by decide, by decide, List.not_mem_nil⟩, hy, trivial⟩, trivial⟩
  · have hplaces : ∀ k < 14, ∀ phase ∈ [Phase.fulfilled, .rejected],
        phase.word.toList.isPrefixOf ("f(\"a then b\")".toList.drop k) = true →
          Expression.split? '}' ("f(\"a then b\")".toList.take k ++ ['}']) = none := by
      decide +kernel
    have hlength : 13 = before.length + (phase.word.toList ++ after).length := by
      rw [← List.length_append, ← hat.split]
      rfl
    have hlt : before.length < 14 := by omega
    have hread := hplaces before.length hlt phase (by cases phase <;> simp)
    rw [hat.split, List.drop_left, List.take_left, hnested.split?_append []] at hread
    exact absurd (hread (by simp)) (Option.some_ne_none _)

end Markup.Svelte
