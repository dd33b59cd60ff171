import Markup.Proofs.Svelte.Tag
import Markup.Svelte.Lexeme

/-!
# Proofs/Svelte/Lexeme — a lexeme fits what is open

`Lexeme.next` reads clauses and closing tags only **where something is open that has them**, and the
text of a tag is that tag.  `Lexeme.Fits` says so, and that nothing in the lexeme that becomes a
node is empty.
-/

namespace Markup.Svelte

/-- **What may be read where something is open.** -/
def Lexeme.Fits (context : Context) : Lexeme → Prop
  | .text raw => raw ≠ []
  | .comment raw => IsComment raw
  | .mustache raw => IsMustache raw
  | .special tag raw => ∃ header, IsBraceTag raw ('@' :: header) ∧
      SpecialTag.ofWord? (String.ofList (Text.leadingWord header)) = some tag
  | .closedTag name raw => ∃ selfClosing, IsStartTag raw name selfClosing ∧
      (selfClosing = true ∨ isVoidName name = true)
  | .openTag name raw => IsStartTag raw name false ∧ isVoidName name = false
  | .rawElement name startTag _ endTag =>
      IsStartTag startTag name false ∧ isVoidName name = false ∧ endTag ≠ []
  | .openBlock kind raw => ∃ header, IsBraceTag raw ('#' :: header) ∧
      Block.ofHeader? header = some kind
  | .clause name raw => ∃ kind start clauses header, context = .block kind start clauses ∧
      IsBraceTag raw (':' :: header) ∧ kind.admitsClause clauses = true ∧
      kind.clauseName clauses header = .ok name
  | .closer raw => raw ≠ [] ∧ context ≠ .top ∧
      ∀ kind start clauses, context = .block kind start clauses →
        ∃ header, IsBraceTag raw ('/' :: header) ∧ Text.trim header = kind.word.toList

theorem Lexeme.Fits.raw_ne_nil {context : Context} {lexeme : Lexeme} (h : lexeme.Fits context) :
    lexeme.raw ≠ [] := by
  cases lexeme with
  | text raw => exact h
  | comment raw =>
    obtain ⟨-⟩ := h
    exact List.cons_ne_nil _ _
  | mustache raw =>
    obtain ⟨inner, ⟨-⟩, -⟩ := h
    exact List.cons_ne_nil _ _
  | special tag raw =>
    obtain ⟨header, ⟨-⟩, -⟩ := h
    exact List.cons_ne_nil _ _
  | closedTag name raw =>
    obtain ⟨selfClosing, htag, -⟩ := h
    exact htag.ne_nil
  | openTag name raw => exact h.1.ne_nil
  | rawElement name startTag content endTag =>
    rw [raw, List.append_assoc]
    exact List.append_ne_nil_of_left_ne_nil h.1.ne_nil _
  | openBlock kind raw =>
    obtain ⟨header, ⟨-⟩, -⟩ := h
    exact List.cons_ne_nil _ _
  | clause name raw =>
    obtain ⟨kind, start, clauses, header, -, ⟨-⟩, -⟩ := h
    exact List.cons_ne_nil _ _
  | closer raw => exact h.1

theorem fits_of_blockTag {kind : Block} {start offset : Nat} {clauses : List String}
    {cs rest : List Char} {lexeme : Lexeme}
    (h : blockTag kind start clauses offset cs = .ok (lexeme, rest)) :
    lexeme.Fits (.block kind start clauses) := by
  have hne := (append_of_blockTag h).2
  obtain ⟨tag, htag, rfl, ⟨name, tail, rfl, hadmits, hnamed, rfl⟩ | ⟨tail, rfl, hword, rfl⟩⟩ :=
    blockTag_eq_ok h
  · obtain ⟨header, hinner⟩ := exists_inner_eq_cons htag (by decide) (by decide)
    have hbrace := isBraceTag_of_braceTag? htag
    rw [hinner] at hbrace hnamed
    exact ⟨kind, start, clauses, header, rfl, hbrace, hadmits, hnamed⟩
  · obtain ⟨header, hinner⟩ := exists_inner_eq_cons htag (by decide) (by decide)
    have hbrace := isBraceTag_of_braceTag? htag
    rw [hinner] at hbrace hword
    refine ⟨hne, by simp, fun kind' _ _ hcontext => ?_⟩
    obtain ⟨rfl, -⟩ := Context.block.inj hcontext
    exact ⟨header, hbrace, hword⟩

theorem fits_of_mustache {context : Context} {offset : Nat} {cs rest : List Char} {lexeme : Lexeme}
    (hcs : cs.head? ≠ some ':' ∧ cs.head? ≠ some '/')
    (h : mustache offset ('{' :: cs) = .ok (lexeme, rest)) : lexeme.Fits context := by
  obtain ⟨tag, htag, -, ⟨kind, header, hinner, hkind, rfl⟩ | ⟨special, header, hinner, hword, rfl⟩ |
    ⟨hsign, rfl⟩⟩ := mustache_eq_ok h
  · exact ⟨header, hinner ▸ isBraceTag_of_braceTag? htag, hkind⟩
  · exact ⟨header, hinner ▸ isBraceTag_of_braceTag? htag, hword⟩
  · exact ⟨_, isBraceTag_of_braceTag? htag, ⟨head?_tail_of_braceTag? (by decide) htag hcs.1,
      head?_tail_of_braceTag? (by decide) htag hcs.2⟩, hsign⟩

theorem isComment_of_comment {offset : Nat} {cs raw rest : List Char}
    (h : comment offset ('<' :: '!' :: '-' :: '-' :: cs) = .ok (raw, rest)) : IsComment raw := by
  rw [comment] at h
  split at h
  · cases h
  · next body after hcut =>
    cases h
    obtain ⟨others, rfl⟩ := List.isPrefixOf_iff_prefix.1 (Text.find_of_cutWhere hcut)
    exact .intro (Text.not_infix_of_cut (List.cons_ne_nil _ _) hcut)

theorem fits_of_startTag {config : Config} {context : Context} {offset : Nat} {c : Char}
    {cs rest : List Char} {lexeme : Lexeme} (hletter : Text.isLetter c = true)
    (h : startTag config offset ('<' :: c :: cs) = .ok (lexeme, rest)) : lexeme.Fits context := by
  obtain ⟨tail, htail, hlexeme⟩ := startTag_eq_ok h
  have htag := isStartTag_of_tagTail hletter htail
  obtain ⟨hclosed, -, rfl⟩ | ⟨hopen, hlexeme⟩ := hlexeme
  · exact ⟨tail.selfClosing, htag, hclosed⟩
  · simp only [not_or, Bool.not_eq_true] at hopen
    rw [hopen.1] at htag
    obtain ⟨-, rfl⟩ | ⟨_, _, content, endTag, rfl, hcontent⟩ := hlexeme
    · exact ⟨htag, hopen.2⟩
    · exact ⟨htag, hopen.2, (append_of_rawContent hcontent).2⟩

theorem fits_of_boundary {config : Config} {context : Context} {offset : Nat} {cs rest : List Char}
    {lexeme : Lexeme} (h : boundary config context offset cs = .ok (lexeme, rest)) :
    lexeme.Fits context := by
  obtain ⟨name, startTag, raw, rfl, hend, rfl⟩ | ⟨kind, start, clauses, rfl, hblock⟩ :=
    boundary_eq_ok h
  · exact ⟨(append_of_endTag hend).2, by simp, by simp⟩
  · exact fits_of_blockTag hblock

/-- A tag in braces begins with a brace, behind which no sign makes it a boundary… -/
theorem exists_cons_of_opening {cs : List Char} (h : opening cs = .brace) :
    ∃ tail, cs = '{' :: tail ∧ tail.head? ≠ some ':' ∧ tail.head? ≠ some '/' := by
  unfold opening at h
  split at h
  all_goals try exact absurd h (by decide)
  · next tail hcolon hslash =>
    refine ⟨tail, rfl, fun hsign => ?_, fun hsign => ?_⟩
    · obtain ⟨header, rfl⟩ := List.head?_eq_some_iff.1 hsign
      exact hcolon header rfl
    · obtain ⟨header, rfl⟩ := List.head?_eq_some_iff.1 hsign
      exact hslash header rfl
  · split at h <;> exact absurd h (by decide)

/-- …a comment with a bracket, a mark and two hyphens… -/
theorem exists_comment_of_opening {cs : List Char} (h : opening cs = .comment) :
    ∃ tail, cs = '<' :: '!' :: '-' :: '-' :: tail := by
  unfold opening at h
  split at h
  all_goals try exact absurd h (by decide)
  · exact ⟨_, rfl⟩
  · split at h <;> exact absurd h (by decide)

/-- …and a start tag with a bracket and a letter. -/
theorem exists_letter_of_opening {cs : List Char} (h : opening cs = .startTag) :
    ∃ c tail, cs = '<' :: c :: tail ∧ Text.isLetter c = true := by
  unfold opening at h
  split at h
  all_goals try exact absurd h (by decide)
  split at h
  · next hletter => exact ⟨_, _, rfl, hletter⟩
  · exact absurd h (by decide)

/-- **The next lexeme fits what is open.** -/
theorem Lexeme.fits_of_next {config : Config} {context : Context} {offset : Nat}
    {cs rest : List Char} {lexeme : Lexeme}
    (h : next config context offset cs = .ok (lexeme, rest)) (hc : cs ≠ []) :
    lexeme.Fits context := by
  have hne := (append_of_next h).2 hc
  rw [next] at h
  split at h
  · exact fits_of_boundary h
  · next hopening =>
    obtain ⟨tail, rfl⟩ := exists_comment_of_opening hopening
    obtain ⟨⟨raw, after⟩, hcomment, h⟩ := Except.bind_eq_ok.1 h
    cases h
    exact isComment_of_comment hcomment
  · next hopening =>
    obtain ⟨c, tail, rfl, hletter⟩ := exists_letter_of_opening hopening
    exact fits_of_startTag hletter h
  · next hopening =>
    obtain ⟨tail, rfl, hsign⟩ := exists_cons_of_opening hopening
    exact fits_of_mustache hsign h
  · cases h
    exact hne

end Markup.Svelte
