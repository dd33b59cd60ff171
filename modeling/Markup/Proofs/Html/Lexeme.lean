import Markup.Proofs.Html.Tag

/-!
# Proofs/Html/Lexeme — lexemes are the text, and none is empty

`Lexeme.append_of_next` goes from one lexeme to a text, and `Lexeme.Begins` says which lexeme it is.
Beyond that, an element has **a start tag and no empty end tag**, so that each node that it becomes
has a text of its own.
-/

namespace Markup.Html

/-- **Nothing in the lexeme that becomes a node is empty**, and the text of a start tag is one; only
that of an element that is not void and has no closing slash goes on. -/
def Lexeme.Proper : Lexeme → Prop
  | .closedTag name raw => IsStartTag raw name
  | .openTag name raw => IsStartTag raw name ∧
      ¬((TagRule.ofName name).isVoid = true ∨ isSelfClosing raw = true)
  | .rawElement name startTag _ closing => IsStartTag startTag name ∧
      ¬((TagRule.ofName name).isVoid = true ∨ isSelfClosing startTag = true) ∧ closing ≠ some []
  | .mark _ raw | .endTag _ raw => raw ≠ []

theorem Lexeme.Proper.text_ne_nil {lexeme : Lexeme} (h : lexeme.Proper) : lexeme.text ≠ [] := by
  cases lexeme with
  | mark kind raw => exact h
  | closedTag name raw => exact h.ne_nil
  | openTag name raw => exact h.1.ne_nil
  | rawElement name startTag content closing =>
    rw [text, List.append_assoc]
    exact List.append_ne_nil_of_left_ne_nil h.1.ne_nil _
  | endTag name raw => exact h

namespace Lexeme

variable {config : Config} {cs rest : List Char} {lexeme : Lexeme}

/-- **What begins a text**, and how it is told. -/
inductive Begins (config : Config) (cs : List Char) : Lexeme → List Char → Prop
  | mark {kind : Mark} {skip : Nat} {terminator : List Char}
      (opens : opening cs = .mark kind skip terminator) :
      Begins config cs (.mark kind (throughTerminator skip terminator cs).1)
        (throughTerminator skip terminator cs).2
  | startTag {tag : ReadTag} {lexeme : Lexeme} {rest : List Char} (opens : opening cs = .startTag)
      (read : readTag? (cs.take 1) (cs.drop 1) = some tag)
      (starts : ofStartTag config tag = .ok (lexeme, rest)) : Begins config cs lexeme rest
  | endTag {tag : ReadTag} (opens : opening cs = .endTag)
      (read : readTag? (cs.take 2) (cs.drop 2) = some tag) :
      Begins config cs (.endTag (String.ofList tag.name) tag.raw) tag.rest
  | text (opens : opening cs = .text) :
      Begins config cs (.mark .text (textRun cs).1) (textRun cs).2

theorem begins_of_next (h : next config cs = .ok (lexeme, rest)) :
    Begins config cs lexeme rest := by
  rw [next] at h
  split at h
  · next opens =>
    cases h
    exact .mark opens
  · next opens =>
    split at h
    · cases h
    · next read => exact .startTag opens read h
  · next opens =>
    split at h
    · cases h
    · next read =>
      cases h
      exact .endTag opens read
  · next opens =>
    cases h
    exact .text opens

/-- A start tag begins no mark and no end tag. -/
theorem ofStartTag_ne {tag : ReadTag} (h : ofStartTag config tag = .ok (lexeme, rest)) :
    (∀ kind raw, lexeme ≠ .mark kind raw) ∧ ∀ name raw, lexeme ≠ .endTag name raw := by
  obtain ⟨-, -, rfl⟩ | ⟨-, ⟨-, -, rfl⟩ | ⟨_, _, _, -, rfl, -⟩⟩ := ofStartTag_eq_ok h <;> simp

theorem proper_of_ofStartTag {tag : ReadTag} (h : ofStartTag config tag = .ok (lexeme, rest))
    (htag : IsStartTag tag.raw (String.ofList tag.name)) : lexeme.Proper := by
  obtain ⟨-, -, rfl⟩ | ⟨hopen, ⟨-, -, rfl⟩ | ⟨closing, content, endTag, -, rfl, hcontent⟩⟩ :=
    ofStartTag_eq_ok h
  · exact htag
  · exact ⟨htag, hopen⟩
  · exact ⟨htag, hopen, (append_of_rawContent hcontent).2⟩

theorem proper_of_next (h : next config cs = .ok (lexeme, rest)) (hc : cs ≠ []) :
    lexeme.Proper := by
  obtain ⟨kind, raw, rfl, -, hne⟩ | ⟨name, raw, rfl, -, hne⟩ |
    ⟨c, inner, tag, rfl, hletter, htag, hstart⟩ := next_eq_ok h
  · exact hne hc
  · exact hne
  · exact proper_of_ofStartTag hstart (isStartTag_of_readTag? hletter htag)

/-- **An element with opaque content is a start tag and that content.** -/
theorem rawElement_of_next {name : String} {startTag content : List Char}
    {endTag : Option (List Char)}
    (h : next config cs = .ok (.rawElement name startTag content endTag, rest)) :
    IsStartTag startTag name ∧ ∃ closing inner, rawTextEnd? config name = some closing ∧
      rawContent closing.toList inner = .ok (content, endTag, rest) := by
  obtain ⟨_, _, h, -⟩ | ⟨_, _, h, -⟩ | ⟨c, inner, tag, rfl, hletter, htag, hstart⟩ := next_eq_ok h
  · cases h
  · cases h
  obtain ⟨-, -, h⟩ | ⟨-, ⟨-, -, h⟩ | ⟨closing, _, _, hclosing, h, hcontent⟩⟩ :=
    ofStartTag_eq_ok hstart
  · cases h
  · cases h
  · cases h
    exact ⟨isStartTag_of_readTag? hletter htag, closing, tag.rest, hclosing, hcontent⟩

/-- A start tag that nothing belongs to is that of a void element, or closes itself… -/
theorem closed_of_next {name : String} {raw : List Char}
    (h : next config cs = .ok (.closedTag name raw, rest)) :
    (TagRule.ofName name).isVoid = true ∨ isSelfClosing raw = true := by
  obtain ⟨_, _, h, -⟩ | ⟨_, _, h, -⟩ | ⟨c, inner, tag, rfl, -, -, hstart⟩ := next_eq_ok h
  · cases h
  · cases h
  obtain ⟨hclosed, -, h⟩ | ⟨-, ⟨-, -, h⟩ | ⟨_, _, _, -, h, -⟩⟩ := ofStartTag_eq_ok hstart
  · cases h
    exact hclosed
  · cases h
  · cases h

/-- …and one that opens an element has markup behind it. -/
theorem markup_of_next {name : String} {raw : List Char}
    (h : next config cs = .ok (.openTag name raw, rest)) : rawTextEnd? config name = none := by
  obtain ⟨_, _, h, -⟩ | ⟨_, _, h, -⟩ | ⟨c, inner, tag, rfl, -, -, hstart⟩ := next_eq_ok h
  · cases h
  · cases h
  obtain ⟨-, -, h⟩ | ⟨-, ⟨hmarkup, -, h⟩ | ⟨_, _, _, -, h, -⟩⟩ := ofStartTag_eq_ok hstart
  · cases h
  · cases h
    exact hmarkup
  · cases h

end Lexeme

/-- A text that is not empty has a first lexeme, before those of the rest. -/
theorem lexemes_cons_eq_ok {config : Config} {c : Char} {cs : List Char} {ls : List Lexeme}
    (h : lexemes config (c :: cs) = .ok ls) :
    ∃ lexeme rest others, Lexeme.next config (c :: cs) = .ok (lexeme, rest) ∧
      lexemes config rest = .ok others ∧ ls = lexeme :: others := by
  rw [lexemes] at h
  split at h
  · simp at h
  · next lexeme rest hnext =>
    obtain ⟨others, hothers, rfl⟩ := Except.map_eq_ok.1 h
    exact ⟨lexeme, rest, others, hnext, hothers, rfl⟩

/-- …and what follows it is read as it would be on its own… -/
theorem lexemes_eq_of_next {config : Config} {cs rest : List Char} {lexeme : Lexeme}
    (h : Lexeme.next config cs = .ok (lexeme, rest)) (hc : cs ≠ []) :
    lexemes config cs = (lexemes config rest).map (lexeme :: ·) := by
  obtain ⟨c, cs, rfl⟩ := List.exists_cons_of_ne_nil hc
  rw [lexemes]
  split
  · next herror => simp [h] at herror
  · next hok =>
    obtain ⟨rfl, rfl⟩ := Prod.mk.inj (Except.ok.inj (h.symm.trans hok))
    rfl

/-- …so they are read one after the other. -/
theorem lexemes_of_next {config : Config} {cs rest : List Char} {lexeme : Lexeme} {ls : List Lexeme}
    (h : Lexeme.next config cs = .ok (lexeme, rest)) (hc : cs ≠ [])
    (hrest : lexemes config rest = .ok ls) : lexemes config cs = .ok (lexeme :: ls) := by
  rw [lexemes_eq_of_next h hc, hrest]
  rfl

/-- **The lexemes of a text are the text**, and each is what some text begins with. -/
theorem flatMap_text_of_lexemes {config : Config} {cs : List Char} {ls : List Lexeme}
    (h : lexemes config cs = .ok ls) : ls.flatMap Lexeme.text = cs ∧ ∀ l ∈ ls,
      ∃ cs rest, cs ≠ [] ∧ Lexeme.next config cs = .ok (l, rest) := by
  induction hlength : cs.length using Nat.strongRecOn generalizing cs ls with
  | ind n ih =>
    subst hlength
    cases cs with
    | nil =>
      rw [lexemes] at h
      cases h
      simp
    | cons c cs =>
      obtain ⟨lexeme, rest, others, hnext, hothers, rfl⟩ := lexemes_cons_eq_ok h
      have hlt := Lexeme.length_lt_of_next hnext (List.cons_ne_nil c cs)
      obtain ⟨htext, hbegins⟩ := ih rest.length hlt hothers rfl
      rw [List.flatMap_cons, htext, (Lexeme.append_of_next hnext).1, List.forall_mem_cons]
      exact ⟨rfl, ⟨_, rest, List.cons_ne_nil c cs, hnext⟩, hbegins⟩

/-- …and so are those of a document, but for front matter. -/
theorem flatMap_text_of_documentLexemes {config : Config} {front : Bool} {cs : List Char}
    {ls : List Lexeme} (h : documentLexemes config front cs = .ok ls) :
    ls.flatMap Lexeme.text = cs ∧ ∀ l ∈ ls, (∃ raw, raw ≠ [] ∧ l = .mark .frontMatter raw) ∨
      ∃ cs rest, cs ≠ [] ∧ Lexeme.next config cs = .ok (l, rest) := by
  rw [documentLexemes] at h
  split at h
  · exact (flatMap_text_of_lexemes h).imp_right fun hbegins l hl => Or.inr (hbegins l hl)
  · next as bs hfront =>
    obtain ⟨others, hothers, rfl⟩ := Except.map_eq_ok.1 h
    obtain ⟨htext, hbegins⟩ := flatMap_text_of_lexemes hothers
    cases front with
    | false => simp at hfront
    | true =>
      obtain ⟨happ, hne⟩ := append_of_frontMatter? hfront
      rw [List.flatMap_cons, htext, List.forall_mem_cons]
      exact ⟨happ, Or.inl ⟨as, hne, rfl⟩, fun l hl => Or.inr (hbegins l hl)⟩

/-- **No lexeme of a document is empty.** -/
theorem proper_of_documentLexemes {config : Config} {front : Bool} {cs : List Char}
    {ls : List Lexeme} (h : documentLexemes config front cs = .ok ls) : ∀ l ∈ ls, l.Proper := by
  intro l hl
  obtain ⟨raw, hne, rfl⟩ | ⟨cs, rest, hcs, hnext⟩ := (flatMap_text_of_documentLexemes h).2 l hl
  · exact hne
  · exact Lexeme.proper_of_next hnext hcs

end Markup.Html
