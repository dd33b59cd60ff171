import Markup.Proofs.Expression
import Markup.Proofs.Svelte.Refusal
import Markup.Proofs.Svelte.Rendering

/-!
# Proofs/Svelte/Rereading — a lexeme is read again before another text

What a lexeme of a template is does not depend on what follows its text, on where it stands or on
where the tag that is open around it began (`Lexeme.next_append`).  Two things are needed: a run of
text goes on to the next markup, so **what follows must end it**, and at the top of a template no
boundary can be read, so all that is read there is read **inside of anything** (`Context.Within`).
-/

namespace Markup.Svelte

variable {config : Config} {cs rest tail : List Char} {offset offset' : Nat}

/-! ## What a text begins with -/

/-- What ends a text is empty or begins with a brace or a bracket. -/
theorem EndsText.eq_nil_or_cons (h : EndsText tail) :
    tail = [] ∨ ∃ c more, tail = c :: more ∧ (c = '{' ∨ c = '<') := by
  rcases h with rfl | hmarkup
  · exact Or.inl rfl
  · cases tail with
    | nil => exact Or.inl rfl
    | cons c more =>
      refine Or.inr ⟨c, more, rfl, ?_⟩
      by_contra hc
      exact hmarkup (opening_of_ne (not_or.1 hc))

/-- One character decides what a brace begins… -/
theorem opening_brace (cs : List Char) : opening ('{' :: cs) =
    if cs.head? = some ':' ∨ cs.head? = some '/' then .boundary else .brace := by
  match cs with
  | [] => rfl
  | c :: cs =>
    by_cases hsign : c = ':' ∨ c = '/'
    · rcases hsign with rfl | rfl <;> rfl
    · rw [if_neg (by simpa using hsign)]
      unfold opening
      split <;> simp_all

/-- …and up to three what a bracket does. -/
theorem opening_bracket (c : Char) (cs : List Char) : opening ('<' :: c :: cs) =
    if c = '/' then .boundary
    else if c = '!' ∧ ['-', '-'].isPrefixOf cs = true then .comment
    else if Text.isLetter c = true then .startTag else .text := by
  by_cases hslash : c = '/'
  · subst hslash
    rfl
  · rw [if_neg hslash]
    split
    · next hcomment =>
      obtain ⟨rfl, hhyphens⟩ := hcomment
      obtain ⟨more, rfl⟩ := List.isPrefixOf_iff_prefix.1 hhyphens
      rfl
    · next hno =>
      unfold opening
      split <;> simp_all

/-- **What a text begins with is not a matter of what follows it**, if that would end a text. -/
theorem opening_append (hcs : cs ≠ []) (htail : EndsText tail) :
    opening (cs ++ tail) = opening cs := by
  obtain ⟨a, cs, rfl⟩ := List.exists_cons_of_ne_nil hcs
  rcases htail.eq_nil_or_cons with rfl | ⟨c, more, rfl, hc⟩
  · rw [List.append_nil]
  by_cases hbrace : a = '{'
  · subst hbrace
    rw [List.cons_append, opening_brace, opening_brace]
    cases cs with
    | nil => rcases hc with rfl | rfl <;> rfl
    | cons b cs => rfl
  by_cases hbracket : a = '<'
  · subst hbracket
    cases cs with
    | nil => rcases hc with rfl | rfl <;> rfl
    | cons b cs =>
      have hhyphen : c ∉ ['-', '-'] := by rcases hc with rfl | rfl <;> decide
      rw [List.cons_append, List.cons_append, opening_bracket, opening_bracket,
        Text.isPrefixOf_append_cons hhyphen]
  · rw [List.cons_append, opening_of_ne ⟨hbrace, hbracket⟩, opening_of_ne ⟨hbrace, hbracket⟩]

/-- **A run of text ends where it did**, if what follows ends it. -/
theorem textRun_append (hcs : cs ≠ []) (htail : EndsText tail) :
    textRun (cs ++ tail) = ((textRun cs).1, (textRun cs).2 ++ tail) := by
  obtain ⟨c, cs, rfl⟩ := List.exists_cons_of_ne_nil hcs
  have hsame : ∀ {back : List Char}, back ≠ [] →
      (opening (back ++ tail) != .text) = (opening back != .text) := fun hback => by
    rw [opening_append hback htail]
  cases hcut : Text.cutWhere (fun cs => opening cs != .text) cs with
  | some parts =>
    obtain ⟨run, others⟩ := parts
    have hends := Text.find_of_cutWhere hcut
    have hothers : others ≠ [] := by
      rintro rfl
      exact absurd hends (by decide)
    have hmore : Text.cutWhere (fun cs => opening cs != .text) (run ++ (others ++ tail)) =
        some (run, others ++ tail) := by
      refine Text.cutWhere_append (fun front back heq hback => ?_) ((hsame hothers).trans hends)
      rw [← List.append_assoc, hsame (List.append_ne_nil_of_left_ne_nil hback _)]
      exact Text.test_of_cutWhere hcut front back heq hback
    rw [← List.append_assoc, Text.append_of_cutWhere hcut] at hmore
    rw [List.cons_append, textRun, textRun, hmore, hcut]
  | none =>
    have hno : ∀ front back, cs = front ++ back → (opening back != .text) = false :=
      Text.test_of_cutWhere_eq_none hcut
    rw [List.cons_append, textRun, textRun, hcut, List.nil_append]
    rcases htail with rfl | hmarkup
    · rw [List.append_nil, hcut]
    · have hmore : Text.cutWhere (fun cs => opening cs != .text) (cs ++ tail) = some (cs, tail) :=
        Text.cutWhere_append (fun front back heq hback => (hsame hback).trans (hno front back heq))
          (by simpa using hmarkup)
      rw [hmore]

/-! ## Tags in braces, comments and end tags -/

/-- A cut falls where it did before a longer text. -/
theorem cut_append {word as bs : List Char} (h : Text.cut word cs = some (as, bs))
    (tail : List Char) : Text.cut word (cs ++ tail) = some (as, bs ++ tail) := by
  obtain rfl := Text.append_of_cut h
  obtain ⟨more, rfl⟩ := List.isPrefixOf_iff_prefix.1 (Text.find_of_cutWhere h)
  rw [List.append_assoc, List.append_assoc]
  exact Text.cut_congr h (more ++ tail)

theorem braceTag?_append {tag : BraceTag} (h : braceTag? cs = some tag) (tail : List Char) :
    braceTag? (cs ++ tail) = some { tag with rest := tag.rest ++ tail } := by
  unfold braceTag? at h
  split at h
  · cases h
  · next brace cs =>
    split at h
    · next inner close more hsplit =>
      cases h
      obtain rfl := (Expression.append_of_split? hsplit).1
      have hagain := Expression.split?_append hsplit (more ++ tail)
      simp [braceTag?, hagain]
    · cases h

theorem readBraceTag_append {tag : BraceTag} (h : readBraceTag offset cs = .ok tag)
    (offset' : Nat) (tail : List Char) :
    readBraceTag offset' (cs ++ tail) = .ok { tag with rest := tag.rest ++ tail } := by
  rw [readBraceTag, braceTag?_append (readBraceTag_eq_ok h) tail]

theorem comment_append {raw : List Char} (h : comment offset cs = .ok (raw, rest))
    (hopening : opening cs = .comment) (offset' : Nat) (tail : List Char) :
    comment offset' (cs ++ tail) = .ok (raw, rest ++ tail) := by
  obtain ⟨after, rfl⟩ := exists_of_comment hopening
  rw [comment] at h ⊢
  split at h
  · cases h
  · next body found hcut =>
    obtain ⟨more, rfl⟩ := List.isPrefixOf_iff_prefix.1 (Text.find_of_cutWhere hcut)
    cases h
    have hagain : Text.cut ['-', '-', '>'] (after ++ tail) = _ := cut_append hcut tail
    simp [hagain]

theorem mustache_append {lexeme : Lexeme} (h : mustache offset cs = .ok (lexeme, rest))
    (offset' : Nat) (tail : List Char) :
    mustache offset' (cs ++ tail) = .ok (lexeme, rest ++ tail) := by
  obtain ⟨tag, htag, h⟩ := Except.bind_eq_ok.1 h
  rw [mustache, readBraceTag_append htag offset' tail]
  simp only [bind, Except.bind] at h ⊢
  split at h
  · split at h
    · cases h
      simp_all
    · cases h
  · split at h
    · cases h
      simp_all
    · cases h
  · cases h
    simp_all

/-- A name ends where it did before a longer text. -/
theorem name_append (h : afterName cs ≠ []) (tail : List Char) :
    leadingName (cs ++ tail) = leadingName cs ∧ afterName (cs ++ tail) = afterName cs ++ tail :=
  Text.run_append_of_ends h tail

/-- **An end tag is that of its element wherever it is read.** -/
theorem endTag_append {name : String} {span : Span} {raw : List Char}
    (h : endTag config name span offset cs = .ok (raw, rest)) (span' : Span) (offset' : Nat)
    (tail : List Char) :
    endTag config name span' offset' (cs ++ tail) = .ok (raw, rest ++ tail) := by
  unfold endTag at h
  split at h
  · cases h
  · next after =>
    dsimp only at h
    split at h
    · next hsame =>
      split at h
      · next rest hbracket =>
        cases h
        have hblanks : (afterName after).dropWhile Text.isBlank ≠ [] := by simp [hbracket]
        have hafter : afterName after ≠ [] := fun hnil => hblanks (by simp [hnil])
        have hname := name_append hafter tail
        have hplace := Text.run_append_of_ends hblanks tail
        rw [hbracket, List.cons_append] at hplace
        simp only [List.cons_append, endTag, hname, hplace, hsame, if_true]
      · cases h
    · cases h
  · cases h

/-! ## Start tags -/

/-- **A start tag ends where it did** before a longer text. -/
theorem tagTail_append_right {t : TagTail} (h : tagTail cs = .ok t) (tail : List Char) :
    tagTail (cs ++ tail) = .ok { t with rest := t.rest ++ tail } := by
  fun_induction tagTail cs generalizing t with
  | case1 | case4 | case7 => cases h
  | case2 cs =>
    cases h
    rw [List.cons_append, tagTail, if_pos rfl]
  | case3 c cs hbracket hslash =>
    cases h
    obtain ⟨more, rfl⟩ := List.head?_eq_some_iff.1 hslash.2
    rw [List.cons_append, tagTail, if_neg hbracket, if_pos ⟨hslash.1, rfl⟩]
    rfl
  | case5 c cs hbracket hslash hquote quote more hd _ ih =>
    obtain ⟨t, ht, rfl⟩ := Except.map_eq_ok.1 h
    have hends : cs.dropWhile (· != c) ≠ [] := by simp [hd]
    obtain ⟨htake, hdrop⟩ := Text.run_append_of_ends hends tail
    rw [hd, List.cons_append] at hdrop
    rw [List.cons_append, tagTail_quote hquote hdrop (ih ht), htake]
    rfl
  | case6 cs inner close more hs _ hbracket hslash hquote ih =>
    obtain ⟨t, ht, rfl⟩ := Except.map_eq_ok.1 h
    have hsplit := Expression.split?_append hs (more ++ tail)
    obtain rfl := (Expression.append_of_split? hs).1
    rw [List.cons_append, List.append_assoc]
    exact tagTail_brace hsplit (ih ht)
  | case8 c cs hbracket hslash hquote hbrace ih =>
    obtain ⟨t, ht, rfl⟩ := Except.map_eq_ok.1 h
    have hne : cs ≠ [] := by
      rintro rfl
      rw [tagTail] at ht
      cases ht
    have hhead : (cs ++ tail).head? = cs.head? := List.head?_append_of_ne_nil _ hne
    rw [List.cons_append, tagTail, if_neg hbracket, if_neg (hhead ▸ hslash), if_neg hquote,
      if_neg hbrace, ih ht]
    rfl

/-- Opaque content ends at the same end tag. -/
theorem rawContent_append {name closing : String} {span : Span} {content endTag : List Char}
    (h : rawContent config name closing span cs = .ok ((content, endTag), rest)) (span' : Span)
    (tail : List Char) :
    rawContent config name closing span' (cs ++ tail) = .ok ((content, endTag), rest ++ tail) := by
  rw [rawContent] at h ⊢
  split at h
  · cases h
  · next hcut =>
    obtain ⟨⟨raw, after⟩, hend, h⟩ := Except.bind_eq_ok.1 h
    cases h
    rw [cut_append hcut tail]
    simp only [endTag_append hend, bind, Except.bind, pure, Except.pure]

/-- **A start tag is read again with all that belongs to it.** -/
theorem startTag_append {lexeme : Lexeme} (h : startTag config offset cs = .ok (lexeme, rest))
    (offset' : Nat) (tail : List Char) :
    startTag config offset' (cs ++ tail) = .ok (lexeme, rest ++ tail) := by
  obtain ⟨t, ht, -⟩ := startTag_eq_ok h
  have hafter : afterName (cs.drop 1) ≠ [] := by
    intro hnil
    rw [hnil, tagTail] at ht
    cases ht
  have hcs : 1 ≤ cs.length := List.length_pos_iff.2 fun hnil => hafter (by simp [hnil, afterName])
  have hdrop : (cs ++ tail).drop 1 = cs.drop 1 ++ tail := List.drop_append_of_le_length hcs
  have htake : (cs ++ tail).take 1 = cs.take 1 := List.take_append_of_le_length hcs
  obtain ⟨hname, hbehind⟩ := name_append hafter tail
  have hmore : tagTail (afterName ((cs ++ tail).drop 1)) =
      .ok { t with rest := t.rest ++ tail } := by
    rw [hdrop, hbehind, tagTail_append_right ht tail]
  rw [startTag_of_tail rfl ht] at h
  rw [startTag_of_tail (hdrop.symm ▸ hname) hmore, htake]
  split at h
  · next hclosed =>
    cases h
    rw [if_pos hclosed]
  · next hopen =>
    rw [if_neg hopen]
    split at h
    · cases h
      rfl
    · obtain ⟨⟨⟨content, endTag⟩, after⟩, hcontent, h⟩ := Except.bind_eq_ok.1 h
      cases h
      simp only [rawContent_append hcontent, bind, Except.bind, pure, Except.pure]

/-! ## What is open -/

/-- **What is open in one place is open in another**, wherever it began there; at the top of a text
nothing is, so anything may be around it. -/
inductive Context.Within : Context → Context → Prop
  | top (context : Context) : Within .top context
  | element (name : String) (span span' : Span) : Within (.element name span) (.element name span')
  | block (kind : Block) (start start' : Nat) (clauses : List String) :
      Within (.block kind start clauses) (.block kind start' clauses)

theorem blockTag_append {kind : Block} {start : Nat} {clauses : List String} {lexeme : Lexeme}
    (h : blockTag kind start clauses offset cs = .ok (lexeme, rest)) (start' offset' : Nat)
    (tail : List Char) :
    blockTag kind start' clauses offset' (cs ++ tail) = .ok (lexeme, rest ++ tail) := by
  obtain ⟨tag, htag, rfl, ⟨name, more, rfl, hadmits, hname, rfl⟩ | ⟨more, rfl, hword, rfl⟩⟩ :=
    blockTag_eq_ok h
  · have hagain := braceTag?_append htag tail
    simp only [List.cons_append] at hagain
    simp only [List.cons_append, blockTag, if_pos hadmits, readBraceTag, hagain, bind, Except.bind,
      hname]
  · have hagain := braceTag?_append htag tail
    simp only [List.cons_append] at hagain
    simp only [List.cons_append, blockTag, readBraceTag, hagain, bind, Except.bind, if_pos hword]

theorem boundary_append {context context' : Context} {lexeme : Lexeme}
    (h : boundary config context offset cs = .ok (lexeme, rest)) (hwithin : context.Within context')
    (offset' : Nat) (tail : List Char) :
    boundary config context' offset' (cs ++ tail) = .ok (lexeme, rest ++ tail) := by
  cases hwithin with
  | top => cases h
  | element name span span' =>
    obtain ⟨⟨raw, after⟩, hend, h⟩ := Except.bind_eq_ok.1 h
    cases h
    simp only [boundary, endTag_append hend, bind, Except.bind, pure, Except.pure]
  | block kind start start' clauses => exact blockTag_append h start' offset' tail

/-- **A lexeme is read again** inside of what it was read in, wherever that stands, if what follows
the text would end a text. -/
theorem Lexeme.next_append {context context' : Context} {lexeme : Lexeme}
    (h : next config context offset cs = .ok (lexeme, rest)) (hcs : cs ≠ [])
    (hwithin : context.Within context') (offset' : Nat) (htail : EndsText tail) :
    next config context' offset' (cs ++ tail) = .ok (lexeme, rest ++ tail) := by
  rw [next, opening_append hcs htail]
  rw [next] at h
  split at h
  · next hopening => exact boundary_append h hwithin offset' tail
  · next hopening =>
    obtain ⟨⟨raw, after⟩, hcomment, h⟩ := Except.bind_eq_ok.1 h
    cases h
    simp only [comment_append hcomment hopening, bind, Except.bind, pure, Except.pure]
  · exact startTag_append h offset' tail
  · exact mustache_append h offset' tail
  · cases h
    simp only [textRun_append hcs htail]

end Markup.Svelte
