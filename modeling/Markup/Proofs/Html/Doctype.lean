import Markup.Proofs.Html.Leading
import Markup.Proofs.Html.PageTree

/-!
# Proofs/Html/Doctype — what is recovered of a written declaration

A declaration is written with a name and up to two identifiers in double quotes
(`Declaration.write`).  It ends at its own bracket, so it is **the first lexeme whatever follows**
(`next_declaration`), and its name is read as it is written.  An identifier ends at the first quote
of either kind (`identifier?_quoted`), so it is read **up to the first apostrophe in it**.
-/

namespace Markup.Html

variable {cs rest word : List Char} {c d : Char}

/-! ## Keywords -/

/-- A letter that is written in some case is read in it. -/
theorem foldCase_of_toLower (h : c.toLower = d) (hs : d ≠ '\u017f') (hk : d ≠ '\u212a') :
    foldCase c = d := by
  rw [foldCase]
  split
  · next hc =>
    subst hc
    exact absurd h.symm hs
  · split
    · next hc =>
      subst hc
      exact absurd h.symm hk
    · exact h

/-- **A keyword is read** if the text begins with it in some case. -/
theorem afterKeyword?_eq_some_iff : afterKeyword? word cs = some rest ↔
    ∃ written, cs = written ++ rest ∧ written.map foldCase = word := by
  rw [afterKeyword?]
  constructor
  · intro h
    split at h
    · next hword =>
      cases h
      exact ⟨cs.take word.length, (List.take_append_drop _ cs).symm, hword⟩
    · cases h
  · rintro ⟨written, rfl, rfl⟩
    rw [List.length_map, List.take_left', List.drop_left', if_pos rfl] <;> rfl

/-- **A written keyword is read**, whatever follows. -/
theorem afterKeyword?_append {written : List Char} (h : written.map Char.toLower = word)
    (hword : '\u017f' ∉ word ∧ '\u212a' ∉ word) (cs : List Char) :
    afterKeyword? word (written ++ cs) = some cs := by
  refine afterKeyword?_eq_some_iff.2 ⟨written, rfl, ?_⟩
  subst h
  refine List.map_congr_left fun c hc => ?_
  have hmem := List.mem_map_of_mem (f := Char.toLower) hc
  exact foldCase_of_toLower rfl (fun hs => hword.1 (hs ▸ hmem)) fun hk => hword.2 (hk ▸ hmem)

/-- In a word that is written as another there is nothing that is not in that in some case. -/
theorem not_mem_of_toLower {written : List Char} (h : written.map Char.toLower = word)
    (hc : c.toLower ∉ word) : c ∉ written := fun hmem =>
  hc (h ▸ List.mem_map_of_mem (f := Char.toLower) hmem)

/-- **A declaration begins with two signs and a letter**, in any case of its letters. -/
theorem exists_of_toLower_doctypeStart {written : List Char}
    (h : written.map Char.toLower = doctypeStart) :
    ∃ d inner, written = '<' :: '!' :: d :: inner ∧ d.toLower = 'd' := by
  obtain ⟨bracket, _, rfl, hbracket, hothers⟩ := List.map_eq_cons_iff.1 h
  obtain ⟨mark, _, rfl, hmark, hword⟩ := List.map_eq_cons_iff.1 hothers
  obtain ⟨d, inner, rfl, hd, -⟩ := List.map_eq_cons_iff.1 hword
  obtain rfl := Text.eq_of_toLower_eq (by decide) hbracket
  obtain rfl := Text.eq_of_toLower_eq (by decide) hmark
  exact ⟨d, inner, rfl, hd⟩

theorem length_of_toLower_doctypeStart {written : List Char}
    (h : written.map Char.toLower = doctypeStart) : written.length = 9 := by
  rw [← List.length_map (f := Char.toLower), h]
  rfl

/-- White space is left behind, if there is any. -/
theorem afterSpace?_cons (hc : Text.isSpace c = false) (cs : List Char) :
    afterSpace? (' ' :: c :: cs) = some (c :: cs) := by
  rw [afterSpace?, List.dropWhile_cons_of_pos (by decide),
    List.dropWhile_cons_of_neg (Bool.eq_false_iff.1 hc)]
  rfl

/-! ## Declarations that are written -/

/-- An identifier in double quotes. -/
def quoted (id : List Char) : List Char := '"' :: (id ++ ['"'])

/-- **An identifier that can be written** ends neither itself nor the declaration. -/
def IsIdentifier (id : List Char) : Prop := '"' ∉ id ∧ '>' ∉ id

instance (id : List Char) : Decidable (IsIdentifier id) := inferInstanceAs (Decidable (_ ∧ _))

/-- **The identifiers of a declaration**, behind a keyword in some case of its letters. -/
inductive Identifiers where
  | none
  | publicOnly (keyword publicId : List Char)
  | both (keyword publicId systemId : List Char)
  | systemOnly (keyword systemId : List Char)

namespace Identifiers

/-- The identifiers as they are written. -/
def write : Identifiers → List Char
  | none => []
  | publicOnly keyword id | systemOnly keyword id => ' ' :: (keyword ++ ' ' :: quoted id)
  | both keyword publicId systemId =>
    ' ' :: (keyword ++ ' ' :: (quoted publicId ++ ' ' :: quoted systemId))

/-- The public identifier, empty if there is none… -/
def publicId : Identifiers → List Char
  | none | systemOnly .. => []
  | publicOnly _ id | both _ id _ => id

/-- …and that of the system. -/
def systemId : Identifiers → List Char
  | none | publicOnly .. => []
  | systemOnly _ id | both _ _ id => id

/-- The keyword is the one of its identifiers, which can be written. -/
def WellFormed : Identifiers → Prop
  | none => True
  | publicOnly keyword id => keyword.map Char.toLower = "public".toList ∧ IsIdentifier id
  | both keyword publicId systemId =>
    keyword.map Char.toLower = "public".toList ∧ IsIdentifier publicId ∧ IsIdentifier systemId
  | systemOnly keyword id => keyword.map Char.toLower = "system".toList ∧ IsIdentifier id

instance (ids : Identifiers) : Decidable ids.WellFormed :=
  match ids with
  | none => isTrue trivial
  | publicOnly .. | both .. | systemOnly .. => inferInstanceAs (Decidable (_ ∧ _))

end Identifiers

/-- **A declaration of a document type.** -/
structure Declaration where
  keyword : List Char
  name : List Char
  identifiers : Identifiers

namespace Declaration

/-- The declaration as it is written. -/
def write (decl : Declaration) : List Char :=
  decl.keyword ++ ' ' :: (decl.name ++ (decl.identifiers.write ++ ['>']))

/-- **A declaration that can be written**: its name is one word. -/
structure WellFormed (decl : Declaration) : Prop where
  keyword : decl.keyword.map Char.toLower = doctypeStart
  name_ne : decl.name ≠ []
  name : ∀ c ∈ decl.name, Text.isSpace c = false ∧ c ≠ '>'
  identifiers : decl.identifiers.WellFormed

instance (decl : Declaration) : Decidable decl.WellFormed :=
  decidable_of_iff (decl.keyword.map Char.toLower = doctypeStart ∧ decl.name ≠ [] ∧
      decl.name.any Text.isSpace = false ∧ '>' ∉ decl.name ∧ decl.identifiers.WellFormed)
    ⟨fun ⟨hkeyword, hne, hsolid, hbracket, hids⟩ => ⟨hkeyword, hne, fun c hc =>
        ⟨Bool.eq_false_iff.2 (List.any_eq_false.1 hsolid c hc), fun heq => hbracket (heq ▸ hc)⟩,
        hids⟩,
      fun h => ⟨h.keyword, h.name_ne, List.any_eq_false.2 fun c hc =>
        Bool.eq_false_iff.1 (h.name c hc).1, fun hmem => (h.name _ hmem).2 rfl, h.identifiers⟩⟩

end Declaration

/-! ## What is recovered -/

/-- What is read of an identifier. -/
def upToApostrophe (id : List Char) : List Char := id.takeWhile (· != '\'')

theorem upToApostrophe_eq_self_iff {id : List Char} : upToApostrophe id = id ↔ '\'' ∉ id := by
  rw [upToApostrophe, List.takeWhile_eq_self_iff]
  exact ⟨fun h hmem => absurd (h _ hmem) (by decide),
    fun h c hc => bne_iff_ne.2 fun heq => h (heq ▸ hc)⟩

/-- **An identifier is read up to the first quote in it**, and what follows it is read on from
there: from its end, if there is none. -/
theorem identifier?_quoted {id : List Char} (h : '"' ∉ id) (more : List Char) :
    ∃ after, identifier? (' ' :: (quoted id ++ more)) = some (upToApostrophe id, after) ∧
      ('\'' ∉ id → after = more) := by
  have hopens : afterSpace? (' ' :: (quoted id ++ more)) = some ('"' :: (id ++ '"' :: more)) := by
    rw [quoted, List.cons_append, List.append_assoc, List.singleton_append]
    exact afterSpace?_cons (by decide) _
  -- Before the first quote nothing is one, so what is read ends with it.
  have hread : ∀ (q : Char) {front back : List Char}, '"' ∉ front → '\'' ∉ front →
      isQuote q = true → id ++ '"' :: more = front ++ q :: back →
        identifier? (' ' :: (quoted id ++ more)) = some (front, back) := by
    intro q front back hdouble hsingle hq heq
    have hfront : ∀ c ∈ front, (!isQuote c) = true := fun c hc => by
      have hdouble' : c ≠ '"' := fun hcd => hdouble (hcd ▸ hc)
      have hsingle' : c ≠ '\'' := fun hcd => hsingle (hcd ▸ hc)
      simp [isQuote, hdouble', hsingle']
    have hends : ∀ c, (q :: back).head? = some c → (!isQuote c) = false := fun _ hc =>
      Option.some.inj hc ▸ by simp [hq]
    rw [identifier?, hopens]
    simp only [heq, Text.takeWhile_append_of_ends hfront hends,
      Text.dropWhile_append_of_ends hfront hends]
    rfl
  by_cases hmem : '\'' ∈ id
  · obtain ⟨front, back, rfl, hfront⟩ := List.eq_append_cons_of_mem hmem
    rw [List.mem_append, not_or] at h
    have hup : upToApostrophe (front ++ '\'' :: back) = front := by
      have hplain : ∀ c ∈ front, (c != '\'') = true := fun c hc =>
        bne_iff_ne.2 fun heq => hfront (heq ▸ hc)
      refine Text.takeWhile_append_of_ends hplain ?_
      rintro c hc
      obtain rfl := Option.some.inj hc
      rfl
    refine ⟨back ++ '"' :: more, ?_, absurd hmem⟩
    rw [hup]
    exact hread '\'' h.1 hfront (by decide) (by simp)
  · refine ⟨more, ?_, fun _ => rfl⟩
    rw [upToApostrophe_eq_self_iff.2 hmem]
    exact hread '"' h hmem rfl rfl

/-- White space ends before a keyword. -/
theorem afterSpace?_keyword {written : List Char} (h : written.map Char.toLower = c :: word)
    (hc : Text.isLetter c = true ∧ c.toLower = c) (cs : List Char) :
    afterSpace? (' ' :: (written ++ cs)) = some (written ++ cs) := by
  obtain ⟨d, others, rfl, hd, -⟩ := List.map_eq_cons_iff.1 h
  have hletter : Text.isLetter d = true := Text.isLetter_of_toLower_eq (hc.2.trans hd.symm) hc.1
  exact afterSpace?_cons (Text.isSpace_of_isLetter hletter) _

/-- **A public identifier is read behind its keyword…** -/
theorem publicPart?_public {written id : List Char}
    (h : written.map Char.toLower = "public".toList) (hid : '"' ∉ id) (more : List Char) :
    ∃ after, publicPart? (' ' :: (written ++ ' ' :: (quoted id ++ more))) =
      some (upToApostrophe id, after) ∧ ('\'' ∉ id → after = more) := by
  obtain ⟨after, hread, hafter⟩ := identifier?_quoted hid more
  refine ⟨after, ?_, hafter⟩
  have hkeyword : afterKeyword? ['p', 'u', 'b', 'l', 'i', 'c']
      (written ++ ' ' :: (quoted id ++ more)) = some (' ' :: (quoted id ++ more)) :=
    afterKeyword?_append h (by decide) _
  rw [publicPart?, afterSpace?_keyword h (by decide), Option.bind_some]
  simp only [hkeyword, Option.bind_some, hread]

/-- …and the keyword of the system stands for none. -/
theorem publicPart?_system {written : List Char}
    (h : written.map Char.toLower = "system".toList) (more : List Char) :
    publicPart? (' ' :: (written ++ more)) = some ([], more) := by
  have hfold : written.map foldCase = "system".toList := by
    have happ : afterKeyword? "system".toList (written ++ []) = some [] :=
      afterKeyword?_append h (by decide) []
    obtain ⟨front, heq, hfront⟩ := afterKeyword?_eq_some_iff.1 happ
    rwa [List.append_cancel_right heq]
  have hkeyword : afterKeyword? ['s', 'y', 's', 't', 'e', 'm'] (written ++ more) = some more :=
    afterKeyword?_eq_some_iff.2 ⟨written, rfl, hfold⟩
  have hpublic : afterKeyword? ['p', 'u', 'b', 'l', 'i', 'c'] (written ++ more) = none := by
    refine Option.eq_none_iff_forall_ne_some.2 fun rest hrest => ?_
    obtain ⟨front, heq, hfront⟩ := afterKeyword?_eq_some_iff.1 hrest
    obtain ⟨d, _, rfl, hd, -⟩ := List.map_eq_cons_iff.1 hfold
    obtain ⟨e, _, rfl, he, -⟩ := List.map_eq_cons_iff.1 hfront
    obtain rfl := (List.cons.inj heq).1
    exact absurd (hd.symm.trans he) (by decide)
  rw [publicPart?, afterSpace?_keyword h (by decide), Option.bind_some, hpublic, hkeyword]
  rfl

/-- **What is recovered of the identifiers.** -/
theorem publicPart?_write {ids : Identifiers} (h : ids.WellFormed) :
    (ids = .none → publicPart? (ids.write ++ ['>']) = none) ∧
    (ids ≠ .none → ∃ after, publicPart? (ids.write ++ ['>']) =
      some (upToApostrophe ids.publicId, after) ∧ ('\'' ∉ ids.publicId →
        ((identifier? after).map Prod.fst).getD [] = upToApostrophe ids.systemId)) := by
  have hsystem : ∀ {id : List Char}, IsIdentifier id →
      ((identifier? (' ' :: (quoted id ++ ['>']))).map Prod.fst).getD [] = upToApostrophe id := by
    intro id hid
    obtain ⟨after, hread, -⟩ := identifier?_quoted hid.1 ['>']
    rw [hread]
    rfl
  cases ids with
  | none => exact ⟨fun _ => rfl, absurd rfl⟩
  | publicOnly keyword id =>
    obtain ⟨after, hpart, hafter⟩ := publicPart?_public h.1 h.2.1 ['>']
    refine ⟨nofun, fun _ => ⟨after, ?_, fun hid => ?_⟩⟩
    · simpa [Identifiers.write, Identifiers.publicId] using hpart
    · rw [hafter hid]
      rfl
  | both keyword publicId systemId =>
    obtain ⟨after, hpart, hafter⟩ :=
      publicPart?_public h.1 h.2.1.1 (' ' :: (quoted systemId ++ ['>']))
    refine ⟨nofun, fun _ => ⟨after, ?_, fun hid => ?_⟩⟩
    · simpa [Identifiers.write, Identifiers.publicId] using hpart
    · rw [hafter hid]
      exact hsystem h.2.2
  | systemOnly keyword id =>
    refine ⟨nofun, fun _ => ⟨' ' :: (quoted id ++ ['>']), ?_, fun _ => hsystem h.2⟩⟩
    simpa [Identifiers.write, Identifiers.publicId, upToApostrophe] using
      publicPart?_system h.1 (' ' :: (quoted id ++ ['>']))

/-- **What is recovered of a written declaration**: its name, and its identifiers up to the first
apostrophe. -/
theorem doctypeOf_write {decl : Declaration} (h : decl.WellFormed) :
    ∃ systemId, doctypeOf decl.write =
      { name := String.ofList decl.name
        publicId := String.ofList (upToApostrophe decl.identifiers.publicId)
        systemId := String.ofList systemId } ∧
      ('\'' ∉ decl.identifiers.publicId →
        systemId = upToApostrophe decl.identifiers.systemId) := by
  obtain ⟨keyword, name, ids⟩ := decl
  obtain ⟨hkeyword, hne, hname, hids⟩ := h
  have hopens : (afterKeyword? doctypeStart (Declaration.write ⟨keyword, name, ids⟩)).bind
      afterSpace? = some (name ++ (ids.write ++ ['>'])) := by
    rw [Declaration.write, afterKeyword?_append hkeyword (by decide), Option.bind_some]
    obtain ⟨c, others, rfl⟩ := List.exists_cons_of_ne_nil hne
    exact afterSpace?_cons (hname c List.mem_cons_self).1 _
  have hword : ∀ c ∈ name, (!Text.isSpace c && c != '>') = true := fun c hc => by
    simp [hname c hc]
  have hends : ∀ c, (ids.write ++ ['>']).head? = some c →
      (!Text.isSpace c && c != '>') = false := by
    intro c hc
    cases ids <;> obtain rfl := Option.some.inj hc <;> decide
  have hempty : name.isEmpty = false := by simpa using hne
  obtain ⟨hnone, hsome⟩ := publicPart?_write hids
  rw [doctypeOf, hopens]
  simp only [Text.takeWhile_append_of_ends hword hends, Text.dropWhile_append_of_ends hword hends,
    hempty]
  by_cases hwritten : ids = .none
  · subst hwritten
    rw [hnone rfl]
    exact ⟨[], rfl, fun _ => rfl⟩
  · obtain ⟨after, hpart, hsystem⟩ := hsome hwritten
    rw [hpart]
    exact ⟨_, rfl, hsystem⟩

/-! ## The declaration in a text -/

/-- The bracket at its end is the only one in a declaration. -/
theorem Declaration.WellFormed.not_mem {decl : Declaration} (h : decl.WellFormed) :
    '>' ∉ ' ' :: (decl.name ++ decl.identifiers.write) := by
  have hids : '>' ∉ decl.identifiers.write := by
    have hwell := h.identifiers
    cases hid : decl.identifiers with
    | none => exact List.not_mem_nil
    | publicOnly keyword id =>
      rw [hid] at hwell
      have hkeyword : '>' ∉ keyword := not_mem_of_toLower hwell.1 (by decide)
      simp [Identifiers.write, quoted, hkeyword, hwell.2.2]
    | both keyword publicId systemId =>
      rw [hid] at hwell
      have hkeyword : '>' ∉ keyword := not_mem_of_toLower hwell.1 (by decide)
      simp [Identifiers.write, quoted, hkeyword, hwell.2.1.2, hwell.2.2.2]
    | systemOnly keyword id =>
      rw [hid] at hwell
      have hkeyword : '>' ∉ keyword := not_mem_of_toLower hwell.1 (by decide)
      simp [Identifiers.write, quoted, hkeyword, hwell.2.2]
  rw [List.mem_cons, List.mem_append, not_or, not_or]
  exact ⟨by decide, fun hmem => (h.name '>' hmem).2 rfl, hids⟩

/-- **What begins as a declaration is one.** -/
theorem opening_of_doctypeStart {written : List Char}
    (h : written.map Char.toLower = doctypeStart) (rest : List Char) :
    opening (written ++ rest) = .mark .doctype 9 ['>'] := by
  have hequal : Text.equalIgnoreCase doctypeStart written = true := by
    rw [Text.equalIgnoreCase, h]
    rfl
  have hstarts : Text.startsWithIgnoreCase doctypeStart (written ++ rest) = true :=
    Text.startsWithIgnoreCase_append hequal
  obtain ⟨d, inner, rfl, hd⟩ := exists_of_toLower_doctypeStart h
  have hother : ∀ sign : Char, sign.toLower ≠ 'd' → sign ≠ d := by
    rintro sign hsign rfl
    exact hsign hd
  unfold opening
  rw [if_neg (by simp [hother '-' (by decide)]), if_neg (by simp [hother '[' (by decide)]),
    if_pos hstarts]

/-- **A declaration is the first lexeme**, whatever follows. -/
theorem Lexeme.next_declaration {config : Config} {decl : Declaration} (h : decl.WellFormed)
    (rest : List Char) :
    next config (decl.write ++ rest) = .ok (.mark .doctype decl.write, rest) := by
  have hlength := length_of_toLower_doctypeStart h.keyword
  have hwrite : decl.write ++ rest = decl.keyword ++
      (' ' :: (decl.name ++ decl.identifiers.write) ++ '>' :: rest) := by
    simp [Declaration.write]
  have hthrough : throughTerminator 9 ['>'] (decl.write ++ rest) = (decl.write, rest) := by
    rw [hwrite, throughTerminator, List.drop_left' hlength, Text.cut_singleton h.not_mem,
      List.take_left' hlength]
    simp [Declaration.write]
  rw [next, hwrite, opening_of_doctypeStart h.keyword, ← hwrite]
  simp only [hthrough]

/-- A declaration begins with a bracket. -/
theorem Declaration.WellFormed.exists_cons {decl : Declaration} (h : decl.WellFormed) :
    ∃ inner, decl.write = '<' :: inner := by
  obtain ⟨d, inner, hkeyword, -⟩ := exists_of_toLower_doctypeStart h.keyword
  exact ⟨_, congrArg (· ++ _) hkeyword⟩

/-- …so it is no front matter. -/
theorem Declaration.WellFormed.frontMatter?_eq_none {decl : Declaration} (h : decl.WellFormed)
    (front : Bool) (rest : List Char) :
    (if front then frontMatter? (decl.write ++ rest) else none) = none := by
  obtain ⟨inner, hwrite⟩ := h.exists_cons
  rw [hwrite]
  cases front <;> rfl

/-- **What follows a declaration is read as it would be on its own.** -/
theorem Tree.ofText_declaration {decl : Declaration} (h : decl.WellFormed)
    (front : Bool) (rest : List Char) :
    ofText config front (decl.write ++ rest) =
      behindMark .doctype decl.write (ofText config false rest) := by
  obtain ⟨inner, hwrite⟩ := h.exists_cons
  refine ofText_of_mark ?_
  rw [documentLexemes, h.frontMatter?_eq_none]
  exact lexemes_eq_of_next (Lexeme.next_declaration h rest) (by simp [hwrite])

/-- **The document type that is written comes first and is recovered**: its declaration is the first
node, whatever follows, with its name and with its identifiers up to the first apostrophe. -/
theorem parse_declaration (decl : Declaration) (h : decl.WellFormed) :
    (∀ front rest, Tree.ofText config front (decl.write ++ rest) =
      Tree.behindMark .doctype decl.write (Tree.ofText config false rest)) ∧
    (∀ page : Page, page.WellFormed → ∀ options, ∃ doc,
      Document.parse dialect (String.ofList (decl.write ++ page.render)) options = .ok doc) ∧
    ∀ rest options doc,
      Document.parse dialect (String.ofList (decl.write ++ rest)) options = .ok doc →
        ∃ n d, doc.nodes[0]? = some n ∧ n.data = .doctype d ∧
          n.token.raw.toList = decl.write ∧ n.token.startOffset = options.offsetOffset ∧
          n.token.endOffset = options.offsetOffset + Text.byteSize decl.write ∧
          d.name.toList = decl.name ∧
          d.publicId.toList = upToApostrophe decl.identifiers.publicId ∧
          ('\'' ∉ decl.identifiers.publicId →
            d.systemId.toList = upToApostrophe decl.identifiers.systemId) ∧
          (d.publicId.toList = decl.identifiers.publicId ∧
              d.systemId.toList = decl.identifiers.systemId ↔
            '\'' ∉ decl.identifiers.publicId ∧ '\'' ∉ decl.identifiers.systemId) := by
  refine ⟨Tree.ofText_declaration h, fun page hpage options =>
    exists_parse_of_mark hpage (Tree.ofText_declaration h _ _), fun rest options doc hparse => ?_⟩
  have hlead := leadsWith_of_parse hparse
  have hfront : splitFront options.ignoreFrontMatter (decl.write ++ rest) =
      ([], decl.write ++ rest) :=
    splitFront_of_none (h.frontMatter?_eq_none _ rest)
  rw [String.toList_ofList, hfront] at hlead
  obtain ⟨inner, hwrite⟩ := h.exists_cons
  obtain ⟨n, nodes, hshown, ⟨-, hnodes⟩ | ⟨hne, -⟩⟩ := hlead.exists_shownBy String.toList_ofList
    (by simp [hwrite]) (Lexeme.next_declaration h rest)
  · obtain ⟨systemId, hdoctype, hsystem⟩ := doctypeOf_write h
    have hdata : n.data = .doctype (doctypeOf decl.write) := hshown.data
    rw [hdoctype] at hdata
    refine ⟨n, _, by rw [← Array.getElem?_toList, hnodes]; rfl, hdata, hshown.raw_eq,
      hshown.startOffset, hshown.endOffset, String.toList_ofList, String.toList_ofList,
      fun hp => String.toList_ofList.trans (hsystem hp), ?_⟩
    rw [String.toList_ofList, String.toList_ofList, upToApostrophe_eq_self_iff, and_congr_right_iff]
    intro hp
    rw [hsystem hp, upToApostrophe_eq_self_iff]
  · exact absurd rfl hne

/-- A declaration with both identifiers, in odd cases, and an apostrophe in the last. -/
def oddDeclaration : Declaration where
  keyword := "<!DocType".toList
  name := "sva".toList
  identifiers := .both "PubLic".toList "-//a\n//b".toList "it's".toList

theorem parse_declaration_oddDeclaration : oddDeclaration.WellFormed ∧ ∃ doc n d,
    Document.parse dialect (String.ofList (oddDeclaration.write ++ "<p>".toList)) {} = .ok doc ∧
      doc.nodes[0]? = some n ∧ n.data = .doctype d ∧
        d.publicId.toList = "-//a\n//b".toList ∧ d.systemId.toList = "it".toList := by
  have hwell : oddDeclaration.WellFormed := by decide +kernel
  obtain ⟨doc, hdoc⟩ := Except.exists_of_isOk (show (Document.parse dialect
    (String.ofList (oddDeclaration.write ++ "<p>".toList)) {}).isOk = true by decide +kernel)
  obtain ⟨n, d, hn, hd, -, -, -, -, hp, ht, -⟩ :=
    (parse_declaration oddDeclaration hwell).2.2 "<p>".toList {} doc hdoc
  exact ⟨hwell, doc, n, d, hdoc, hn, hd, hp, ht (by decide)⟩

/-- The declaration `<!DOCTYPE a PUBLIC "it's">`. -/
def apostropheDeclaration : Declaration where
  keyword := "<!DOCTYPE".toList
  name := "a".toList
  identifiers := .publicOnly "PUBLIC".toList "it's".toList

/-- **An identifier in double quotes ends at an apostrophe.** -/
theorem not_recovered_apostropheDeclaration : apostropheDeclaration.WellFormed ∧ ∃ doc,
    Document.parse dialect (String.ofList apostropheDeclaration.write) {} = .ok doc ∧
      doc.nodes[0]?.map Node.data = some (.doctype ⟨"a", "it", ""⟩) := by
  refine ⟨by decide +kernel, ?_⟩
  exact Except.map_eq_ok.1 (show (Document.parse dialect
    (String.ofList apostropheDeclaration.write) {}).map
      (fun doc => doc.nodes[0]?.map Node.data) = _ by decide +kernel)

end Markup.Html
