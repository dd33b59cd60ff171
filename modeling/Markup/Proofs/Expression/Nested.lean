import Markup.Proofs.Expression

/-!
# Proofs/Expression/Nested — a well-nested expression is skipped as a whole

`WellNested` says which texts are code, or the text of a template literal, **whose brackets, quotes
and holes all close**.  Reading such a text leads back to the nesting that it began in
(`WellNested.keeps`), so it is the expression that a closing brace ends, whatever follows
(`WellNested.split?_append`) and wherever in a text it stands (`endOffset?_of_wellNested`).
-/

namespace Markup.Expression

/-- What a piece of an expression is. -/
inductive Fragment where
  | code
  /-- The text of a template literal. -/
  | literal
deriving DecidableEq, Repr

/-- A character of code that neither opens nor closes anything. -/
def IsPlain (c : Char) : Prop := c ∉ ['(', ')', '[', ']', '{', '}', '\'', '"', '`']

instance (c : Char) : Decidable (IsPlain c) := inferInstanceAs (Decidable (_ ∉ _))

/-- **The inside of a quoted string**: characters of one line and escapes, up to the quote. -/
inductive IsQuoted (quote : Char) : List Char → Prop
  | nil : IsQuoted quote []
  | char {c : Char} {cs : List Char} (ends : c ≠ quote ∧ c ≠ '\\' ∧ c ≠ '\n')
      (rest : IsQuoted quote cs) : IsQuoted quote (c :: cs)
  | escape {c : Char} {cs : List Char} (rest : IsQuoted quote cs) : IsQuoted quote ('\\' :: c :: cs)

/-- **All that a piece of an expression opens, it closes.** -/
inductive WellNested : Fragment → List Char → Prop
  | nil {f : Fragment} : WellNested f []
  | plain {c : Char} {cs : List Char} (plain : IsPlain c) (rest : WellNested .code cs) :
      WellNested .code (c :: cs)
  | bracketed {opening closing : Char} {inner cs : List Char}
      (closes : closerOf? opening = some closing) (inside : WellNested .code inner)
      (rest : WellNested .code cs) : WellNested .code (opening :: (inner ++ closing :: cs))
  | quoted {quote : Char} {inner cs : List Char} (quotes : quote = '\'' ∨ quote = '"')
      (inside : IsQuoted quote inner) (rest : WellNested .code cs) :
      WellNested .code (quote :: (inner ++ quote :: cs))
  | backticks {inner cs : List Char} (inside : WellNested .literal inner)
      (rest : WellNested .code cs) : WellNested .code ('`' :: (inner ++ '`' :: cs))
  /-- A dollar sign is a character where no brace follows it. -/
  | char {c : Char} {cs : List Char} (ends : c ≠ '`' ∧ c ≠ '\\')
      (dollar : c = '$' → cs.head? ≠ some '{') (rest : WellNested .literal cs) :
      WellNested .literal (c :: cs)
  | escape {c : Char} {cs : List Char} (rest : WellNested .literal cs) :
      WellNested .literal ('\\' :: c :: cs)
  | hole {inner cs : List Char} (inside : WellNested .code inner)
      (rest : WellNested .literal cs) : WellNested .literal ('$' :: '{' :: (inner ++ '}' :: cs))

variable {st mid next : State} {as bs rest : List Char} {c : Char} {closers : List Char}
  {outer : List Context}

/-- **Code side by side is code.** -/
theorem WellNested.append {f : Fragment} (h : WellNested f as) (hcode : f = .code)
    (hbs : WellNested .code bs) : WellNested .code (as ++ bs) := by
  induction h with
  | nil => exact hbs
  | plain hplain _ ih => exact .plain hplain (ih rfl)
  | bracketed closes inside _ _ ih =>
    rw [List.cons_append, List.append_assoc]
    exact .bracketed closes inside (ih rfl)
  | quoted quotes inside _ ih =>
    rw [List.cons_append, List.append_assoc]
    exact .quoted quotes inside (ih rfl)
  | backticks inside _ _ ih =>
    rw [List.cons_append, List.append_assoc]
    exact .backticks inside (ih rfl)
  | char | escape | hole => exact absurd hcode nofun

theorem WellNested.of_plain (h : ∀ c ∈ as, IsPlain c) : WellNested .code as := by
  induction as with
  | nil => exact .nil
  | cons c as ih =>
    rw [List.forall_mem_cons] at h
    exact .plain h.1 (ih h.2)

theorem IsQuoted.of_chars {quote : Char} (h : ∀ c ∈ as, c ≠ quote ∧ c ≠ '\\' ∧ c ≠ '\n') :
    IsQuoted quote as := by
  induction as with
  | nil => exact .nil
  | cons c as ih =>
    rw [List.forall_mem_cons] at h
    exact .char h.1 (ih h.2)

/-! ## Reading -/

/-- **Reading a text leads from one nesting to another**, where a brace closes the expression. -/
inductive Reads : State → List Char → State → Prop
  | nil {st : State} : Reads st [] st
  | cons {st mid next : State} {c : Char} {cs : List Char} (step : st.step '}' c = some mid)
      (rest : Reads mid cs next) : Reads st (c :: cs) next

namespace Reads

theorem append (h : Reads st as mid) (h' : Reads mid bs next) : Reads st (as ++ bs) next := by
  induction h with
  | nil => exact h'
  | cons step _ ih => exact .cons step (ih h')

theorem single (h : st.step '}' c = some next) : Reads st [c] next := .cons h .nil

/-- **A text between two characters** is read after the one and before the other. -/
theorem between {before after : State} {opening closing : Char}
    (hopen : st.step '}' opening = some before) (h : Reads before as after)
    (hclose : after.step '}' closing = some mid) (hrest : Reads mid bs next) :
    Reads st (opening :: (as ++ closing :: bs)) next :=
  .cons hopen (h.append (.cons hclose hrest))

/-- What has been read is part of the expression. -/
theorem scan_append (h : Reads st as next) (rest : List Char) :
    scan '}' st (as ++ rest) = (scan '}' next rest).map fun parts => (as ++ parts.1, parts.2) := by
  induction h with
  | nil => simp
  | cons step _ ih =>
    rw [List.cons_append, scan, step]
    simp only [ih, Option.map_map]
    rfl

end Reads

/-- The brackets that code waits for. -/
abbrev Closing (closers : List Char) : Prop := ∀ c ∈ closers, c ∈ [')', ']', '}']

theorem closing_of_closerOf? {opening closing : Char} (h : closerOf? opening = some closing) :
    closing ∈ [')', ']', '}'] := by
  rw [closerOf?.eq_def] at h
  split at h
  · obtain rfl := Option.some.inj h
    decide
  · obtain rfl := Option.some.inj h
    decide
  · obtain rfl := Option.some.inj h
    decide
  · exact absurd h nofun

/-- A plain character of code changes nothing. -/
theorem step_plain (h : IsPlain c) (hclosers : Closing closers) :
    State.step '}' c ⟨.code closers, outer, .plain⟩ = some ⟨.code closers, outer, .plain⟩ := by
  have hbrace : ¬(closers = [] ∧ c = if outer = [] then '}' else '}') := by
    rintro ⟨-, hc⟩
    rw [ite_self] at hc
    exact h (by simp [hc])
  have hopen : closerOf? c = none := by
    rw [closerOf?.eq_def]
    split <;> first | rfl | exact absurd h (by decide)
  have hhead : closers.head? ≠ some c := fun hhead => by
    have hmem := hclosers c (List.mem_of_mem_head? hhead)
    simp only [List.mem_cons, List.not_mem_nil, or_false] at hmem
    rcases hmem with rfl | rfl | rfl <;> exact absurd h (by decide)
  have hquote : ¬(c = '\'' ∨ c = '"') ∧ c ≠ '`' := by
    refine ⟨?_, ?_⟩
    · rintro (rfl | rfl) <;> exact absurd h (by decide)
    · rintro rfl
      exact absurd h (by decide)
  simp only [State.step, State.stepCode, hbrace, hopen, hhead, hquote.1, hquote.2, if_false]

/-- An opening bracket is waited for… -/
theorem step_opening {opening closing : Char} (h : closerOf? opening = some closing) :
    State.step '}' opening ⟨.code closers, outer, .plain⟩ =
      some ⟨.code (closing :: closers), outer, .plain⟩ := by
  have hbrace : ¬(closers = [] ∧ opening = if outer = [] then '}' else '}') := by
    rintro ⟨-, hc⟩
    rw [ite_self] at hc
    rw [hc] at h
    exact absurd h nofun
  simp only [State.step, State.stepCode, hbrace, h, if_false]

/-- …until it is closed. -/
theorem step_closing {closing : Char} (h : closing ∈ [')', ']', '}']) :
    State.step '}' closing ⟨.code (closing :: closers), outer, .plain⟩ =
      some ⟨.code closers, outer, .plain⟩ := by
  have hopen : closerOf? closing = none := by
    simp only [List.mem_cons, List.not_mem_nil, or_false] at h
    rcases h with rfl | rfl | rfl <;> rfl
  simp [State.step, State.stepCode, hopen]

theorem step_quote {quote : Char} (h : quote = '\'' ∨ quote = '"') (hclosers : Closing closers) :
    State.step '}' quote ⟨.code closers, outer, .plain⟩ =
      some ⟨.code closers, outer, .quoted quote⟩ := by
  have hhead : closers.head? ≠ some quote := fun hhead => by
    have hmem := hclosers quote (List.mem_of_mem_head? hhead)
    rcases h with rfl | rfl <;> exact absurd hmem (by decide)
  rcases h with rfl | rfl <;> simp [State.step, State.stepCode, closerOf?, hhead]

theorem step_quote_end {here : Context} {quote : Char} (h : quote = '\'' ∨ quote = '"') :
    State.step '}' quote ⟨here, outer, .quoted quote⟩ = some ⟨here, outer, .plain⟩ := by
  rcases h with rfl | rfl <;> rfl

theorem step_backtick (hclosers : Closing closers) :
    State.step '}' '`' ⟨.code closers, outer, .plain⟩ =
      some ⟨.literal, .code closers :: outer, .plain⟩ := by
  have hhead : closers.head? ≠ some '`' := fun hhead =>
    absurd (hclosers '`' (List.mem_of_mem_head? hhead)) (by decide)
  simp [State.step, State.stepCode, closerOf?, hhead]

/-- **The inside of a string stays in the string.** -/
theorem IsQuoted.reads {quote : Char} (h : IsQuoted quote as) (here : Context) :
    Reads ⟨here, outer, .quoted quote⟩ as ⟨here, outer, .quoted quote⟩ := by
  induction h with
  | nil => exact .nil
  | char ends _ ih =>
    refine .cons ?_ ih
    simp [State.step, ends]
  | escape _ ih =>
    have hslash : State.step '}' '\\' ⟨here, outer, .quoted quote⟩ =
        some ⟨here, outer, .quotedEscape quote⟩ := by simp [State.step]
    exact .cons hslash (.cons rfl ih)

/-- A dollar sign is remembered where the text goes on with no brace. -/
def Pending (reading : Reading) (cs : List Char) : Prop :=
  reading = .plain ∨ reading = .dollar ∧ cs.head? ≠ some '{'

/-- The backtick ends a template literal… -/
theorem step_literal_end {context : Context} {reading : Reading} (h : Pending reading []) :
    State.step '}' '`' ⟨.literal, context :: outer, reading⟩ = some ⟨context, outer, .plain⟩ := by
  rcases h with rfl | ⟨rfl, -⟩ <;> rfl

/-- …and every other character of its text belongs to it. -/
theorem step_literal {reading : Reading} (hends : c ≠ '`' ∧ c ≠ '\\')
    (h : Pending reading (c :: as)) (hdollar : c = '$' → as.head? ≠ some '{') :
    ∃ next, State.step '}' c ⟨.literal, outer, reading⟩ = some ⟨.literal, outer, next⟩ ∧
      Pending next as := by
  have hstep : State.step '}' c ⟨.literal, outer, reading⟩ =
      State.stepLiteral c ⟨.literal, outer, reading⟩ := by
    rcases h with rfl | ⟨rfl, -⟩ <;> rfl
  have hhole : ¬(c = '{' ∧ reading = .dollar) := by
    rintro ⟨rfl, rfl⟩
    rcases h with hplain | ⟨-, hhead⟩
    · exact absurd hplain nofun
    · exact hhead rfl
  rw [hstep]
  by_cases hc : c = '$'
  · refine ⟨.dollar, ?_, Or.inr ⟨rfl, hdollar hc⟩⟩
    subst hc
    rfl
  · refine ⟨.plain, ?_, Or.inl rfl⟩
    simp only [State.stepLiteral, hends.1, hends.2, hc, hhole, if_false]

/-- **What reading a piece of an expression leaves as it was**: code, the brackets that are waited
for; the text of a template literal, what the literal stands in. -/
def Fragment.Keeps : Fragment → List Char → Prop
  | .code, as => ∀ closers outer, Closing closers →
    Reads ⟨.code closers, outer, .plain⟩ as ⟨.code closers, outer, .plain⟩
  | .literal, as => ∀ context outer reading, Pending reading as →
    Reads ⟨.literal, context :: outer, reading⟩ (as ++ ['`']) ⟨context, outer, .plain⟩

/-- **A well-nested piece of an expression keeps the nesting that it stands in.** -/
theorem WellNested.keeps {f : Fragment} (h : WellNested f as) : f.Keeps as := by
  induction h with
  | @nil f =>
    cases f with
    | code => exact fun _ _ _ => .nil
    | literal => exact fun _ _ _ hpending => .single (step_literal_end hpending)
  | plain hplain _ ih =>
    exact fun closers outer hclosers =>
      .cons (step_plain hplain hclosers) (ih closers outer hclosers)
  | bracketed closes _ _ ihInside ih =>
    intro closers outer hclosers
    have hclosing := closing_of_closerOf? closes
    exact .between (step_opening closes)
      (ihInside _ outer (List.forall_mem_cons.2 ⟨hclosing, hclosers⟩)) (step_closing hclosing)
      (ih closers outer hclosers)
  | quoted quotes inside _ ih =>
    intro closers outer hclosers
    exact .between (step_quote quotes hclosers) (inside.reads _) (step_quote_end quotes)
      (ih closers outer hclosers)
  | @backticks inner cs _ _ ihInside ih =>
    intro closers outer hclosers
    have hinside := ihInside (.code closers) outer .plain (Or.inl rfl)
    rw [List.append_cons]
    exact .cons (step_backtick hclosers) (hinside.append (ih closers outer hclosers))
  | char ends dollar _ ih =>
    intro context outer reading hpending
    obtain ⟨next, hstep, hnext⟩ := step_literal ends hpending dollar
    exact .cons hstep (ih context outer next hnext)
  | escape _ ih =>
    intro context outer reading hpending
    have hslash : State.step '}' '\\' ⟨.literal, context :: outer, reading⟩ =
        some ⟨.literal, context :: outer, .escape⟩ := by
      rcases hpending with rfl | ⟨rfl, -⟩ <;> rfl
    exact .cons hslash (.cons rfl (ih context outer .plain (Or.inl rfl)))
  | hole _ _ ihInside ih =>
    intro context outer reading hpending
    have hdollar : State.step '}' '$' ⟨.literal, context :: outer, reading⟩ =
        some ⟨.literal, context :: outer, .dollar⟩ := by
      rcases hpending with rfl | ⟨rfl, -⟩ <;> rfl
    have hinside := ihInside [] (.literal :: context :: outer) (List.forall_mem_nil _)
    rw [List.cons_append, List.cons_append, List.append_assoc, List.cons_append]
    exact .cons hdollar (.between rfl hinside rfl (ih context outer .plain (Or.inl rfl)))

/-- **A well-nested expression ends at the brace behind it**, whatever follows. -/
theorem WellNested.split?_append (h : WellNested .code as) (rest : List Char) :
    split? '}' (as ++ '}' :: rest) = some (as, '}' :: rest) := by
  have hreads := h.keeps [] [] (List.forall_mem_nil _)
  have hend : scan '}' {} ('}' :: rest) = some ([], '}' :: rest) := rfl
  rw [split?, hreads.scan_append, hend, Option.map_some, List.append_nil]

/-- **The brace behind a well-nested expression is the one that ends it**, wherever the expression
stands in a text. -/
theorem endOffset?_of_wellNested (h : WellNested .code as) (before after : List Char) :
    endOffset? '}' (before ++ as ++ '}' :: after) (Text.byteSize before) =
      some (Text.byteSize before + Text.byteSize as) := by
  rw [endOffset?, List.append_assoc, Text.dropBytes?_byteSize, Option.bind_some,
    h.split?_append after, Option.map_some]

/-- A list with a brace in a string, and a template literal with an escape and a block in a hole. -/
def codeInLiteral : List Char :=
  ['[', 'é', '\'', '\\', '\'', '}', '\'', '`', '$', '\\', '`', '$', '{', '{', 'b', '}', '}', '{',
    '`', ']']

theorem wellNested_codeInLiteral : WellNested .code codeInLiteral := by
  have hstring : IsQuoted '\'' ['\\', '\'', '}'] := .escape (.char (by decide) .nil)
  have hhole : WellNested .code ['{', 'b', '}'] :=
    @WellNested.bracketed '{' '}' ['b'] [] rfl (.plain (by decide) .nil) .nil
  have hliteral : WellNested .literal ['$', '\\', '`', '$', '{', '{', 'b', '}', '}', '{'] :=
    .char (by decide) (by decide) (.escape
      (@WellNested.hole ['{', 'b', '}'] _ hhole (.char (by decide) (by decide) .nil)))
  have hinside : WellNested .code codeInLiteral.tail.dropLast :=
    .plain (by decide) (@WellNested.quoted '\'' ['\\', '\'', '}'] _ (Or.inl rfl) hstring
      (@WellNested.backticks _ [] hliteral .nil))
  exact @WellNested.bracketed '[' ']' _ [] rfl hinside .nil

theorem endOffset?_codeInLiteral : WellNested .code codeInLiteral ∧
    endOffset? '}' (['é', '{'] ++ codeInLiteral ++ '}' :: ['}', '\'']) 3 = some 24 :=
  ⟨wellNested_codeInLiteral, endOffset?_of_wellNested wellNested_codeInLiteral ['é', '{'] _⟩

end Markup.Expression
