import Mathlib.Data.List.TakeWhile
import Markup.Attribute.Recognizer
import Markup.Proofs.Expression

/-!
# Proofs/Attribute/Place — where a start tag ends for its splitter

A `Scanner` reads a tag character by character and says where a closing bracket may end it.
`splitter quotes` is the scanner that the recognizer of attributes is: its **places** are the stages
that a character may be read in.  A scanner that skips only where another begins to skip, too, ends
a tag where the other does (`Scanner.Ends.of_inStep`).
-/

namespace Markup

/-- **A scanner of tags**: how it goes on with a character, and where a bracket may end the tag. -/
structure Scanner (σ : Type) where
  step : Char → σ → σ
  mayEnd : σ → Bool

namespace Scanner

variable {σ τ : Type}

/-- **A text ends a tag**: its last character is the first bracket that may. -/
def Ends (m : Scanner σ) : σ → List Char → Prop
  | _, [] => False
  | st, c :: cs => if c = '>' ∧ m.mayEnd st = true then cs = [] else m.Ends (m.step c st) cs

/-- **Wherever a scanner begins to skip brackets, another does**, too. -/
def inStep (m : Scanner σ) (m' : Scanner τ) : σ → τ → List Char → Bool
  | _, _, [] => true
  | st, st', c :: cs =>
    (m.mayEnd st && !m.mayEnd (m.step c st) → !m'.mayEnd (m'.step c st')) &&
      inStep m m' (m.step c st) (m'.step c st') cs

variable {m : Scanner σ} {m' : Scanner τ} {st : σ} {st' : τ} {c : Char} {cs : List Char}

theorem Ends.ne_nil (h : m.Ends st cs) : cs ≠ [] := by
  rintro rfl
  exact h

theorem ends_bracket (h : m.mayEnd st = true) : m.Ends st ['>'] := by
  rw [Ends, if_pos ⟨rfl, h⟩]

/-- What does not end the tag is gone by. -/
theorem ends_cons (h : ¬(c = '>' ∧ m.mayEnd st = true)) :
    m.Ends st (c :: cs) ↔ m.Ends (m.step c st) cs := by
  rw [Ends, if_neg h]

instance decidableEnds (m : Scanner σ) : (st : σ) → (cs : List Char) → Decidable (m.Ends st cs)
  | _, [] => inferInstanceAs (Decidable False)
  | st, c :: cs =>
    if h : c = '>' ∧ m.mayEnd st = true then decidable_of_iff (cs = []) (by rw [Ends, if_pos h])
    else @decidable_of_iff _ _ (ends_cons h).symm (decidableEnds m (m.step c st) cs)

/-- What ends a tag ends in a bracket. -/
theorem Ends.eq_append (h : m.Ends st cs) : cs = cs.dropLast ++ ['>'] := by
  induction cs generalizing st with
  | nil => exact absurd h id
  | cons c cs ih =>
    rw [Ends] at h
    split at h
    · next hend => rw [h, hend.1, List.dropLast_singleton, List.nil_append]
    · rw [List.dropLast_cons_of_ne_nil h.ne_nil, List.cons_append, ← ih h]

/-- A bracket that may end the tag does. -/
theorem Ends.eq_nil (h : m.Ends st ('>' :: cs)) (hst : m.mayEnd st = true) : cs = [] := by
  rwa [Ends, if_pos ⟨rfl, hst⟩] at h

/-- **Scanners in step end a tag at the same place**, if they agree from one character to the next
where they begin to skip together. -/
theorem Ends.of_inStep {agree : σ → τ → Prop}
    (hmay : ∀ st st', agree st st' → m.mayEnd st = m'.mayEnd st')
    (hstep : ∀ c st st', agree st st' →
      (m.mayEnd st = true → m'.mayEnd (m'.step c st') = true → m.mayEnd (m.step c st) = true) →
      agree (m.step c st) (m'.step c st'))
    (h : m.Ends st cs) (hagree : agree st st') (hin : m.inStep m' st st' cs = true) :
    m'.Ends st' cs := by
  induction cs generalizing st st' with
  | nil => exact h
  | cons c cs ih =>
    rw [inStep, Bool.and_eq_true, decide_eq_true_eq] at hin
    obtain ⟨hskip, hrest⟩ := hin
    rw [Ends] at h ⊢
    rw [← hmay st st' hagree]
    split at h
    · next hend => rwa [if_pos hend]
    · next hend =>
      rw [if_neg hend]
      exact ih h (hstep c st st' hagree fun hst hnext => by simpa [hst, hnext] using hskip) hrest

end Scanner

/-! ## The splitter -/

namespace Quote

/-- The script quote that a character opens. -/
def script? (quotes : List Quote) (c : Char) : Option Quote :=
  (opened? quotes c).filter fun q => q.kind == .script

/-- **Quotes that are told apart from the rest of a tag**: none opens with a character that
separates its parts, and braces close as they open. -/
structure Apart (quotes : List Quote) : Prop where
  opening : ∀ q ∈ quotes, Attribute.Recognizer.isNameStop q.opening = false
  braces : ∀ q, script? quotes '{' = some q → q.closing = '}'

theorem Apart.opened?_eq_none {quotes : List Quote} (h : Apart quotes) {c : Char}
    (hc : Attribute.Recognizer.isNameStop c = true) : opened? quotes c = none := by
  refine List.find?_eq_none.2 fun q hq hopening => ?_
  have hapart := h.opening q hq
  rw [beq_iff_eq.1 hopening, hc] at hapart
  exact absurd hapart (by decide)

theorem Apart.script?_eq_none {quotes : List Quote} (h : Apart quotes) {c : Char}
    (hc : Attribute.Recognizer.isNameStop c = true) : script? quotes c = none := by
  rw [script?, h.opened?_eq_none hc, Option.filter_none]

end Quote

/-- **Where in a start tag its splitter is.** -/
inductive Place where
  /-- Among names, blanks and slashes. -/
  | between
  /-- After an equals sign and blanks. -/
  | beforeValue
  /-- In a value without quotes. -/
  | bare
  /-- In a value up to its closing character. -/
  | quoted (closing : Char)
  /-- In an expression up to its closing character. -/
  | script (closing : Char) (nesting : Expression.State)

namespace Place

/-- The place behind an opening quote. -/
def ofQuote (q : Quote) : Place :=
  match q.kind with
  | .text => .quoted q.closing
  | .script => .script q.closing {}

/-- The place after a character. -/
def step (quotes : List Quote) (c : Char) : Place → Place
  | .between => if c = '=' then .beforeValue else (Quote.script? quotes c).elim .between ofQuote
  | .beforeValue =>
    (Quote.opened? quotes c).elim (if Text.isBlank c then .beforeValue else .bare) ofQuote
  | .bare => if Text.isBlank c then .between else .bare
  | .quoted closing => if c = closing then .between else .quoted closing
  | .script closing nesting => (nesting.step closing c).elim .between (.script closing)

/-- A bracket may end the tag there. -/
def mayEnd : Place → Bool
  | .quoted _ | .script .. => false
  | _ => true

end Place

/-- **The splitter of a tag's attributes** as a scanner. -/
def splitter (quotes : List Quote) : Scanner Place where
  step := Place.step quotes
  mayEnd := Place.mayEnd

namespace Splitter

variable {quotes : List Quote} {c closing : Char} {as cs : List Char}

theorem step_between : (splitter quotes).step c .between =
    if c = '=' then .beforeValue else (Quote.script? quotes c).elim .between Place.ofQuote := rfl

theorem step_beforeValue : (splitter quotes).step c .beforeValue =
    (Quote.opened? quotes c).elim (if Text.isBlank c then .beforeValue else .bare)
      Place.ofQuote := rfl

theorem step_bare : (splitter quotes).step c .bare =
    if Text.isBlank c then .between else .bare := rfl

/-- A character that neither separates the parts of a tag nor opens a script stays among names… -/
theorem step_between_of_plain (hequal : c ≠ '=') (hscript : Quote.script? quotes c = none) :
    (splitter quotes).step c .between = .between := by
  rw [step_between, if_neg hequal, hscript, Option.elim_none]

/-- **…so all such characters may be left out** before the end of a tag. -/
theorem ends_between_append
    (h : ∀ c ∈ as, c ≠ '=' ∧ c ≠ '>' ∧ Quote.script? quotes c = none) :
    (splitter quotes).Ends .between (as ++ cs) ↔ (splitter quotes).Ends .between cs := by
  induction as with
  | nil => rfl
  | cons c as ih =>
    obtain ⟨⟨hequal, hbracket, hscript⟩, hrest⟩ := List.forall_mem_cons.1 h
    rw [List.cons_append, Scanner.ends_cons fun hend => hbracket hend.1,
      step_between_of_plain hequal hscript, ih hrest]

/-- A blank is none of the characters that count. -/
theorem ne_of_isBlank (hc : Text.isBlank c = true) : c ≠ '=' ∧ c ≠ '>' := by
  constructor <;> rintro rfl <;> exact absurd hc (by decide)

theorem isNameStop_of_isBlank (hc : Text.isBlank c = true) :
    Attribute.Recognizer.isNameStop c = true := by
  simp [Attribute.Recognizer.isNameStop, hc]

/-- Blanks may be left out among names… -/
theorem ends_between_dropWhile (hq : Quote.Apart quotes) :
    (splitter quotes).Ends .between (cs.dropWhile Text.isBlank) ↔
      (splitter quotes).Ends .between cs := by
  have hblank : ∀ c ∈ cs.takeWhile Text.isBlank,
      c ≠ '=' ∧ c ≠ '>' ∧ Quote.script? quotes c = none := by
    intro c hc
    have hc := List.mem_takeWhile_imp hc
    obtain ⟨hequal, hbracket⟩ := ne_of_isBlank hc
    exact ⟨hequal, hbracket, hq.script?_eq_none (isNameStop_of_isBlank hc)⟩
  rw [← ends_between_append hblank, List.takeWhile_append_dropWhile]

/-- …and before a value. -/
theorem ends_beforeValue_dropWhile (hq : Quote.Apart quotes) :
    (splitter quotes).Ends .beforeValue (cs.dropWhile Text.isBlank) ↔
      (splitter quotes).Ends .beforeValue cs := by
  induction cs with
  | nil => rfl
  | cons c cs ih =>
    by_cases hc : Text.isBlank c = true
    · have hstep : (splitter quotes).step c .beforeValue = .beforeValue := by
        rw [step_beforeValue, hq.opened?_eq_none (isNameStop_of_isBlank hc), Option.elim_none,
          if_pos hc]
      rw [List.dropWhile_cons_of_pos hc, ih,
        Scanner.ends_cons fun hend => (ne_of_isBlank hc).2 hend.1, hstep]
    · rw [List.dropWhile_cons_of_neg hc]

/-- A quote opens a value there… -/
theorem ends_ofQuote (hq : Quote.Apart quotes) {q : Quote}
    (hopened : Quote.opened? quotes c = some q)
    (h : (splitter quotes).Ends .beforeValue (c :: cs)) :
    (splitter quotes).Ends (Place.ofQuote q) cs := by
  have hbracket : c ≠ '>' := by
    rintro rfl
    simp [hq.opened?_eq_none (c := '>') rfl] at hopened
  rwa [Scanner.ends_cons fun hend => hbracket hend.1, step_beforeValue, hopened,
    Option.elim_some] at h

/-- …and any other character that is no blank begins one without quotes. -/
theorem ends_bare_of_beforeValue (hopened : Quote.opened? quotes c = none) (hbracket : c ≠ '>')
    (hblank : Text.isBlank c = false) (h : (splitter quotes).Ends .beforeValue (c :: cs)) :
    (splitter quotes).Ends .bare (c :: cs) := by
  rw [Scanner.ends_cons fun hend => hbracket hend.1, step_beforeValue, hopened,
    Option.elim_none, if_neg (by simp [hblank])] at h
  rwa [Scanner.ends_cons fun hend => hbracket hend.1, step_bare, if_neg (by simp [hblank])]

/-- **A value without quotes** goes up to a blank or a bracket. -/
theorem ends_of_bare (hq : Quote.Apart quotes) (h : (splitter quotes).Ends .bare cs) :
    (splitter quotes).Ends .between
      (cs.dropWhile fun c => !(Text.isBlank c || ['>'].contains c)) := by
  induction cs with
  | nil => exact h
  | cons c cs ih =>
    by_cases hbracket : c = '>'
    · subst hbracket
      rw [h.eq_nil rfl, List.dropWhile_cons_of_neg (by simp)]
      exact Scanner.ends_bracket rfl
    · rw [Scanner.ends_cons fun hend => hbracket hend.1, step_bare] at h
      by_cases hc : Text.isBlank c = true
      · rw [if_pos hc] at h
        have hscript := hq.script?_eq_none (isNameStop_of_isBlank hc)
        rw [List.dropWhile_cons_of_neg (by simp [hc]),
          Scanner.ends_cons fun hend => hbracket hend.1,
          step_between_of_plain (ne_of_isBlank hc).1 hscript]
        exact h
      · rw [if_neg hc] at h
        rw [List.dropWhile_cons_of_pos (by simp [hc, hbracket])]
        exact ih h

/-- **A value in quotes** goes up to its closing character… -/
theorem exists_of_quoted (h : (splitter quotes).Ends (.quoted closing) cs) :
    ∃ value rest, Text.cut [closing] cs = some (value, closing :: rest) ∧
      (splitter quotes).Ends .between rest := by
  induction cs with
  | nil => exact absurd h id
  | cons c cs ih =>
    have hopen : ¬(c = '>' ∧ (splitter quotes).mayEnd (.quoted closing) = true) :=
      fun hend => Bool.false_ne_true hend.2
    have hstep : (splitter quotes).step c (.quoted closing) =
        if c = closing then .between else .quoted closing := rfl
    rw [Scanner.ends_cons hopen, hstep] at h
    by_cases hc : c = closing
    · subst hc
      rw [if_pos rfl] at h
      exact ⟨[], cs, by simp [Text.cut, Text.cutWhere], h⟩
    · rw [if_neg hc] at h
      obtain ⟨value, rest, hcut, hrest⟩ := ih h
      rw [Text.cut] at hcut
      refine ⟨c :: value, rest, ?_, hrest⟩
      simp [Text.cut, Text.cutWhere, hcut, Ne.symm hc]

/-- …and an expression up to where it ends. -/
theorem exists_of_script {st : Expression.State}
    (h : (splitter quotes).Ends (.script closing st) cs) :
    ∃ value last rest, Expression.scan closing st cs = some (value, last :: rest) ∧
      (splitter quotes).Ends .between rest := by
  induction cs generalizing st with
  | nil => exact absurd h id
  | cons c cs ih =>
    have hopen : ¬(c = '>' ∧ (splitter quotes).mayEnd (.script closing st) = true) :=
      fun hend => Bool.false_ne_true hend.2
    have hstep : (splitter quotes).step c (.script closing st) =
        (st.step closing c).elim .between (.script closing) := rfl
    rw [Scanner.ends_cons hopen, hstep] at h
    rw [Expression.scan]
    cases hnext : st.step closing c with
    | none =>
      rw [hnext] at h
      exact ⟨[], c, cs, rfl, h⟩
    | some next =>
      rw [hnext] at h
      obtain ⟨value, last, rest, hscan, hrest⟩ := ih h
      exact ⟨c :: value, last, rest, by simp [hscan], hrest⟩

/-- **What follows an opening quote** is a value that is closed. -/
theorem exists_of_ofQuote {q : Quote} (h : (splitter quotes).Ends (Place.ofQuote q) cs) :
    ∃ value rest, Attribute.Recognizer.closeValue? q cs = some (value, q.closing :: rest) ∧
      (splitter quotes).Ends .between rest := by
  rw [Place.ofQuote] at h
  rw [Attribute.Recognizer.closeValue?]
  cases hkind : q.kind with
  | text =>
    rw [hkind] at h
    exact exists_of_quoted h
  | script =>
    rw [hkind] at h
    obtain ⟨value, last, rest, hscan, hrest⟩ := exists_of_script h
    obtain rfl := Expression.eq_close_of_split? hscan
    exact ⟨value, rest, hscan, hrest⟩

end Splitter

end Markup
