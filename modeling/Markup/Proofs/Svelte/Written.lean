import Markup.Proofs.Html.Written
import Markup.Proofs.Svelte.Braces
import Markup.Svelte.Dialect

/-!
# Proofs/Svelte/Written — written start tags of a template are read back

A start tag is written with values in double quotes or in braces.  Quotes and braces are skipped
with all that they hold, so the tag **ends with its own bracket** (`tagTail_writeTail`).
-/

namespace Markup.Svelte

open Expression (WellNested)

/-- **An attribute of a start tag**, with its value in quotes or in braces. -/
inductive Written where
  | quoted (name text : List Char)
  | braces (name code : List Char)
deriving DecidableEq, Repr

namespace Written

def name : Written → List Char
  | quoted name _ | braces name _ => name

/-- The value as it is written. -/
def value : Written → List Char
  | quoted _ text => '"' :: (text ++ ['"'])
  | braces _ code => writeBraces code

/-- An attribute as it is written, with a space before it. -/
def write (a : Written) : List Char := ' ' :: (a.name ++ '=' :: a.value)

/-- The value ends where it is meant to. -/
def Closes : Written → Prop
  | quoted _ text => '"' ∉ text
  | braces _ code => WellNested .code code

end Written

/-- A character that neither ends a start tag nor opens anything in it. -/
def IsTagChar (c : Char) : Prop := c ∉ ['>', '/', '"', '\'', '{']

instance (c : Char) : Decidable (IsTagChar c) := inferInstanceAs (Decidable (_ ∉ _))

/-- **An attribute that can be written.** -/
structure IsWritten (a : Written) : Prop where
  name : ∀ c ∈ a.name, IsTagChar c
  value : a.Closes

/-- Names of letters and digits can be written. -/
theorem IsWritten.of_word {a : Written} (hword : ∀ c ∈ a.name, c.isAlphanum = true)
    (hvalue : a.Closes) : IsWritten a :=
  ⟨fun c hc => Text.not_mem_of_isAlphanum (by decide) (hword c hc), hvalue⟩

/-- What follows the name in a start tag. -/
def writeTail (as : List Written) : List Char := as.flatMap Written.write ++ ['>']

/-- **A start tag as it is written.** -/
def writeStartTag (name : List Char) (as : List Written) : List Char :=
  '<' :: (name ++ writeTail as)

variable {tail : TagTail} {as : List Written} {a : Written} {word cs : List Char} {c : Char}

theorem tagTail_char (hc : IsTagChar c) (h : tagTail cs = .ok tail) :
    tagTail (c :: cs) = .ok (tail.prepend [c]) := by
  simp only [IsTagChar, List.mem_cons, List.not_mem_nil, or_false, not_or] at hc
  rw [tagTail]
  simp only [hc, false_and, or_self, if_false, h]
  rfl

theorem tagTail_append (hword : ∀ c ∈ word, IsTagChar c) (h : tagTail cs = .ok tail) :
    tagTail (word ++ cs) = .ok (tail.prepend word) := by
  induction word with
  | nil => exact h
  | cons c word ih =>
    obtain ⟨hc, hword⟩ := List.forall_mem_cons.1 hword
    exact tagTail_char hc (ih hword)

/-- **A value in quotes is skipped** through the quote that closes it… -/
theorem tagTail_quote {quote close : Char} {more : List Char} (hquote : quote = '"' ∨ quote = '\'')
    (hdrop : cs.dropWhile (· != quote) = close :: more) (h : tagTail more = .ok tail) :
    tagTail (quote :: cs) =
      .ok (tail.prepend (quote :: (cs.takeWhile (· != quote) ++ [close]))) := by
  have hbracket : quote ≠ '>' := by rcases hquote with rfl | rfl <;> decide
  have hslash : quote ≠ '/' := by rcases hquote with rfl | rfl <;> decide
  rw [tagTail, if_neg hbracket, if_neg (fun hclosed => hslash hclosed.1), if_pos hquote]
  split
  · next hnil => exact absurd (hdrop.symm.trans hnil) (List.cons_ne_nil _ _)
  · next hcons =>
    obtain ⟨rfl, rfl⟩ := List.cons.inj (hdrop.symm.trans hcons)
    rw [h]
    rfl

/-- …and **an expression** through its brace. -/
theorem tagTail_brace {inner more : List Char} {close : Char}
    (hsplit : Expression.split? '}' cs = some (inner, close :: more))
    (h : tagTail more = .ok tail) :
    tagTail ('{' :: cs) = .ok (tail.prepend ('{' :: (inner ++ [close]))) := by
  rw [tagTail, if_neg (by decide), if_neg (by simp), if_neg (by decide), if_pos rfl]
  split
  · next hsome =>
    obtain ⟨rfl, hrest⟩ := Prod.mk.inj (Option.some.inj (hsplit.symm.trans hsome))
    obtain ⟨rfl, rfl⟩ := List.cons.inj hrest
    rw [h]
    rfl
  · next hnone => exact absurd hsplit (hnone _ _ _)

theorem tagTail_quoted {text : List Char} (htext : '"' ∉ text) (h : tagTail cs = .ok tail) :
    tagTail ('"' :: (text ++ '"' :: cs)) = .ok (tail.prepend ('"' :: (text ++ ['"']))) := by
  have hinside : ∀ c ∈ text, (c != '"') = true := fun c hc => by
    rw [bne_iff_ne]
    rintro rfl
    exact htext hc
  have hdrop : (text ++ '"' :: cs).dropWhile (· != '"') = '"' :: cs := by
    rw [List.dropWhile_append_of_pos hinside]
    rfl
  have htake : (text ++ '"' :: cs).takeWhile (· != '"') = text := by
    rw [List.takeWhile_append_of_pos hinside]
    exact List.append_nil text
  rw [tagTail_quote (Or.inl rfl) hdrop h, htake]

theorem tagTail_braces {code : List Char} (hcode : WellNested .code code)
    (h : tagTail cs = .ok tail) :
    tagTail ('{' :: (code ++ '}' :: cs)) = .ok (tail.prepend (writeBraces code)) :=
  tagTail_brace (hcode.split?_append cs) h

/-- A value is skipped… -/
theorem tagTail_value (ha : a.Closes) (h : tagTail cs = .ok tail) :
    tagTail (a.value ++ cs) = .ok (tail.prepend a.value) := by
  cases a with
  | quoted name text =>
    rw [Written.value, List.cons_append, List.append_assoc]
    exact tagTail_quoted ha h
  | braces name code =>
    rw [Written.value, writeBraces, List.cons_append, List.append_assoc]
    exact tagTail_braces ha h

/-- …so **a written start tag ends with its own bracket**, whatever its values are. -/
theorem tagTail_writeTail (has : ∀ a ∈ as, IsWritten a) (rest : List Char) :
    tagTail (writeTail as ++ rest) = .ok ⟨writeTail as, false, rest⟩ := by
  induction as with
  | nil => exact (tagTail.eq_def _).trans (if_pos rfl)
  | cons a as ih =>
    obtain ⟨⟨hname, hvalue⟩, has⟩ := List.forall_mem_cons.1 has
    have hequal := tagTail_char (c := '=') (by decide) (tagTail_value hvalue (ih has))
    have hwhole := tagTail_char (c := ' ') (by decide) (tagTail_append hname hequal)
    have htext : writeTail (a :: as) = ' ' :: (a.name ++ '=' :: (a.value ++ writeTail as)) := by
      simp [writeTail, Written.write]
    rw [htext]
    simp only [List.cons_append, List.append_assoc, hwhole, TagTail.prepend, List.nil_append]

end Markup.Svelte
