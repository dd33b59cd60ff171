import Markup.Proofs.Source.Token

/-!
# Proofs/Source/Refusal — errors that are a text's own

An error is `Located` in a source if it **refuses the text at a place of it**: it is no fault of a
caller, no range was asked for that the text does not have, and its token is a slice.  A computation
`Decides` a source if it succeeds as asked or ends with such an error; `Decides.bind` puts such
computations together, so each function needs one lemma.
-/

namespace Markup

/-- **An error that refuses a source at a place of it.** -/
structure Error.Located (source : Source) (e : Error) : Prop where
  refused : e.kind = .refused
  token : ∃ span, source.slice span = .ok e.token

/-- **A rejection points at a range of the text.** -/
def Rejection.PointsInto (r : Rejection) (text : List Char) : Prop :=
  Text.IsRange text r.span.start r.span.stop

namespace Source

variable {source : Source} {α β : Type} {start stop : Nat}

/-- **A computation decides a source**: it succeeds as asked, or refuses the source at a place of
it. -/
inductive Decides (source : Source) (p : α → Prop) : Except Error α → Prop
  | ok {a : α} (holds : p a) : Decides source p (.ok a)
  | refused {e : Error} (located : e.Located source) : Decides source p (.error e)

namespace Decides

variable {p : α → Prop} {q : β → Prop} {x : Except Error α}

/-- A result of such a computation is as asked… -/
theorem holds (h : source.Decides p x) {a : α} (ha : x = .ok a) : p a := by
  subst ha
  cases h with
  | ok holds => exact holds

/-- …and an error is located. -/
theorem located (h : source.Decides p x) {e : Error} (he : x = .error e) : e.Located source := by
  subst he
  cases h with
  | refused located => exact located

/-- **Computations that decide a source one after the other decide it.** -/
theorem bind (h : source.Decides p x) {f : α → Except Error β}
    (hf : ∀ a, x = .ok a → p a → source.Decides q (f a)) : source.Decides q (x >>= f) := by
  cases h with
  | ok holds => exact hf _ rfl holds
  | refused located => exact .refused located

/-- What is asked for may be less than what holds. -/
theorem mono (h : source.Decides p x) {p' : α → Prop} (hp : ∀ a, p a → p' a) :
    source.Decides p' x := by
  cases h with
  | ok holds => exact .ok (hp _ holds)
  | refused located => exact .refused located

end Decides

/-! ## Ranges and places of a source -/

/-- **A range of the text has a token.** -/
theorem exists_slice_of_isRange (h : Text.IsRange source.text start stop) :
    ∃ token, source.slice ⟨start, stop⟩ = .ok token := by
  obtain ⟨raw, hraw⟩ := h
  obtain ⟨token, htoken, -⟩ := exists_slice hraw
  exact ⟨token, htoken⟩

/-- **An empty token is a slice**, wherever it was asked for. -/
theorem exists_slice_emptyToken (source : Source) (offset : Nat) :
    ∃ span, source.slice span = .ok (source.emptyToken offset) := by
  have hhere := Text.isBoundary_floorBoundary offset source.text
  obtain ⟨token, htoken⟩ :=
    exists_slice_of_isRange (Text.isRange_of_isBoundary hhere hhere (Nat.le_refl _))
  have hempty := slice_emptyToken htoken
  have hfloor := Text.floorBoundary_of_slice? (slice?_of_slice htoken)
  refine ⟨_, hempty.trans (congrArg Except.ok ?_)⟩
  rw [emptyToken, emptyToken, hfloor]

/-- What is refused at an empty token is located… -/
theorem located_emptyToken {cause : Cause} (h : cause.kind = .refused) (offset : Nat) :
    Error.Located source ⟨cause, source.emptyToken offset⟩ :=
  ⟨h, source.exists_slice_emptyToken offset⟩

/-- …so is what is refused at a slice… -/
theorem located_slice {cause : Cause} (h : cause.kind = .refused) {span : Span} {token : Token}
    (htoken : source.slice span = .ok token) : Error.Located source ⟨cause, token⟩ :=
  ⟨h, span, htoken⟩

/-- …and **whatever a rejection becomes**, wherever it points. -/
theorem located_reject (message : String) (range : Span) :
    (source.reject message range).Located source := by
  rw [reject]
  split
  · next htoken => exact located_slice rfl htoken
  · exact located_emptyToken rfl _

end Source

end Markup
