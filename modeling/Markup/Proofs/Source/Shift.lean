import Markup.Error
import Markup.Options

/-!
# Proofs/Source/Shift — a text in a larger file, and the same text on its own

A `Shift` says how far a text stands from the beginning of the file that holds it.  Whatever a
source answers, **it answers the same where it stands, moved by the shift** (`Source.slice_shift`):
offsets and lines are moved throughout, columns on the first line only.  Offsets that come back are
made local first, so none is moved twice (`Source.toLocal_shift`).
-/

namespace Markup

/-- **How far a text is moved**, and how much deeper its roots stand. -/
structure Shift where
  offset : Nat
  line : Nat
  col : Nat
  depth : Nat

/-- How far options move a text that they embed: lines and columns count from one. -/
def Options.shift (o : Options) : Shift where
  offset := o.offsetOffset
  line := max o.offsetLine 1 - 1
  col := max o.offsetColumn 1 - 1
  depth := o.depth

/-- The source of a text that stands on its own. -/
def Source.alone (text : String) : Source := .ofString text

namespace Shift

variable {α β γ δ : Type} (σ : Shift)

/-- The column of a place that stands on a line of the text. -/
def column (line col : Nat) : Nat := if line = 1 then col + σ.col else col

/-- The token where it stands in the file. -/
def token (t : Token) : Token where
  raw := t.raw
  startOffset := t.startOffset + σ.offset
  endOffset := t.endOffset + σ.offset
  startLine := t.startLine + σ.line
  endLine := t.endLine + σ.line
  startCol := σ.column t.startLine t.startCol
  endCol := σ.column t.endLine t.endCol

/-- The same refusal, at the token in the file. -/
def error (e : Error) : Error where
  cause := e.cause
  token := σ.token e.token

/-- **Two runs in step**: what the one answers moved by `f`, or the same refusal moved. -/
def result (f : α → β) : Except Error α → Except Error β
  | .ok a => .ok (f a)
  | .error e => .error (σ.error e)

/-- The source of a text in the file. -/
def source (text : String) : Source :=
  .ofString text ⟨σ.offset, 1 + σ.line, 1 + σ.col⟩

@[simp] theorem result_ok (f : α → β) (a : α) : σ.result f (.ok a) = .ok (f a) := rfl

@[simp] theorem result_error (f : α → β) (e : Error) :
    σ.result f (.error e) = .error (σ.error e) := rfl

variable {σ}

/-- **Runs that are in step at each of their steps are in step.** -/
theorem result_bind {f : α → β} {h : γ → δ} {x : Except Error α} {x' : Except Error β}
    {g : α → Except Error γ} {g' : β → Except Error δ} (hx : x' = σ.result f x)
    (hg : ∀ a, x = .ok a → g' (f a) = σ.result h (g a)) :
    (x' >>= g') = σ.result h (x >>= g) := by
  subst hx
  cases x with
  | ok a => exact hg a rfl
  | error e => rfl

end Shift

/-- **The source that options embed a text in** is that of their shift. -/
theorem Options.ofString_base (o : Options) (raw : String) :
    Source.ofString raw o.base = o.shift.source raw := by
  simp only [Source.ofString, Shift.source, base, shift, Source.mk.injEq, Base.mk.injEq, true_and,
    and_true]
  omega

namespace Source

variable (σ : Shift) (text : String)

/-- What has been moved is local again. -/
@[simp] theorem toLocal_shift (offset : Nat) :
    (σ.source text).toLocal (offset + σ.offset) = (alone text).toLocal offset :=
  Nat.add_sub_cancel offset σ.offset

/-- **A place has its line moved, and its column on the first line.** -/
theorem location_shift (offset : Nat) :
    (σ.source text).location offset =
      (((alone text).location offset).1 + σ.line,
        σ.column ((alone text).location offset).1 ((alone text).location offset).2) := by
  have hcol : ∀ col, col + (1 + σ.col) - 1 = col + 1 - 1 + σ.col := by omega
  have hfirst : ∀ line, line ≠ 0 → ¬line + 1 = 1 := by omega
  have hmoved : (σ.source text).index.lineOf (min offset (σ.source text).size) =
      (alone text).index.lineOf (min offset (alone text).size) := rfl
  by_cases hline : (alone text).index.lineOf (min offset (alone text).size) = 0
  · rw [location, location, if_pos hline, if_pos (hmoved.trans hline)]
    exact Prod.ext rfl (hcol _)
  · rw [location, location, if_neg hline, if_neg (hmoved ▸ hline)]
    refine Prod.ext (Nat.add_assoc _ 1 σ.line).symm ?_
    exact (if_neg (hfirst _ hline)).symm

theorem tokenOf_shift (raw : List Char) (start stop : Nat) :
    (σ.source text).tokenOf raw start stop = σ.token ((alone text).tokenOf raw start stop) := by
  simp only [tokenOf, location_shift, Shift.token]
  rfl

theorem emptyToken_shift (offset : Nat) :
    (σ.source text).emptyToken offset = σ.token ((alone text).emptyToken offset) :=
  tokenOf_shift σ text _ _ _

/-- **A range has its token where the text stands**, or is refused there. -/
theorem slice_shift (range : Span) :
    (σ.source text).slice range = σ.result σ.token ((alone text).slice range) := by
  have htext : (σ.source text).text = (alone text).text := rfl
  have hsize : (σ.source text).size = (alone text).size := rfl
  simp only [slice, htext, hsize]
  split
  · rw [tokenOf_shift, Shift.result_ok]
  · split
    · rw [emptyToken_shift, Shift.result_error]; rfl
    · rw [emptyToken_shift, Shift.result_error]; rfl

/-- …and so is a text that its dialect rejects. -/
theorem reject_shift (message : String) (range : Span) :
    (σ.source text).reject message range = σ.error ((alone text).reject message range) := by
  rw [reject, reject, slice_shift, emptyToken_shift]
  cases (alone text).slice ⟨min range.start range.stop, range.stop⟩ <;> rfl

end Source

end Markup
