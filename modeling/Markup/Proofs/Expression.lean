import Markup.Expression
import Markup.Proofs.Text.Slice

/-!
# Proofs/Expression — what ends an expression

An expression ends **at its closing character and nowhere else** (`eq_close_of_split?`): whatever
the nesting, the outermost context is the one that the scan began in, because reading a character
leaves or enters one context at most (`State.moves_step`), so the character that ends it is settled
from the beginning (`State.closer`).  Where it ends does not depend on what follows (`scan_append`),
nor on what comes before, and so the **search for the end of an expression or a template literal is
local** (`endsLocally_of_endOffset?`).
-/

namespace Markup.Expression

variable {close b c : Char} {as bs cs text : List Char} {start stop : Nat} {st next : State}

/-- The character that ends a context: an expression's is given. -/
def Context.closer (close : Char) : Context → Char
  | .code _ => close
  | .literal => '`'

namespace State

/-- The character that ends the **outermost** context. -/
def closer (close : Char) (st : State) : Char :=
  ((st.here :: st.outer).getLast (List.cons_ne_nil _ _)).closer close

/-- **What reading a character may do**: leave a context, go on in it, open or close a bracket, or
enter a context. -/
inductive Moves (close c : Char) (st : State) : Option State → Prop
  | leave (ends : c = st.here.closer (if st.outer = [] then close else '}')) :
      Moves close c st st.leave
  | stay (reading : Reading) : Moves close c st (some { st with reading })
  | bracket {closers : List Char} (here : st.here = .code closers) (others : List Char) :
      Moves close c st (some { st with here := .code others, reading := .plain })
  | enter (here : Context) : Moves close c st (some ⟨here, st.here :: st.outer, .plain⟩)

theorem moves_stepCode {closers : List Char} (hhere : st.here = .code closers) :
    Moves close c st (st.stepCode close c closers) := by
  rw [stepCode]
  by_cases hend : closers = [] ∧ c = (if st.outer = [] then close else '}')
  · rw [if_pos hend]
    exact Moves.leave (hhere ▸ hend.2)
  · rw [if_neg hend]
    split
    · exact Moves.bracket hhere _
    · split
      · exact Moves.bracket hhere _
      · split
        · exact Moves.stay _
        · split
          · exact hhere ▸ Moves.enter _
          · exact Moves.stay _

theorem moves_stepLiteral (hhere : st.here = .literal) : Moves close c st (st.stepLiteral c) := by
  rw [stepLiteral]
  split
  · exact Moves.stay _
  · split
    · next hend => exact Moves.leave (hhere ▸ hend)
    · split
      · exact Moves.stay _
      · split
        · exact hhere ▸ Moves.enter _
        · exact Moves.stay _

/-- **The moves are all that there is.** -/
theorem moves_step (close c : Char) (st : State) : Moves close c st (st.step close c) := by
  rw [step]
  split
  · exact Moves.stay _
  · exact Moves.stay _
  · next q hreading =>
    split
    · exact Moves.stay _
    · split
      · exact Moves.stay _
      · exact Moves.stay st.reading
  all_goals
    split
    · next hhere => exact moves_stepCode hhere
    · next hhere => exact moves_stepLiteral hhere

/-- Whatever is read, the outermost context is ended by the same character… -/
theorem closer_step (hstep : st.step close c = some next) :
    next.closer close = st.closer close := by
  have hmoves := moves_step close c st
  generalize st.step close c = result at hmoves hstep
  cases hmoves with
  | leave =>
    unfold State.leave at hstep
    split at hstep
    · simp at hstep
    · next context outer houter =>
      obtain rfl := Option.some.inj hstep
      simp only [closer, houter, List.getLast_cons_cons]
  | stay =>
    obtain rfl := Option.some.inj hstep
    rfl
  | bracket hhere others =>
    obtain rfl := Option.some.inj hstep
    cases houter : st.outer with
    | nil => simp only [closer, houter, hhere, List.getLast_singleton, Context.closer]
    | cons context outer => simp only [closer, houter, List.getLast_cons_cons]
  | enter =>
    obtain rfl := Option.some.inj hstep
    simp only [closer, List.getLast_cons_cons]

/-- …until this character ends it. -/
theorem eq_closer (hstep : st.step close c = none) : c = st.closer close := by
  have hmoves := moves_step close c st
  generalize st.step close c = result at hmoves hstep
  cases hmoves with
  | leave ends =>
    have houter : st.outer = [] := by
      unfold State.leave at hstep
      split at hstep
      · next houter => exact houter
      · simp at hstep
    simp only [closer, houter, List.getLast_singleton]
    rw [ends, if_pos houter]
  | stay | bracket | enter => simp at hstep

end State

/-- **The character that ends a scan is that of its outermost context.** -/
theorem eq_closer_of_scan (h : scan close st cs = some (as, b :: bs)) : b = st.closer close := by
  induction cs generalizing st as with
  | nil => simp [scan] at h
  | cons c cs ih =>
    rw [scan] at h
    cases hstep : st.step close c with
    | none =>
      rw [hstep] at h
      obtain ⟨-, rfl, -⟩ : [] = as ∧ c = b ∧ cs = bs := by simpa using h
      exact State.eq_closer hstep
    | some next =>
      rw [hstep] at h
      obtain ⟨⟨as', bs'⟩, hscan, h⟩ := Option.map_eq_some_iff.1 h
      obtain ⟨rfl, rfl⟩ := Prod.mk.inj h
      exact (ih hscan).trans (State.closer_step hstep)

/-- **A scan ends where it does, whatever follows.** -/
theorem scan_append (h : scan close st cs = some (as, b :: bs)) (others : List Char) :
    scan close st (as ++ b :: others) = some (as, b :: others) := by
  induction cs generalizing st as with
  | nil => simp [scan] at h
  | cons c cs ih =>
    rw [scan] at h
    cases hstep : st.step close c with
    | none =>
      rw [hstep] at h
      obtain ⟨rfl, rfl, rfl⟩ : [] = as ∧ c = b ∧ cs = bs := by simpa using h
      rw [List.nil_append, scan, hstep]
    | some next =>
      rw [hstep] at h
      obtain ⟨⟨as', bs'⟩, hscan, h⟩ := Option.map_eq_some_iff.1 h
      obtain ⟨rfl, rfl⟩ := Prod.mk.inj h
      rw [List.cons_append, scan, hstep]
      simp only [ih hscan, Option.map_some]

/-- **An expression ends at its closing character**… -/
theorem eq_close_of_split? (h : split? close cs = some (as, b :: bs)) : b = close :=
  eq_closer_of_scan h

/-- …and there whatever follows. -/
theorem split?_append (h : split? close cs = some (as, b :: bs)) (others : List Char) :
    split? close (as ++ b :: others) = some (as, b :: others) :=
  scan_append h others

/-! ## Places in a text -/

/-- **A search that ends locally**: from `start` on it stops at `stop` with a `close`, and in every
text that has the same characters between the two and that one behind them, whatever comes before
and after, it stops there. -/
def EndsLocally (find : List Char → Nat → Option Nat) (close : Char) (text : List Char)
    (start stop : Nat) : Prop :=
  ∃ before inner after, text = before ++ inner ++ close :: after ∧ Text.byteSize before = start ∧
    start + Text.byteSize inner = stop ∧ ∀ before' after',
      find (before' ++ inner ++ close :: after') (Text.byteSize before') =
        some (Text.byteSize before' + Text.byteSize inner)

/-- The offset at which a scan that begins at `start` ends. -/
def scanEnd? (close : Char) (st : State) (text : List Char) (start : Nat) : Option Nat :=
  (Text.dropBytes? start text).bind fun cs =>
    (scan close st cs).map fun parts => start + Text.byteSize parts.1

/-- **A scan from any nesting ends locally**, at the character of its outermost context. -/
theorem endsLocally_of_scanEnd? (st : State) (h : scanEnd? close st text start = some stop) :
    EndsLocally (scanEnd? close st) (st.closer close) text start stop := by
  obtain ⟨cs, hdrop, h⟩ := Option.bind_eq_some_iff.1 h
  obtain ⟨⟨inner, rest⟩, hscan, hstop⟩ := Option.map_eq_some_iff.1 h
  obtain ⟨before, rfl, hstart⟩ := Text.dropBytes?_eq_some_iff.1 hdrop
  obtain ⟨rfl, hne⟩ := append_of_scan hscan
  obtain ⟨b, after, rfl⟩ := List.exists_cons_of_ne_nil hne
  obtain rfl := eq_closer_of_scan hscan
  refine ⟨before, inner, after, (List.append_assoc _ _ _).symm, hstart, hstop, ?_⟩
  intro before' after'
  rw [scanEnd?, List.append_assoc, Text.dropBytes?_byteSize, Option.bind_some,
    scan_append hscan after', Option.map_some]

/-- **Where an expression ends, and where a template literal does, is told by what stands between
its beginning and its closing character alone**: neither what comes before nor what follows has a
part in it. -/
theorem endsLocally_of_endOffset? (close : Char) (text : List Char) (start stop : Nat) :
    (endOffset? close text start = some stop →
      EndsLocally (endOffset? close) close text start stop) ∧
    (literalEndOffset? text start = some stop →
      EndsLocally literalEndOffset? '`' text start stop) :=
  ⟨endsLocally_of_scanEnd? {}, endsLocally_of_scanEnd? { here := .literal }⟩

/-- An expression between braces that are not its own: a string that holds a brace, then a template
literal with a wide character, an escaped backtick and a hole that holds a brace in a string. -/
def braceInHole : List Char := "\x7d\x7b[\"\x7d\",`é\\`$\x7b'\x7d'\x7d`]\x7d\x7d".toList

theorem endsLocally_braceInHole :
    (endOffset? '}' braceInHole 2 = some 20 ∧
      EndsLocally (endOffset? '}') '}' braceInHole 2 20) ∧
    literalEndOffset? braceInHole 8 = some 18 ∧
      EndsLocally literalEndOffset? '`' braceInHole 8 18 := by
  have hcode : endOffset? '}' braceInHole 2 = some 20 := by decide
  have hliteral : literalEndOffset? braceInHole 8 = some 18 := by decide
  exact ⟨⟨hcode, (endsLocally_of_endOffset? '}' braceInHole 2 20).1 hcode⟩,
    hliteral, (endsLocally_of_endOffset? '}' braceInHole 8 18).2 hliteral⟩

end Markup.Expression
