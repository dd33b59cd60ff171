import Markup.Growing

/-!
# Proofs/Growing — what holds while trees grow

What holds of all that is finished, and of what is open, is kept when something is added, opened or
closed, as long as **what is open keeps its part when it takes something that has its own**
(`Growing.Holds`).  Several finished things that are added one after the other are added all at once
(`Growing.addAll_addUpTo`).
-/

namespace Markup

namespace Growing

variable {T L : Type} [Holder L T] {g : Growing T L} {p : T → Prop} {q : L → Prop}

/-! ## Growing by finished things -/

/-- Grows by something finished, up to an offset… -/
def addUpTo (g : Growing T L) (t : T) (offset : Nat) : Growing T L := { g.add t with offset }

/-- …and by several things. -/
def addAll (g : Growing T L) (ts : List T) (offset : Nat) : Growing T L :=
  match g.stack with
  | [] => { g with offset, roots := ts.reverse ++ g.roots }
  | l :: outer => { g with offset, stack := Holder.take ts.reverse l :: outer }

theorem addAll_nil (g : Growing T L) : g.addAll [] g.offset = g := by
  obtain ⟨offset, roots, stack⟩ := g
  cases stack with
  | nil => rfl
  | cons l outer => simp [addAll, Holder.take_nil]

/-- Growing by one thing and then by others is growing by all of them. -/
theorem addAll_addUpTo (g : Growing T L) (t : T) (ts : List T) (mid stop : Nat) :
    (g.addUpTo t mid).addAll ts stop = g.addAll (t :: ts) stop := by
  obtain ⟨offset, roots, stack⟩ := g
  cases stack with
  | nil => simp [addAll, addUpTo]
  | cons l outer => simp [addAll, addUpTo, Holder.take_take]

/-! ## What holds of all that has grown -/

/-- **Something holds of all that is finished**, and something of all that is open. -/
structure Holds (p : T → Prop) (q : L → Prop) (g : Growing T L) : Prop where
  roots : ∀ t ∈ g.roots, p t
  opened : ∀ l ∈ g.stack, q l

namespace Holds

omit [Holder L T] in
theorem start : Holds p q {} := ⟨by simp, by simp⟩

theorem add (h : g.Holds p q) {t : T} (ht : p t)
    (htake : ∀ t l, p t → q l → q (Holder.take [t] l)) : (g.add t).Holds p q := by
  obtain ⟨offset, roots, stack⟩ := g
  cases stack with
  | nil => exact ⟨List.forall_mem_cons.2 ⟨ht, h.roots⟩, h.opened⟩
  | cons l outer =>
    obtain ⟨hl, houter⟩ := List.forall_mem_cons.1 h.opened
    exact ⟨h.roots, List.forall_mem_cons.2 ⟨htake t l ht hl, houter⟩⟩

omit [Holder L T] in
theorem enter (h : g.Holds p q) {l : L} (hl : q l) :
    Holds p q { g with stack := l :: g.stack } :=
  ⟨h.roots, List.forall_mem_cons.2 ⟨hl, h.opened⟩⟩

/-- **Closing what is open innermost** adds what it becomes. -/
theorem closeTop {close : L → T} (h : g.Holds p q)
    (hclose : ∀ l, g.stack.head? = some l → q l → p (close l))
    (htake : ∀ t l, p t → q l → q (Holder.take [t] l)) : (g.closeTop close).Holds p q := by
  obtain ⟨offset, roots, stack⟩ := g
  cases stack with
  | nil => exact h
  | cons l outer =>
    obtain ⟨hl, houter⟩ := List.forall_mem_cons.1 h.opened
    have hinner : Holds p q { offset, roots, stack := outer } := ⟨h.roots, houter⟩
    exact hinner.add (hclose l rfl hl) htake

omit [Holder L T] in
/-- Where reading goes on is no matter. -/
theorem upTo (h : g.Holds p q) (offset : Nat) : Holds p q { g with offset } := ⟨h.roots, h.opened⟩

end Holds

end Growing

end Markup
