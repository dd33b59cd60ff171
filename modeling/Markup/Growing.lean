/-!
# Growing — trees that grow while a text is read

A reader of markup keeps what is finished and the **stack of what is open**, innermost first.  What
has been finished goes into what is open innermost, or to the roots, and what is open becomes
something finished when it is closed.  What may be open is a reader's own affair; all that is asked
of it is that it is a `Holder` of finished things.
-/

namespace Markup

/-- **What is open holds what has been finished inside it**: it takes finished things, last first,
and several at once as it would one after the other. -/
class Holder (L : Type) (T : outParam Type) where
  take : List T → L → L
  take_nil : ∀ l, take [] l = l
  take_take : ∀ ts us l, take ts (take us l) = take (ts ++ us) l

/-- **Trees that grow**: where reading goes on, the finished roots, last first, and what is open,
innermost first. -/
structure Growing (T L : Type) where
  offset : Nat := 0
  roots : List T := []
  stack : List L := []

namespace Growing

variable {T L : Type} [Holder L T]

/-- Adds something finished to what is open innermost, or to the roots. -/
def add (g : Growing T L) (t : T) : Growing T L :=
  match g.stack with
  | [] => { g with roots := t :: g.roots }
  | l :: outer => { g with stack := Holder.take [t] l :: outer }

/-- **Closes what is open innermost.** -/
def closeTop (close : L → T) (g : Growing T L) : Growing T L :=
  match g.stack with
  | [] => g
  | l :: outer => { g with stack := outer }.add (close l)

@[simp] theorem add_nil (offset : Nat) (roots : List T) (t : T) :
    add (⟨offset, roots, []⟩ : Growing T L) t = ⟨offset, t :: roots, []⟩ := rfl

@[simp] theorem add_cons (offset : Nat) (roots : List T) (l : L) (outer : List L) (t : T) :
    add ⟨offset, roots, l :: outer⟩ t = ⟨offset, roots, Holder.take [t] l :: outer⟩ := rfl

end Growing

end Markup
