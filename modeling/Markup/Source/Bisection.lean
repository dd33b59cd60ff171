/-!
# Source/Bisection — the end of an initial run in a sorted array

`partitionPoint p xs` is the number of leading elements that satisfy `p` when the elements that do
come first.  `bisect` finds it by halving an interval; `bisect_eq` says that on a **downward closed
test** the halving finds the one place where the test turns, and `partitionPoint_eq` reads this on
an array.
-/

namespace Markup

/-- The first number from `lo` to `hi` that fails a test which fails from some point on. -/
def bisect (p : Nat → Bool) (lo hi : Nat) : Nat :=
  if lo < hi then
    let mid := (lo + hi) / 2
    if p mid then bisect p (mid + 1) hi else bisect p lo mid
  else lo
termination_by hi - lo

/-- The number of leading elements that satisfy `p`, where all that do come first. -/
def partitionPoint {α : Type} (p : α → Bool) (xs : Array α) : Nat :=
  bisect (fun i => xs[i]?.any p) 0 xs.size

/-- **Bisection finds the turning point** of a test that holds below it and fails from it on. -/
theorem bisect_eq {p : Nat → Bool} {lo hi k : Nat} (hlo : lo ≤ k) (hhi : k ≤ hi)
    (below : ∀ i, i < k → p i = true) (above : ∀ i, k ≤ i → i < hi → p i = false) :
    bisect p lo hi = k := by
  fun_induction bisect p lo hi with
  | case1 lo hi hlt mid hp ih =>
    refine ih ?_ hhi above
    rcases Nat.lt_or_ge mid k with h | h
    · exact h
    · have := above mid h (by omega)
      simp_all
  | case2 lo hi hlt mid hp ih =>
    have hk : k ≤ mid := by
      rcases Nat.lt_or_ge mid k with h | h
      · exact absurd (below mid h) hp
      · exact h
    exact ih hlo hk fun i hi hm => above i hi (by omega)
  | case3 lo hi hlt => omega

/-- The partition point of an array whose first `k` elements are those that satisfy `p`. -/
theorem partitionPoint_eq {α : Type} {p : α → Bool} {xs : Array α} {k : Nat} (hk : k ≤ xs.size)
    (below : ∀ i (h : i < xs.size), i < k → p xs[i] = true)
    (above : ∀ i (h : i < xs.size), k ≤ i → p xs[i] = false) : partitionPoint p xs = k := by
  refine bisect_eq (Nat.zero_le k) hk (fun i hi => ?_) (fun i hi h => ?_)
  · have h : i < xs.size := by omega
    simpa [h] using below i h hi
  · simpa [h] using above i h hi

end Markup
