import Mathlib.Data.List.Nodup
import Mathlib.Tactic.SplitIfs
import Markup.Blueprint.Arena

/-!
# Proofs/Blueprint/Relocation — moving a node with what hangs from it

Links point forward and no place is linked twice (`Arena.Branching`), so one pass over the later
nodes finds **each node that hangs from a given one, and finds it once** (`mem_carried_iff`,
`nodup_carried`).  A node that is moved therefore takes all of these with it, each by the same
difference in depth, and leaves the others where they are (`toList_relocate`).
-/

namespace Markup

namespace Arena

variable {a : Arena} {start id i n : Nat}

/-- **From a place on, links point forward** and no place is linked twice. -/
structure Branching (a : Arena) (start : Nat) : Prop where
  forward : ∀ p i : Nat, start ≤ p → i ∈ a.links p → p < i
  unique : ∀ p q i : Nat, start ≤ p → start ≤ q → i ∈ a.links p → i ∈ a.links q → p = q
  nodup : ∀ p : Nat, start ≤ p → (a.links p).Nodup

theorem Branching.mono (h : a.Branching start) (hle : start ≤ id) : a.Branching id where
  forward p i hp := h.forward p i (Nat.le_trans hle hp)
  unique p q i hp hq := h.unique p q i (Nat.le_trans hle hp) (Nat.le_trans hle hq)
  nodup p hp := h.nodup p (Nat.le_trans hle hp)

/-! ## What hangs from a node -/

/-- What has been found to hang from a node after `n` places, its own included. -/
def foundWithin (a : Arena) (id n : Nat) : List NodeId :=
  (List.range' id n).foldl
    (fun found next => if next ∈ found then found ++ a.links next else found) [id]

theorem foundWithin_succ (a : Arena) (id n : Nat) :
    a.foundWithin id (n + 1) =
      if id + n ∈ a.foundWithin id n then a.foundWithin id n ++ a.links (id + n)
      else a.foundWithin id n := by
  rw [foundWithin, List.range'_1_concat, List.foldl_concat]
  rfl

/-- A link is found with its origin, once the pass has come past that. -/
theorem mem_foundWithin_iff (h : a.Branching id) :
    i ∈ a.foundWithin id n ↔
      i = id ∨ ∃ p ∈ a.foundWithin id n, p < id + n ∧ i ∈ a.links p := by
  induction n generalizing i with
  | zero =>
    refine ⟨fun hi => Or.inl (List.mem_singleton.1 hi), ?_⟩
    rintro (rfl | ⟨p, hp, hlt, -⟩)
    · exact List.mem_singleton_self i
    · exact absurd (List.mem_singleton.1 hp) (Nat.ne_of_lt hlt)
  | succ n ih =>
    have hnext : ∀ p, p < id + (n + 1) ↔ p < id + n ∨ p = id + n := fun p => by omega
    rw [foundWithin_succ]
    split
    case isTrue hfound =>
      rw [List.mem_append, ih]
      constructor
      · rintro ((rfl | ⟨p, hp, hlt, hi⟩) | hi)
        · exact Or.inl rfl
        · exact Or.inr ⟨p, List.mem_append_left _ hp, (hnext p).2 (Or.inl hlt), hi⟩
        · exact Or.inr ⟨_, List.mem_append_left _ hfound, (hnext _).2 (Or.inr rfl), hi⟩
      · rintro (rfl | ⟨p, hp, hlt, hi⟩)
        · exact Or.inl (Or.inl rfl)
        · rcases List.mem_append.1 hp with hp | hlink
          · rcases (hnext p).1 hlt with hlt | rfl
            · exact Or.inl (Or.inr ⟨p, hp, hlt, hi⟩)
            · exact Or.inr hi
          · -- links of the place itself point past it
            have hafter := h.forward _ p (Nat.le_add_right _ _) hlink
            exact absurd hlt (Nat.not_lt.2 hafter)
    case isFalse hfound =>
      rw [ih]
      refine or_congr_right (exists_congr fun p => and_congr_right fun hp => ?_)
      rw [hnext, or_and_right]
      refine (or_iff_left ?_).symm
      rintro ⟨rfl, -⟩
      exact hfound hp

/-- Nothing is found before the node. -/
theorem le_of_mem_foundWithin (h : a.Branching id) (hi : i ∈ a.foundWithin id n) : id ≤ i := by
  induction n generalizing i with
  | zero => exact Nat.le_of_eq (List.mem_singleton.1 hi).symm
  | succ n ih =>
    rw [foundWithin_succ] at hi
    split at hi
    · rcases List.mem_append.1 hi with hi | hlink
      · exact ih hi
      · have := h.forward _ i (Nat.le_add_right _ _) hlink
        omega
    · exact ih hi

theorem nodup_foundWithin (h : a.Branching id) : (a.foundWithin id n).Nodup := by
  induction n with
  | zero => exact List.nodup_singleton id
  | succ n ih =>
    rw [foundWithin_succ]
    split
    · refine ih.append (h.nodup _ (Nat.le_add_right _ _)) fun i hi hlink => ?_
      rcases (mem_foundWithin_iff h).1 hi with rfl | ⟨p, hp, hlt, hi⟩
      · exact absurd (h.forward _ _ (Nat.le_add_right _ _) hlink) (by omega)
      · have hle := le_of_mem_foundWithin h hp
        exact absurd (h.unique p _ i hle (Nat.le_add_right _ _) hi hlink) (Nat.ne_of_lt hlt)
    · exact ih

/-- There are no links from a place outside the list. -/
theorem lt_size_of_mem_links {p : Nat} (hi : i ∈ a.links p) : p < a.size := by
  by_contra hle
  rw [links, Array.getElem?_eq_none (Nat.not_lt.1 hle)] at hi
  exact absurd hi List.not_mem_nil

/-- **What hangs from a node is the node and the links of what hangs from it.** -/
theorem mem_carried_iff (h : a.Branching id) :
    i ∈ a.carried id ↔ i = id ∨ ∃ p ∈ a.carried id, i ∈ a.links p := by
  refine (mem_foundWithin_iff h).trans (or_congr_right (exists_congr fun p => ?_))
  refine and_congr_right fun _ => and_iff_right_of_imp fun hi => ?_
  exact Nat.lt_of_lt_of_le (lt_size_of_mem_links hi) (Nat.sub_le_iff_le_add'.1 (Nat.le_refl _))

theorem le_of_mem_carried (h : a.Branching id) (hi : i ∈ a.carried id) : id ≤ i :=
  le_of_mem_foundWithin h hi

theorem nodup_carried (h : a.Branching id) : (a.carried id).Nodup := nodup_foundWithin h

/-! ## Moving -/

/-- **A depth is shifted exactly** if it stays a signed number. -/
theorem shiftDepth_eq {depth old new : Nat} (hle : old ≤ depth + new)
    (hlt : depth + new - old < signedBound) : shiftDepth depth old new = depth + new - old := by
  have hint : (depth + (new - old) : Int) = ((depth + new - old : Nat) : Int) := by omega
  rw [signedBound] at hlt
  rw [shiftDepth, hint, signedBound, Int.bmod_eq_of_le (by omega) (by omega), Int.toNat_natCast]

/-- **Nodes that are changed one by one**, none of them twice. -/
theorem getElem?_foldl_modify {ids : List NodeId} (hids : ids.Nodup) (f : Node → Node) (a : Arena)
    (i : NodeId) : (ids.foldl (fun a id => a.modify id f) a)[i]? =
      if i ∈ ids then a[i]?.map f else a[i]? := by
  induction ids generalizing a with
  | nil => rfl
  | cons id ids ih =>
    obtain ⟨hid, hids⟩ := List.nodup_cons.1 hids
    rw [List.foldl_cons, ih hids, Array.getElem?_modify]
    by_cases heq : id = i
    · subst heq
      simp [hid]
    · simp [heq, Ne.symm heq]

theorem size_foldl_modify (ids : List NodeId) (f : Node → Node) (a : Arena) :
    (ids.foldl (fun a id => a.modify id f) a).size = a.size := by
  induction ids generalizing a with
  | nil => rfl
  | cons id ids ih => rw [List.foldl_cons, ih, Array.size_modify]

/-- A move adds no node… -/
theorem size_relocate (a : Arena) (position : Position) (id : NodeId) :
    (a.relocate position id).size = a.size := by
  rw [relocate]
  cases a[id]? with
  | none => rfl
  | some node => rw [Array.size_modify, size_foldl_modify]

/-- …and neither do several. -/
theorem size_adopt (a : Arena) (position : Position) (ids : List NodeId) :
    (a.adopt position ids).size = a.size := by
  induction ids generalizing a with
  | nil => rfl
  | cons id ids ih => exact (ih _).trans (size_relocate a position id)

end Arena

/-- A node after another, the `root`, has been moved to a position with what hangs from it. -/
def Node.moved (n : Node) (root : Node) (position : Position) (carried : List NodeId) : Node :=
  { n with
    depth := if n.id ∈ carried then Arena.shiftDepth n.depth root.depth position.depth else n.depth
    parent := if root.id = n.id then position.parent else n.parent }

namespace Arena

variable {a : Arena} {before nodes : List Node} {root : Node}

/-- **A node is moved with all that hangs from it**, and nothing else changes. -/
theorem toList_relocate (position : Position) (h : a.Branching before.length)
    (ha : a.toList = before ++ nodes)
    (hnumbers : nodes.map Node.id = List.range' before.length nodes.length) (hroot : root ∈ nodes) :
    (a.relocate position root.id).toList =
      before ++ nodes.map fun n => n.moved root position (a.carried root.id) := by
  have hid : ∀ (k : Nat) (n : Node), nodes[k]? = some n → n.id = before.length + k := by
    intro k n hk
    obtain ⟨hlt, rfl⟩ := List.getElem?_eq_some_iff.1 hk
    have hget := congrArg (·[k]?) hnumbers
    simpa [hlt] using hget
  obtain ⟨k, hk⟩ := List.getElem?_of_mem hroot
  have hplace : root.id = before.length + k := hid k root hk
  have hget : a[root.id]? = some root := by
    rw [← Array.getElem?_toList, ha, hplace, List.getElem?_append_right (Nat.le_add_right _ _),
      Nat.add_sub_cancel_left, hk]
  have hle : before.length ≤ root.id := hplace ▸ Nat.le_add_right _ _
  have hbranching : a.Branching root.id := h.mono hle
  refine List.ext_getElem? fun i => ?_
  rw [relocate, hget, Array.getElem?_toList, Array.getElem?_modify,
    getElem?_foldl_modify (nodup_carried hbranching), ← Array.getElem?_toList, ha]
  by_cases hi : i < before.length
  · have hlt : i < root.id := Nat.lt_of_lt_of_le hi hle
    have hcarried : i ∉ a.carried root.id := fun hmem =>
      absurd (le_of_mem_carried hbranching hmem) (Nat.not_le.2 hlt)
    have hne : root.id ≠ i := (Nat.ne_of_lt hlt).symm
    rw [List.getElem?_append_left hi, List.getElem?_append_left hi, if_neg hne, if_neg hcarried]
  · obtain ⟨j, rfl⟩ := Nat.exists_eq_add_of_le (Nat.not_lt.1 hi)
    rw [List.getElem?_append_right (Nat.le_add_right _ _), Nat.add_sub_cancel_left,
      List.getElem?_append_right (Nat.le_add_right _ _), Nat.add_sub_cancel_left, List.getElem?_map]
    cases hj : nodes[j]? with
    | none => simp
    | some n =>
      rw [← hid j n hj]
      simp only [Option.map_some, Node.moved]
      split_ifs <;> rfl

end Arena

end Markup
