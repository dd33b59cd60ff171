/-!
# Json/Basic — JSON values whose objects remember the order of their keys

Rules and node metadata are kept as JSON and handed back in the order in which they came, so an
object is a list of `Fields`.  `Fields.put` **overwrites in place** and appends a new key at the
end; its laws are those of a node's metadata (`Node.get?_setMeta`, `Node.keys_setMeta`).  A number
is kept as it was written, so no precision is lost in passing.
-/

namespace Markup

/-- A **JSON value**; a number is its numeral and an object its fields in order. -/
inductive Json where
  | null
  | bool (b : Bool)
  | number (numeral : String)
  | string (s : String)
  | array (items : List Json)
  | object (fields : List (String × Json))
deriving Inhabited

namespace Json

/-- The numeral of a natural number. -/
def ofNat (n : Nat) : Json := .number (toString n)

/-- A value that may be absent, with `null` for its absence. -/
def ofOption {α : Type} (f : α → Json) : Option α → Json
  | none => .null
  | some a => f a

/-- A list of numbers. -/
def ofNats (ns : List Nat) : Json := .array (ns.map ofNat)

/-- Keys with values, in the order of the keys' arrival. -/
abbrev Fields := List (String × Json)

namespace Fields

/-- The value of a key. -/
def get? (fs : Fields) (k : String) : Option Json := fs.lookup k

/-- The keys in order. -/
def keys (fs : Fields) : List String := fs.map Prod.fst

/-- Gives a key a value: **in place** if the key is there, at the end if it is new. -/
def put : Fields → String → Json → Fields
  | [], k, v => [(k, v)]
  | (a, w) :: fs, k, v => if a = k then (k, v) :: fs else (a, w) :: put fs k v

/-- The fields that a sequence of assignments leaves. -/
def ofAssignments (fs : List (String × Json)) : Fields := fs.foldl (fun acc f => acc.put f.1 f.2) []

variable {fs : Fields} {k k' : String} {v : Json}

theorem get?_put_self : (fs.put k v).get? k = some v := by
  induction fs with
  | nil => simp [put, get?]
  | cons f fs ih =>
    obtain ⟨a, w⟩ := f
    by_cases h : a = k
    · simp [put, get?, h]
    · have h' : (k == a) = false := by simpa using fun e : k = a => h e.symm
      simpa [put, get?, h, List.lookup_cons, h'] using ih

theorem get?_put_of_ne (h : k' ≠ k) : (fs.put k v).get? k' = fs.get? k' := by
  have hk : (k' == k) = false := by simpa using h
  induction fs with
  | nil => simp [put, get?, List.lookup_cons, hk]
  | cons f fs ih =>
    obtain ⟨a, w⟩ := f
    by_cases hf : a = k
    · subst hf; simp [put, get?, List.lookup_cons, hk]
    · have ih' : List.lookup k' (put fs k v) = List.lookup k' fs := ih
      simp [put, get?, hf, List.lookup_cons, ih']

/-- **Overwriting moves nothing.** -/
theorem keys_put_of_mem (h : k ∈ fs.keys) : (fs.put k v).keys = fs.keys := by
  induction fs with
  | nil => simp [keys] at h
  | cons f fs ih =>
    obtain ⟨a, w⟩ := f
    by_cases hf : a = k
    · simp [put, keys, hf]
    · have h' : k ∈ keys fs := by
        simp only [keys, List.map_cons, List.mem_cons] at h
        exact h.resolve_left fun e => hf e.symm
      have := ih h'
      simp only [keys] at this
      simp [put, keys, hf, this]

/-- **A new key goes to the end.** -/
theorem keys_put_of_not_mem (h : k ∉ fs.keys) : (fs.put k v).keys = fs.keys ++ [k] := by
  induction fs with
  | nil => simp [put, keys]
  | cons f fs ih =>
    simp only [keys, List.map_cons, List.mem_cons, not_or] at h
    obtain ⟨a, w⟩ := f
    have hf : ¬ a = k := fun e => h.1 e.symm
    have := ih h.2
    simp only [keys] at this
    simp [put, keys, hf, this]

end Fields

/-! ## Reading a record out of a value -/

/-- The bound of the unsigned integers that a record may hold: 64 bits. -/
def natBound : Nat := 18446744073709551616

/-- The natural number below `natBound` that a numeral of digits alone stands for. -/
def toNat? : Json → Option Nat
  | .number s =>
    let ds := s.toList
    if ds.isEmpty || !ds.all Char.isDigit then none
    else
      let n := ds.foldl (fun n d => 10 * n + (d.toNat - '0'.toNat)) 0
      if n < natBound then some n else none
  | _ => none

/-- The truth value. -/
def toBool? : Json → Option Bool
  | .bool b => some b
  | _ => none

/-- The text. -/
def toString? : Json → Option String
  | .string s => some s
  | _ => none

/-- The fields of an object. -/
def toFields? : Json → Option Fields
  | .object fs => some fs
  | _ => none

/-- **A record's columns**: an object gives each name its field, an array gives the names its items
in order and may not have more items than there are names; nothing else is a record. -/
def columns? (names : List String) : Json → Option (List (Option Json))
  | .object fs => some (names.map (Fields.get? fs))
  | .array items =>
    if names.length < items.length then none
    else some ((names.zipIdx).map fun n => items[n.2]?)
  | _ => none

/-- A column that has a default: absent is the default, present must be read. -/
def column? {α : Type} (read : Json → Option α) (default : α) : Option Json → Option α
  | none => some default
  | some v => read v

end Json

end Markup
