/-!
# Text/Bytes — offsets counted in the bytes of the UTF-8 encoding

A text is a list of characters and a position in it a number of bytes.  `byteSize` measures a text,
`dropBytes?` and `takeBytes?` cut it at a position and answer `none` where the position lies past
the end or **inside a character**, and `slice?` is the text between two positions.  `slice?_append`
reads a slice off a decomposition of the text, which is all that later proofs need of it.
-/

namespace Markup.Text

/-- The number of bytes that a text takes. -/
def byteSize : List Char → Nat
  | [] => 0
  | c :: cs => c.utf8Size + byteSize cs

@[simp] theorem byteSize_nil : byteSize [] = 0 := rfl

@[simp] theorem byteSize_cons (c : Char) (cs : List Char) :
    byteSize (c :: cs) = c.utf8Size + byteSize cs := rfl

@[simp] theorem byteSize_append (as bs : List Char) :
    byteSize (as ++ bs) = byteSize as + byteSize bs := by
  induction as with
  | nil => simp
  | cons a as ih => simp [ih, Nat.add_assoc]

/-- Only the empty text takes no bytes. -/
theorem byteSize_eq_zero {cs : List Char} : byteSize cs = 0 ↔ cs = [] := by
  cases cs with
  | nil => simp
  | cons c cs => have := c.utf8Size_pos; simp only [byteSize_cons, reduceCtorEq, iff_false]; omega

/-- What follows the first `n` bytes, if a character ends there. -/
def dropBytes? : Nat → List Char → Option (List Char)
  | 0, cs => some cs
  | _ + 1, [] => none
  | n + 1, c :: cs => if c.utf8Size ≤ n + 1 then dropBytes? (n + 1 - c.utf8Size) cs else none

/-- The first `n` bytes, if a character ends there. -/
def takeBytes? : Nat → List Char → Option (List Char)
  | 0, _ => some []
  | _ + 1, [] => none
  | n + 1, c :: cs =>
    if c.utf8Size ≤ n + 1 then (takeBytes? (n + 1 - c.utf8Size) cs).map (c :: ·) else none

/-- The text between two positions, if both lie in it at ends of characters and in order. -/
def slice? (start stop : Nat) (cs : List Char) : Option (List Char) :=
  if start ≤ stop then (dropBytes? start cs).bind (takeBytes? (stop - start)) else none

/-- A **boundary**: a position in the text at which no character is cut. -/
def isBoundary (n : Nat) (cs : List Char) : Bool := (dropBytes? n cs).isSome

/-- The last boundary at or before a position. -/
def floorBoundary : Nat → List Char → Nat
  | _, [] => 0
  | n, c :: cs => if c.utf8Size ≤ n then c.utf8Size + floorBoundary (n - c.utf8Size) cs else 0

/-- What follows the first `n` bytes; a character that would be cut goes with the first part. -/
def dropBytes : Nat → List Char → List Char
  | 0, cs => cs
  | _ + 1, [] => []
  | n + 1, c :: cs => dropBytes (n + 1 - c.utf8Size) cs

theorem dropBytes?_byteSize (as bs : List Char) :
    dropBytes? (byteSize as) (as ++ bs) = some bs := by
  induction as with
  | nil => simp [dropBytes?]
  | cons a as ih =>
    obtain ⟨n, hn⟩ := Nat.exists_eq_succ_of_ne_zero (Nat.pos_iff_ne_zero.1 a.utf8Size_pos)
    have h : a.utf8Size + byteSize as = n + byteSize as + 1 := by omega
    simp only [byteSize_cons, List.cons_append, h, dropBytes?]
    rw [if_pos (by omega), show n + byteSize as + 1 - a.utf8Size = byteSize as by omega, ih]

theorem takeBytes?_byteSize (as bs : List Char) :
    takeBytes? (byteSize as) (as ++ bs) = some as := by
  induction as with
  | nil => simp [takeBytes?]
  | cons a as ih =>
    obtain ⟨n, hn⟩ := Nat.exists_eq_succ_of_ne_zero (Nat.pos_iff_ne_zero.1 a.utf8Size_pos)
    have h : a.utf8Size + byteSize as = n + byteSize as + 1 := by omega
    simp only [byteSize_cons, List.cons_append, h, takeBytes?]
    rw [if_pos (by omega), show n + byteSize as + 1 - a.utf8Size = byteSize as by omega, ih]
    rfl

/-- **A slice is the middle of a decomposition** of the text at the two positions. -/
theorem slice?_append (as bs cs : List Char) :
    slice? (byteSize as) (byteSize as + byteSize bs) (as ++ bs ++ cs) = some bs := by
  simp [slice?, dropBytes?_byteSize, takeBytes?_byteSize, List.append_assoc]

/-- A cut that drops something from a text leaves fewer characters. -/
theorem length_dropBytes_le (n : Nat) (cs : List Char) : (dropBytes n cs).length ≤ cs.length := by
  induction cs generalizing n with
  | nil => cases n <;> simp [dropBytes]
  | cons c cs ih =>
    cases n with
    | zero => simp [dropBytes]
    | succ n =>
      have := ih (n + 1 - c.utf8Size)
      simp only [dropBytes, List.length_cons]
      omega

theorem length_dropBytes_lt {n : Nat} {cs : List Char} (hn : n ≠ 0) (hc : cs ≠ []) :
    (dropBytes n cs).length < cs.length := by
  cases cs with
  | nil => exact absurd rfl hc
  | cons c cs =>
    cases n with
    | zero => exact absurd rfl hn
    | succ n =>
      have := length_dropBytes_le (n + 1 - c.utf8Size) cs
      simp only [dropBytes, List.length_cons]
      omega

end Markup.Text
