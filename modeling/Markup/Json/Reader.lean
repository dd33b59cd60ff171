import Markup.Json.Basic

/-!
# Json/Reader — reading a JSON text

`Json.parse?` reads a whole text as one value.  An object that repeats a key keeps the **last value
in the first place**.  The reader descends on a budget of one step a character, which no text
exceeds, since every step consumes one.
-/

namespace Markup.Json

namespace Reader

/-- The text without the blanks that JSON allows between its parts. -/
def skip (cs : List Char) : List Char :=
  cs.dropWhile fun c => c == ' ' || c == '\t' || c == '\n' || c == '\r'

/-- The value of a hexadecimal digit. -/
def hexDigit? (c : Char) : Option Nat :=
  if c.isDigit then some (c.toNat - '0'.toNat)
  else if 'a' ≤ c && c ≤ 'f' then some (c.toNat - 'a'.toNat + 10)
  else if 'A' ≤ c && c ≤ 'F' then some (c.toNat - 'A'.toNat + 10)
  else none

/-- The number that four hexadecimal digits write. -/
def hex? (a b c d : Char) : Option Nat := do
  let a ← hexDigit? a
  let b ← hexDigit? b
  let c ← hexDigit? c
  let d ← hexDigit? d
  return ((a * 16 + b) * 16 + c) * 16 + d

/-- The character that a letter after a backslash stands for. -/
def unescape? : Char → Option Char
  | '"' => some '"'
  | '\\' => some '\\'
  | '/' => some '/'
  | 'b' => some '\x08'
  | 'f' => some '\x0c'
  | 'n' => some '\n'
  | 'r' => some '\r'
  | 't' => some '\t'
  | _ => none

/-- The code point of a pair of surrogates. -/
def joinSurrogates (high low : Nat) : Nat := 0x10000 + (high - 0xD800) * 0x400 + (low - 0xDC00)

/-- Reads the rest of a string after its opening quote; `acc` holds what was read, last first. -/
def string (acc : List Char) : List Char → Option (String × List Char)
  | '"' :: cs => some (String.ofList acc.reverse, cs)
  | '\\' :: 'u' :: a :: b :: c :: d :: '\\' :: 'u' :: e :: f :: g :: h :: cs =>
    match hex? a b c d, hex? e f g h with
    | some high, some low =>
      if 0xD800 ≤ high && high < 0xDC00 && 0xDC00 ≤ low && low < 0xE000 then
        string (Char.ofNat (joinSurrogates high low) :: acc) cs
      else string (Char.ofNat high :: acc) ('\\' :: 'u' :: e :: f :: g :: h :: cs)
    | _, _ => none
  | '\\' :: 'u' :: a :: b :: c :: d :: cs =>
    match hex? a b c d with
    | some n => string (Char.ofNat n :: acc) cs
    | none => none
  | '\\' :: c :: cs =>
    match unescape? c with
    | some c => string (c :: acc) cs
    | none => none
  | c :: cs => if c.toNat < 0x20 then none else string (c :: acc) cs
  | [] => none

/-- Digits, at least one. -/
def digits (cs : List Char) : Option (List Char × List Char) :=
  let ds := cs.takeWhile Char.isDigit
  if ds.isEmpty then none else some (ds, cs.dropWhile Char.isDigit)

/-- The whole part of a numeral: no zero leads another digit. -/
def whole : List Char → Option (List Char × List Char)
  | '0' :: cs => some (['0'], cs)
  | cs => digits cs

/-- The decimals of a numeral, if it has any. -/
def decimals : List Char → Option (List Char × List Char)
  | '.' :: cs => (digits cs).map fun d => ('.' :: d.1, d.2)
  | cs => some ([], cs)

/-- The exponent of a numeral, if it has one. -/
def exponent : List Char → Option (List Char × List Char)
  | e :: s :: cs =>
    if e == 'e' || e == 'E' then
      if s == '+' || s == '-' then (digits cs).map fun d => (e :: s :: d.1, d.2)
      else (digits (s :: cs)).map fun d => (e :: d.1, d.2)
    else some ([], e :: s :: cs)
  | cs => if cs == ['e'] || cs == ['E'] then none else some ([], cs)

/-- Reads a numeral. -/
def number (cs : List Char) : Option (Json × List Char) := do
  let (sign, cs) := match cs with
    | '-' :: cs => (['-'], cs)
    | cs => ([], cs)
  let (w, cs) ← whole cs
  let (d, cs) ← decimals cs
  let (e, cs) ← exponent cs
  return (.number (String.ofList (sign ++ w ++ d ++ e)), cs)

mutual

/-- Reads a value. -/
def value : Nat → List Char → Option (Json × List Char)
  | 0, _ => none
  | fuel + 1, cs =>
    match skip cs with
    | 'n' :: 'u' :: 'l' :: 'l' :: cs => some (.null, cs)
    | 't' :: 'r' :: 'u' :: 'e' :: cs => some (.bool true, cs)
    | 'f' :: 'a' :: 'l' :: 's' :: 'e' :: cs => some (.bool false, cs)
    | '"' :: cs => (string [] cs).map fun s => (.string s.1, s.2)
    | '[' :: cs =>
      match skip cs with
      | ']' :: cs => some (.array [], cs)
      | cs => (items fuel cs).map fun r => (.array r.1, r.2)
    | '{' :: cs =>
      match skip cs with
      | '}' :: cs => some (.object [], cs)
      | cs => (members fuel cs).map fun r => (.object (Fields.ofAssignments r.1), r.2)
    | cs => number cs

/-- Reads the items of an array up to its closing bracket. -/
def items : Nat → List Char → Option (List Json × List Char)
  | 0, _ => none
  | fuel + 1, cs =>
    (value fuel cs).bind fun v =>
      match skip v.2 with
      | ',' :: cs => (items fuel cs).map fun r => (v.1 :: r.1, r.2)
      | ']' :: cs => some ([v.1], cs)
      | _ => none

/-- Reads the members of an object up to its closing brace. -/
def members : Nat → List Char → Option (List (String × Json) × List Char)
  | 0, _ => none
  | fuel + 1, cs =>
    match skip cs with
    | '"' :: cs =>
      (string [] cs).bind fun k =>
        match skip k.2 with
        | ':' :: cs =>
          (value fuel cs).bind fun v =>
            match skip v.2 with
            | ',' :: cs => (members fuel cs).map fun r => ((k.1, v.1) :: r.1, r.2)
            | '}' :: cs => some ([(k.1, v.1)], cs)
            | _ => none
        | _ => none
    | _ => none

end

end Reader

/-- **The value that a text writes**, if it writes one and nothing else. -/
def parse? (text : String) : Option Json :=
  let cs := text.toList
  (Reader.value (cs.length + 1) cs).bind fun r =>
    if (Reader.skip r.2).isEmpty then some r.1 else none

end Markup.Json
