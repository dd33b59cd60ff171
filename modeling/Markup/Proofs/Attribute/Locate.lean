import Markup.Attribute.Basic
import Markup.Proofs.Attribute.Recognizer
import Markup.Proofs.Source.Token

/-!
# Proofs/Attribute/Locate — a recognized attribute is a slice of the source

The parts of an attribute are pieces of a token one after the other, so **each of them has a token
of its own** (`Layout.exists_locate`), and the attribute one from its name to its end quote
(`Attribute.exists_of_read`).
-/

namespace Markup

variable {source : Source} {start stop : Nat}

/-- A text that a slice begins with is a token, and what follows it a slice. -/
theorem Source.exists_slice_of_append {as bs : List Char}
    (h : Text.slice? start stop source.text = some (as ++ bs)) :
    ∃ token, source.slice ⟨start, start + Text.byteSize as⟩ = .ok token ∧
      token.raw.toList = as ∧
      Text.slice? (start + Text.byteSize as) stop source.text = some bs := by
  obtain ⟨token, hslice, hraw⟩ := exists_slice (Text.slice?_of_append h).1
  exact ⟨token, hslice, hraw, Text.slice?_of_append_right h⟩

namespace Attribute

/-- The parts of an attribute with each replaced. -/
def Layout.map {α β : Type} (f : α → β) (l : Layout α) : Layout β where
  spacesBeforeName := f l.spacesBeforeName
  name := f l.name
  spacesBeforeEqual := f l.spacesBeforeEqual
  equal := f l.equal
  spacesAfterEqual := f l.spacesAfterEqual
  startQuote := f l.startQuote
  value := f l.value
  endQuote := f l.endQuote

/-- The texts of located parts. -/
abbrev Layout.texts (l : Layout Token) : Layout (List Char) := l.map fun token => token.raw.toList

/-- **Parts that a slice begins with are located**, from where it does on, and keep their texts. -/
theorem Layout.exists_locate {l : Layout (List Char)} {rest : List Char}
    (h : Text.slice? start stop source.text = some (l.toList.flatten ++ rest)) :
    ∃ parts, l.locate source start = .ok parts ∧ parts.texts = l ∧
      source.toLocal parts.name.startOffset = start + Text.byteSize l.spacesBeforeName ∧
      source.toLocal parts.endQuote.endOffset = start + Text.byteSize l.toList.flatten := by
  obtain ⟨spacesBeforeName, name, spacesBeforeEqual, equal, spacesAfterEqual, startQuote, value,
    endQuote⟩ := l
  simp only [toList, List.flatten_cons, List.flatten_nil, List.append_assoc, List.append_nil] at h
  obtain ⟨t₁, h₁, r₁, h⟩ := Source.exists_slice_of_append h
  obtain ⟨t₂, h₂, r₂, h⟩ := Source.exists_slice_of_append h
  obtain ⟨t₃, h₃, r₃, h⟩ := Source.exists_slice_of_append h
  obtain ⟨t₄, h₄, r₄, h⟩ := Source.exists_slice_of_append h
  obtain ⟨t₅, h₅, r₅, h⟩ := Source.exists_slice_of_append h
  obtain ⟨t₆, h₆, r₆, h⟩ := Source.exists_slice_of_append h
  obtain ⟨t₇, h₇, r₇, h⟩ := Source.exists_slice_of_append h
  obtain ⟨t₈, h₈, r₈, -⟩ := Source.exists_slice_of_append h
  refine ⟨⟨t₁, t₂, t₃, t₄, t₅, t₆, t₇, t₈⟩, ?_, ?_, ?_, ?_⟩
  · simp only [locate, h₁, h₂, h₃, h₄, h₅, h₆, h₇, h₈, bind, Except.bind, pure, Except.pure]
  · simp only [map, r₁, r₂, r₃, r₄, r₅, r₆, r₇, r₈]
  · exact Source.toLocal_startOffset h₂
  · rw [Source.toLocal_endOffset h₈]
    simp only [toList, List.flatten_cons, List.flatten_nil, List.append_nil, Text.byteSize_append,
      Nat.add_assoc]

/-- **What is recognized of a token is read** part by part, and the attribute's own token follows
the blanks. -/
theorem exists_of_read {rules : Rules} {token : Token} {p : Parts}
    (hslice : source.slice ⟨start, stop⟩ = .ok token)
    (hfound : recognize rules token.raw.toList = .ok p)
    (htoken : token.raw.toList = p.spacesBeforeName ++ (p.text ++ p.leftover)) :
    ∃ a, read rules source token = .ok a ∧
      source.slice ⟨start + Text.byteSize p.spacesBeforeName,
        start + Text.byteSize p.spacesBeforeName + Text.byteSize p.text⟩ = .ok a.token ∧
      a.token.raw.toList = p.text ∧
      (p.spread = false → ∃ plain, a = .plain plain ∧ plain.parts.texts = p.toLayout) := by
  have hall : p.toList.flatten = p.spacesBeforeName ++ p.text := rfl
  have hraw := Source.slice?_of_slice hslice
  rw [htoken] at hraw
  obtain ⟨-, -, -, hrest⟩ := Source.exists_slice_of_append hraw
  obtain ⟨own, hown, htext, -⟩ := Source.exists_slice_of_append hrest
  rw [← List.append_assoc, ← hall] at hraw
  obtain ⟨parts, hparts, htexts, hname, hquote⟩ := Layout.exists_locate hraw
  have hstart := Source.toLocal_startOffset hslice
  rw [hall, Text.byteSize_append, ← Nat.add_assoc] at hquote
  rw [read, hfound]
  simp only [hstart, hparts, hname, hquote, hown, bind, Except.bind]
  split
  · next hspread => exact ⟨_, rfl, rfl, htext, fun h => absurd (h.symm.trans hspread) (by decide)⟩
  · exact ⟨_, rfl, rfl, htext, fun _ => ⟨_, rfl, htexts⟩⟩

end Attribute

end Markup
