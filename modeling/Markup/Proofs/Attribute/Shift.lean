import Markup.Proofs.Source.Shift
import Markup.Proofs.StartTag

/-!
# Proofs/Attribute/Shift — start tags are split in the same way wherever they stand

What is recognized of a start tag is a matter of its text; where the parts stand is asked of the
source.  So an attribute is read **with all its parts moved** (`Attribute.read_shift`), and a walk
through a start tag finds the same attributes, moved, if its reader does (`StartTag.read_shift`).
-/

namespace Markup

namespace Shift

variable (σ : Shift)

/-- An attribute with its own token, where it stands in the file… -/
def plain (a : Attribute.Plain) : Attribute.Plain :=
  { a with token := σ.token a.token, parts := a.parts.map σ.token }

/-- …and **any attribute**, through and through. -/
def attr : Attribute → Attribute
  | .plain a => .plain (σ.plain a)
  | .spread token spaces => .spread (σ.token token) (σ.token spaces)

/-- A start tag where it stands in the file. -/
def startTag (tag : StartTag) : StartTag := { tag with attributes := tag.attributes.map σ.attr }

@[simp] theorem token_attr (a : Attribute) : (σ.attr a).token = σ.token a.token := by
  cases a <;> rfl

end Shift

/-- **A reader of attributes that reads the same wherever the text stands.** -/
def AttributeReader.Portable (read : AttributeReader) : Prop :=
  ∀ (σ : Shift) (text : String) (token : Token),
    read (σ.source text) (σ.token token) = σ.result σ.attr (read (.alone text) token)

variable (σ : Shift) (text : String)

namespace Attribute

theorem Layout.locate_shift (start : Nat) (l : Layout (List Char)) :
    l.locate (σ.source text) start =
      σ.result (Layout.map σ.token) (l.locate (.alone text) start) := by
  simp only [locate]
  iterate 8 refine Shift.result_bind (Source.slice_shift σ text _) fun _ _ => ?_
  rfl

/-- **An attribute is read where it stands**, with all its parts. -/
theorem read_shift (rules : Rules) (rest : Token) :
    read rules (σ.source text) (σ.token rest) =
      σ.result σ.attr (read rules (.alone text) rest) := by
  have hstart : (σ.source text).toLocal (σ.token rest).startOffset =
      (Source.alone text).toLocal rest.startOffset := Source.toLocal_shift σ text _
  rw [read, read, hstart]
  simp only [Shift.token]
  cases recognize rules rest.raw.toList with
  | error failure => exact congrArg _ (congrArg _ (Source.emptyToken_shift σ text _))
  | ok found =>
    refine Shift.result_bind (Layout.locate_shift σ text _ _) fun parts _ => ?_
    simp only [Layout.map, Shift.token, Source.toLocal_shift]
    refine Shift.result_bind (Source.slice_shift σ text _) fun token _ => ?_
    split <;> rfl

end Attribute

/-- Readers that keep to one set of rules are portable. -/
theorem AttributeReader.portable_read (rules : Attribute.Rules) :
    AttributeReader.Portable (Attribute.read rules) :=
  fun σ text token => Attribute.read_shift σ text rules token

namespace StartTag

variable {read : AttributeReader}

/-- The walk through a start tag finds the same attributes, moved. -/
theorem attributesFrom_shift (hread : read.Portable) (stop offset : Nat) (rest : List Char) :
    attributesFrom read (σ.source text) stop offset rest =
      σ.result (Prod.map (List.map σ.attr) id)
        (attributesFrom read (.alone text) stop offset rest) := by
  induction hlength : rest.length using Nat.strongRecOn generalizing rest offset with
  | ind n ih =>
    subst hlength
    cases hcons : rest.dropWhile Text.isBlank with
    | nil => rw [attributesFrom_of_nil hcons, attributesFrom_of_nil hcons]; rfl
    | cons c tail =>
      have hlt := length_lt_of_dropWhile_eq_cons hcons
      by_cases hstop : c = '>' ∨ isClosingSlash (c :: tail) = true
      · rw [attributesFrom_of_stop hcons hstop, attributesFrom_of_stop hcons hstop]
        rfl
      by_cases hslash : c = '/'
      · subst hslash
        have hopen : isClosingSlash ('/' :: tail) = false := by simpa using hstop
        rw [attributesFrom_of_slash hcons hopen, attributesFrom_of_slash hcons hopen]
        exact ih tail.length hlt _ _ rfl
      rw [attributesFrom_of_begin hcons hstop hslash, attributesFrom_of_begin hcons hstop hslash]
      refine Shift.result_bind (Source.slice_shift σ text _) fun token _ => ?_
      refine Shift.result_bind (hread σ text token) fun a _ => ?_
      simp only [Shift.token_attr, Shift.token, Source.toLocal_shift]
      split
      · rw [Source.emptyToken_shift]
        rfl
      · next hc =>
        have hne : rest ≠ [] := fun h => by simp [h] at hcons
        have hlt := Text.length_dropBytes_lt hc hne
        exact Shift.result_bind (ih _ hlt _ _ rfl) fun _ _ => rfl

/-- **A start tag is split where it stands** as it is on its own. -/
theorem read_shift (hread : read.Portable) (token : Token) :
    StartTag.read read (σ.source text) (σ.token token) =
      σ.result σ.startTag (StartTag.read read (.alone text) token) := by
  have hstart : (σ.source text).toLocal (σ.token token).startOffset =
      (Source.alone text).toLocal token.startOffset := Source.toLocal_shift σ text _
  rw [StartTag.read, StartTag.read, hstart]
  simp only [Shift.token]
  split
  · split
    · rfl
    · exact Shift.result_bind (attributesFrom_shift σ text hread _ _ _) fun _ _ => rfl
  · rfl

end StartTag

end Markup
