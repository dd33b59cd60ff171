import Markup.Json.Basic

/-!
# Ruleset — rules that are handed through to a document

The rules are values that nothing here interprets, kept **in the order in which they came**.  A
rule is enabled unless it is absent or `false`.
-/

namespace Markup

/-- Named rules in order. -/
structure Ruleset where
  rules : Json.Fields := []

namespace Ruleset

/-- The ruleset that a record holds; without a field `rules` it is empty. -/
def ofJson? (value : Json) : Option Ruleset := do
  let [rules] ← value.columns? ["rules"] | none
  return { rules := ← Json.column? Json.toFields? [] rules }

/-- The record of a ruleset. -/
def toJson (r : Ruleset) : Json := .object [("rules", .object r.rules)]

/-- The names of the rules in order. -/
def names (r : Ruleset) : List String := r.rules.keys

/-- The value of a rule. -/
def get? (r : Ruleset) (name : String) : Option Json := r.rules.get? name

/-- The rule is there and is not `false`. -/
def isEnabled (r : Ruleset) (name : String) : Bool :=
  match r.get? name with
  | none | some (.bool false) => false
  | some _ => true

end Ruleset

end Markup
