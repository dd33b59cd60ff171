import Mathlib.Data.List.Infix
import Markup.Construct.Flow

/-!
# Proofs/Construct/Visits — which sections a construct visits

The links of a node say which sections are visited (`Flow.Visits`), **apart from the loop that
follows them**: the alternatives of a conditional one behind the other (`Flow.Chain`), and of the
phases those whose section has a span that no earlier one has (`Flow.newPhases`).  `Flow.visits_iff`
says that `Flow.construct?` lays out these sections and no others.
-/

namespace Markup

variable {α : Type}

namespace Construct

/-- **Of the sections that are looked up one by one, those come to be visited whose span is none of
the earlier ones'.** -/
theorem dropRepeated_eq_filter {β : Type} (f : β → String × Section α) (seen : List Span)
    (xs : List β) :
    dropRepeated seen (xs.map f) =
      ((xs.zip xs.inits).filter fun x => (f x.1).2.span ∉ seen ∧
        ∀ earlier ∈ x.2, (f earlier).2.span ≠ (f x.1).2.span).map fun x => f x.1 := by
  induction xs generalizing seen with
  | nil => rfl
  | cons x xs ih =>
    rw [List.map_cons, dropRepeated, List.inits_cons, List.zip_cons_cons, List.zip_map_right,
      List.filter_cons, List.filter_map]
    split
    · next hseen =>
      have hsame : ∀ y : β × List β, ((f y.1).2.span ∉ seen ∧
          ∀ earlier ∈ x :: y.2, (f earlier).2.span ≠ (f y.1).2.span) ↔
          (f y.1).2.span ∉ seen ∧ ∀ earlier ∈ y.2, (f earlier).2.span ≠ (f y.1).2.span := by
        intro y
        rw [List.forall_mem_cons]
        exact ⟨fun h => ⟨h.1, h.2.2⟩, fun h => ⟨h.1, fun heq => h.1 (heq ▸ hseen), h.2⟩⟩
      rw [if_neg (by simp [hseen]), ih, List.map_map]
      simp only [Function.comp_def, Prod.map, id, hsame]
    · next hnew =>
      have hsame : ∀ y : β × List β, ((f y.1).2.span ∉ seen ∧
          ∀ earlier ∈ x :: y.2, (f earlier).2.span ≠ (f y.1).2.span) ↔
          (f y.1).2.span ∉ (f x).2.span :: seen ∧
            ∀ earlier ∈ y.2, (f earlier).2.span ≠ (f y.1).2.span := by
        intro y
        rw [List.forall_mem_cons, List.mem_cons, not_or, ne_comm]
        tauto
      rw [if_pos (by simp [hnew]), List.map_cons, ih, List.map_map]
      simp only [Function.comp_def, Prod.map, id, hsame]

end Construct

namespace Flow

/-- What the node is, as far as control flow goes. -/
def kind? : Flow α → Option FlowKind
  | .node _ kind .. => kind

/-- **The alternatives behind a conditional**, told by the links: under a further condition each,
and then the last, if there is one. -/
inductive Chain : Flow α → List (Section α) → Option (Section α) → Prop
  | done {content kind elseIf phases} : Chain (.node content kind none elseIf phases) [] none
  | otherwise {content kind elseIf phases last kind' alternate' phases'} :
      Chain (.node content kind (some (.node last kind' alternate' none phases')) elseIf phases)
        [] (some last)
  | elseIf {content kind elseIf phases wrapper kind' alternate' next phases' others last}
      (rest : Chain next others last) :
      Chain (.node content kind (some (.node wrapper kind' alternate' (some next) phases')) elseIf
        phases) (next.content :: others) last

/-- **The section that is visited for a phase**: the node itself, if the phase has no name or is not
written. -/
def sectionOf (n : Flow α) (phase : String) : Section α :=
  if phase = "" then n.content else (n.phase? phase).getD n.content

/-- **The phases whose section has a span that is none of the earlier ones'.** -/
def newPhases (n : Flow α) (phases : List String) : List String :=
  ((phases.zip phases.inits).filter fun (phase, before) =>
    ∀ earlier ∈ before, (n.sectionOf earlier).span ≠ (n.sectionOf phase).span).map Prod.fst

/-- **What a construct visits**, with the roles, and the name that it closes with. -/
inductive Visits (n : Flow α) : String → List (String × Section α) → Prop
  | conditional {elseIfs : List (Section α)} {otherwise : Option (Section α)}
      (kind : n.kind? = some .conditional) (chain : n.Chain elseIfs otherwise) :
      Visits n "if" (("if", n.content) :: (elseIfs.map fun s => ("elseif", s)) ++
        otherwise.toList.map fun s => ("else", s))
  | phased {name : String} {phases : List String} (kind : n.kind? = some (.phased name phases)) :
      Visits n name ((n.newPhases phases).map fun phase =>
        (Construct.phaseRole name phase, n.sectionOf phase))

variable {n : Flow α} {name : String} {visited : List (String × Section α)}

/-- Every node has alternatives behind it, if only none… -/
theorem chain_alternatives (n : Flow α) : n.Chain n.alternatives.1 n.alternatives.2 := by
  induction n using alternatives.induct with
  | case1 => exact .done
  | case2 => exact .otherwise
  | case3 _ _ _ _ _ _ _ _ _ _ _ _ ih => exact .elseIf ih

/-- …and one row of them. -/
theorem Chain.alternatives_eq {others : List (Section α)} {last : Option (Section α)}
    (h : n.Chain others last) : n.alternatives = (others, last) := by
  induction h with
  | done => rfl
  | otherwise => rfl
  | elseIf rest ih => rw [alternatives, ih]

theorem construct?_of_none (h : n.kind? = none) : n.construct? = none := by
  obtain ⟨content, kind, alternate, elseIf, phases⟩ := n
  obtain rfl : kind = none := h
  rfl

theorem construct?_of_conditional (h : n.kind? = some .conditional) :
    n.construct? = some (.conditional n.content n.alternatives.1 n.alternatives.2) := by
  obtain ⟨content, kind, alternate, elseIf, phases⟩ := n
  obtain rfl : kind = some .conditional := h
  rfl

theorem construct?_of_phased {phases : List String} (h : n.kind? = some (.phased name phases)) :
    n.construct? = some (.ofPhases name n.content phases fun phase => n.phase? phase) := by
  obtain ⟨content, kind, alternate, elseIf, written⟩ := n
  obtain rfl : kind = some (.phased name phases) := h
  rfl

/-- The phases of a construct are visited at the sections that they open. -/
theorem visits_ofPhases (n : Flow α) (name : String) (phases : List String) :
    (Construct.ofPhases name n.content phases fun phase => n.phase? phase).visits =
      (n.newPhases phases).map fun phase =>
        (Construct.phaseRole name phase, n.sectionOf phase) := by
  have hfind : ∀ phase, (if phase = "" then none else n.phase? phase).getD n.content =
      n.sectionOf phase := by
    intro phase
    rw [sectionOf]
    split <;> rfl
  rw [Construct.ofPhases, Construct.visits, List.map_map]
  simp only [Function.comp_def, hfind]
  rw [Construct.dropRepeated_eq_filter
    (fun phase => (Construct.phaseRole name phase, n.sectionOf phase)), newPhases, List.map_map]
  simp only [List.not_mem_nil, not_false_eq_true, true_and, Function.comp_def]

/-- **A node visits what its construct does**, and nothing if it is none. -/
theorem visits_iff : n.Visits name visited ↔
    ∃ c, n.construct? = some c ∧ c.name = name ∧ c.visits = visited := by
  constructor
  · rintro (⟨hkind, hchain⟩ | hkind)
    · refine ⟨_, construct?_of_conditional hkind, rfl, ?_⟩
      rw [hchain.alternatives_eq]
      rfl
    · exact ⟨_, construct?_of_phased hkind, rfl, visits_ofPhases n name _⟩
  · rintro ⟨c, hc, rfl, rfl⟩
    cases hkind : n.kind? with
    | none => rw [construct?_of_none hkind] at hc; cases hc
    | some kind =>
      cases kind with
      | conditional =>
        rw [construct?_of_conditional hkind] at hc
        cases hc
        exact .conditional hkind (chain_alternatives n)
      | phased name phases =>
        rw [construct?_of_phased hkind] at hc
        obtain rfl := Option.some.inj hc
        rw [visits_ofPhases]
        exact .phased hkind

end Flow

end Markup
