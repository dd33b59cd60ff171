import Markup.Proofs.Construct.Sections
import Markup.Svelte.Clause

/-!
# Proofs/Svelte/Clause — the clauses of a block are visited in order

A block admits few rows of clauses (`Admitted.cond`, `Admitted.inOrder`).  Read as a construct, the
block has **the head and all clauses for visits, in source order and by their names**
(`visits_of_inOrder`) — or, where a wait has its phases the other way round, no branches at all
(`pieces_of_catch_then`).
-/

namespace Markup.Svelte

/-! ## Clauses by name -/

section Named

variable {α : Type} {name : String} {clauses others : List (String × Section α)}

theorem clausesNamed_cons {clause : String × Section α} :
    clausesNamed name (clause :: clauses) =
      if clause.1 = name then clause.2 :: clausesNamed name clauses
      else clausesNamed name clauses := by
  by_cases h : clause.1 = name <;> simp [clausesNamed, h]

theorem clausesNamed_append :
    clausesNamed name (clauses ++ others) = clausesNamed name clauses ++ clausesNamed name others :=
  List.filterMap_append

/-- Clauses of one name are all of that name… -/
theorem clausesNamed_eq_map (h : ∀ other ∈ clauses.map Prod.fst, other = name) :
    clausesNamed name clauses = clauses.map Prod.snd := by
  induction clauses with
  | nil => rfl
  | cons clause clauses ih =>
    rw [List.map_cons, List.forall_mem_cons] at h
    rw [clausesNamed_cons, if_pos h.1, ih h.2, List.map_cons]

theorem map_clausesNamed (h : ∀ other ∈ clauses.map Prod.fst, other = name) :
    (clausesNamed name clauses).map (fun s => (name, s)) = clauses := by
  rw [clausesNamed_eq_map h, List.map_map]
  refine (List.map_congr_left fun c hc => ?_).trans (List.map_id clauses)
  rw [Function.comp_apply, ← h c.1 (List.mem_map_of_mem hc)]
  rfl

/-- …and none is of a name that does not occur. -/
theorem clausesNamed_eq_nil (h : name ∉ clauses.map Prod.fst) : clausesNamed name clauses = [] := by
  refine List.filterMap_eq_nil_iff.2 fun clause hclause => if_neg ?_
  rintro rfl
  exact h (List.mem_map_of_mem hclause)

end Named

namespace Block

/-! ## What a block admits -/

/-- **The names of clauses that a block may have**, last first. -/
inductive Admitted (kind : Block) : List String → Prop
  | nil : Admitted kind []
  | cons {name : String} {names : List String} {header : List Char} (before : Admitted kind names)
      (admits : kind.admitsClause names = true) (named : kind.clauseName names header = .ok name) :
      Admitted kind (name :: names)

namespace Admitted

variable {names : List String}

/-- A conditional has alternatives under a condition, and at most one last without. -/
theorem cond (h : Admitted .cond names) :
    (∀ name ∈ names, name = "elseif") ∨
      ∃ others, names = "else" :: others ∧ ∀ name ∈ others, name = "elseif" := by
  induction h with
  | nil => simp
  | @cons name names header before admits named ih =>
    have hothers : ∀ name ∈ names, name = "elseif" := by
      rcases ih with hall | ⟨others, rfl, -⟩
      · exact hall
      · simp [admitsClause] at admits
    simp only [clauseName] at named
    split at named
    · cases named
      exact Or.inr ⟨names, rfl, hothers⟩
    · split at named
      · cases named
        exact Or.inl (List.forall_mem_cons.2 ⟨rfl, hothers⟩)
      · simp at named

/-- …so its clauses are these. -/
theorem exists_elseIfs {α : Type} {clauses : List (String × Section α)}
    (h : Admitted .cond (clauses.map Prod.fst).reverse) :
    ∃ elseIfs last, clauses = elseIfs ++ last ∧ (∀ name ∈ elseIfs.map Prod.fst, name = "elseif") ∧
      (last = [] ∨ ∃ s, last = [("else", s)]) := by
  rcases h.cond with hall | ⟨others, hnames, hall⟩
  · refine ⟨clauses, [], (List.append_nil _).symm, fun name hname => ?_, Or.inl rfl⟩
    exact hall name (List.mem_reverse.2 hname)
  · rw [List.reverse_eq_iff, List.reverse_cons, List.map_eq_append_iff] at hnames
    obtain ⟨elseIfs, last, rfl, helseIfs, hlast⟩ := hnames
    obtain ⟨⟨name, s⟩, rfl, rfl⟩ := List.map_eq_singleton_iff.1 hlast
    refine ⟨elseIfs, _, rfl, fun name hname => ?_, Or.inr ⟨s, rfl⟩⟩
    rw [helseIfs] at hname
    exact hall name (List.mem_reverse.1 hname)

/-- An iteration has one clause at most. -/
theorem each (h : Admitted .each names) : names = [] ∨ names = ["else"] := by
  cases h with
  | nil => exact Or.inl rfl
  | cons before admits named =>
    rw [admitsClause, List.isEmpty_iff] at admits
    subst admits
    simp only [clauseName] at named
    split at named
    · cases named
      exact Or.inr rfl
    · simp at named

/-- **A wait has each of its phases once**, and none that its header opened. -/
theorem await {shorthand : Option Phase} (h : Admitted (.await shorthand) names) :
    names.Nodup ∧ ∀ name ∈ names, ∃ phase : Phase, phase.word = name ∧
      shorthand ≠ some .rejected ∧ shorthand ≠ some phase := by
  induction h with
  | nil => simp
  | @cons name names header before admits named ih =>
    simp only [clauseName] at named
    split at named
    · simp at named
    · split at named
      · simp at named
      · next phase _ hfresh =>
        cases named
        simp only [not_or, List.contains_iff_mem] at hfresh
        exact ⟨List.nodup_cons.2 ⟨hfresh.2.2, ih.1⟩,
          List.forall_mem_cons.2 ⟨⟨phase, rfl, hfresh.1, hfresh.2.1⟩, ih.2⟩⟩

/-- Without a phase in its header a wait may have both, in either order… -/
theorem await_none (h : Admitted (.await none) names) :
    names.reverse.Sublist ["then", "catch"] ∨ names = ["then", "catch"] := by
  obtain ⟨hnodup, hphases⟩ := h.await
  have hwords : ∀ name ∈ names, name = "then" ∨ name = "catch" := by
    intro name hname
    obtain ⟨phase, rfl, -, -⟩ := hphases name hname
    cases phase with
    | fulfilled => exact Or.inl rfl
    | rejected => exact Or.inr rfl
  match names with
  | [] => exact Or.inl (List.nil_sublist _)
  | [a] =>
    obtain ⟨rfl | rfl, -⟩ := List.forall_mem_cons.1 hwords <;> exact Or.inl (by decide)
  | [a, b] =>
    simp only [List.forall_mem_cons] at hwords
    obtain ⟨rfl | rfl, rfl | rfl, -⟩ := hwords <;> revert hnodup <;> decide
  | a :: b :: c :: _ =>
    simp only [List.forall_mem_cons] at hwords
    obtain ⟨rfl | rfl, rfl | rfl, rfl | rfl, -⟩ := hwords <;> simp at hnodup

/-- …with the first in its header, only the other… -/
theorem await_fulfilled (h : Admitted (.await (some .fulfilled)) names) :
    names.reverse.Sublist ["catch"] := by
  obtain ⟨hnodup, hphases⟩ := h.await
  have hwords : ∀ name ∈ names, name = "catch" := by
    intro name hname
    obtain ⟨phase, rfl, -, hphase⟩ := hphases name hname
    cases phase with
    | fulfilled => exact absurd rfl hphase
    | rejected => rfl
  match names with
  | [] => exact List.nil_sublist _
  | [a] =>
    obtain ⟨rfl, -⟩ := List.forall_mem_cons.1 hwords
    exact List.Sublist.refl _
  | a :: b :: _ =>
    obtain ⟨rfl, rfl, -⟩ := by simpa only [List.forall_mem_cons] using hwords
    simp at hnodup

/-- …and with the second, none. -/
theorem await_rejected (h : Admitted (.await (some .rejected)) names) : names = [] := by
  obtain ⟨-, hphases⟩ := h.await
  refine List.eq_nil_iff_forall_not_mem.2 fun name hname => ?_
  obtain ⟨phase, -, hne, -⟩ := hphases name hname
  exact hne rfl

/-- A block of another kind has none either. -/
theorem eq_nil {kind : Block} (h : Admitted kind names)
    (hkind : ∀ names, kind.admitsClause names = false) : names = [] := by
  cases h with
  | nil => rfl
  | cons before admits named => exact absurd (admits.symm.trans (hkind _)) (by decide)

/-- **The clauses of a block that is not conditional come in the order of its phases**, unless a
wait has them the other way round. -/
theorem inOrder {kind : Block} (h : Admitted kind names) (hkind : kind ≠ .cond) :
    names.reverse.Sublist kind.phases.tail ∨ kind = .await none ∧ names = ["then", "catch"] := by
  match kind with
  | .each =>
    rcases h.each with rfl | rfl
    · exact Or.inl (List.nil_sublist _)
    · exact Or.inl (List.Sublist.refl _)
  | .await none => exact h.await_none.imp id fun hnames => ⟨rfl, hnames⟩
  | .await (some .fulfilled) => exact Or.inl h.await_fulfilled
  | .await (some .rejected) =>
    rw [h.await_rejected]
    exact Or.inl (List.nil_sublist _)
  | .key =>
    rw [h.eq_nil fun _ => rfl]
    exact Or.inl (List.nil_sublist _)
  | .snippet =>
    rw [h.eq_nil fun _ => rfl]
    exact Or.inl (List.nil_sublist _)

/-- **Each of them comes once**, and is one of those phases. -/
theorem nodup_and_subset {kind : Block} (h : Admitted kind names) (hkind : kind ≠ .cond) :
    names.Nodup ∧ names ⊆ kind.phases.tail := by
  have hphases : kind.phases.tail.Nodup := by
    rcases kind with _ | _ | (_ | _ | _) | _ | _ <;> decide
  rcases h.inOrder hkind with horder | ⟨rfl, rfl⟩
  · refine ⟨(List.reverse_perm names).nodup_iff.1 (horder.nodup hphases), fun name hname => ?_⟩
    exact horder.subset (List.mem_reverse.2 hname)
  · exact ⟨by decide, by decide⟩

end Admitted

/-! ## The visits of a block -/

/-- **The role of a block's head**: the phase that its header opens, or the word of the block. -/
def headRole : Block → String
  | .await (some phase) => phase.word
  | kind => kind.word

section Visits

variable {α : Type} [Spanned α] {head : Section α} {clauses : List (String × Section α)}
  {content last : Nat} {ps : List (Piece α)}

omit [Spanned α] in
/-- A conditional has its clauses for alternatives. -/
theorem construct_cond {elseIfs last : List (String × Section α)}
    (hall : ∀ name ∈ elseIfs.map Prod.fst, name = "elseif")
    (hlast : last = [] ∨ ∃ s, last = [("else", s)]) :
    Block.cond.construct head (elseIfs ++ last) =
      .conditional head (elseIfs.map Prod.snd) (last.head?.map Prod.snd) := by
  have helse : "else" ∉ elseIfs.map Prod.fst := fun hmem => absurd (hall _ hmem) (by decide)
  rw [construct, clausesNamed_append, clausesNamed_append, clausesNamed_eq_map hall,
    clausesNamed_eq_nil helse]
  rcases hlast with rfl | ⟨s, rfl⟩ <;> simp [clausesNamed]

omit [Spanned α] in
/-- The visits of a conditional are its sections in order. -/
theorem visits_cond (h : Admitted .cond (clauses.map Prod.fst).reverse) :
    (Block.cond.construct head clauses).visits = ("if", head) :: clauses := by
  obtain ⟨elseIfs, last, rfl, hall, hlast⟩ := h.exists_elseIfs
  rw [construct_cond hall hlast, Construct.visits, ← clausesNamed_eq_map hall,
    map_clausesNamed hall]
  rcases hlast with rfl | ⟨s, rfl⟩ <;> rfl

omit [Spanned α] in
/-- **Phases that are written in their order are visited in that order**, and those that are not
written are the head again. -/
theorem dropRepeated_eq {role : String → String} {find : String → Option (Section α)}
    {rest : List String} {seen : List Span}
    (hfind : ∀ phase ∈ rest, find phase = (clausesNamed phase clauses).head?)
    (hrole : ∀ phase ∈ rest, role phase = phase)
    (hrest : rest.Nodup) (horder : (clauses.map Prod.fst).Sublist rest)
    (hhead : head.span ∈ seen) (hfresh : ∀ s ∈ clauses.map Prod.snd, s.span ∉ seen)
    (hnodup : ((clauses.map Prod.snd).map Section.span).Nodup) :
    Construct.dropRepeated seen
      (rest.map fun phase => (role phase, (find phase).getD head)) = clauses := by
  induction rest generalizing clauses seen with
  | nil =>
    obtain rfl : clauses = [] := by simpa using horder
    rfl
  | cons phase rest ih =>
    rw [List.forall_mem_cons] at hfind hrole
    rw [List.nodup_cons] at hrest
    rw [List.map_cons, Construct.dropRepeated, hfind.1, hrole.1]
    rcases List.sublist_cons_iff.1 horder with hlater | ⟨names, hnames, hlater⟩
    · have hno : phase ∉ clauses.map Prod.fst := fun hmem => hrest.1 (hlater.subset hmem)
      rw [clausesNamed_eq_nil hno, List.head?_nil, Option.getD_none, if_pos hhead]
      exact ih hfind.2 hrole.2 hrest.2 hlater hhead hfresh hnodup
    · obtain ⟨⟨_, s⟩, others, rfl, rfl, rfl⟩ := List.map_eq_cons_iff.1 hnames
      rw [List.map_cons, List.forall_mem_cons] at hfresh
      rw [List.map_cons, List.map_cons, List.nodup_cons] at hnodup
      rw [clausesNamed_cons, if_pos rfl, List.head?_cons, Option.getD_some, if_neg hfresh.1]
      refine congrArg (_ :: ·) (ih (fun later hl => ?_) hrole.2 hrest.2 hlater
        (List.mem_cons_of_mem _ hhead) (fun t ht => ?_) hnodup.2)
      · rw [hfind.2 later hl, clausesNamed_cons, if_neg]
        rintro rfl
        exact hrest.1 hl
      · rw [List.mem_cons, not_or]
        refine ⟨fun hspan => hnodup.1 ?_, hfresh.2 t ht⟩
        rw [← hspan]
        exact List.mem_map_of_mem ht

/-- **A phased construct whose clauses come in the order of its phases** is visited in that
order. -/
theorem visits_phased {name first : String} {rest : List String}
    (hphases : (first :: rest).Nodup) (hnamed : "" ∉ rest ∧ "pending" ∉ rest)
    (horder : (clauses.map Prod.fst).Sublist rest)
    (hrow : Consecutive head.span.start content (head :: clauses.map Prod.snd)) :
    (Construct.ofPhases name head (first :: rest)
      fun phase => (clausesNamed phase clauses).head?).visits =
      (Construct.phaseRole name first, head) :: clauses := by
  rw [List.nodup_cons] at hphases
  have hno : first ∉ clauses.map Prod.fst := fun hmem => hphases.1 (horder.subset hmem)
  have hfirst : (if first = "" then none else (clausesNamed first clauses).head?) = none := by
    rw [clausesNamed_eq_nil hno, List.head?_nil, ite_self]
  have hplain : ∀ phase ∈ rest, phase ≠ "" ∧ phase ≠ "pending" := fun phase hphase =>
    ⟨fun heq => hnamed.1 (heq ▸ hphase), fun heq => hnamed.2 (heq ▸ hphase)⟩
  have hfind : ∀ phase ∈ rest, (if phase = "" then none else (clausesNamed phase clauses).head?) =
      (clausesNamed phase clauses).head? := fun phase hphase => if_neg (hplain phase hphase).1
  have hrole : ∀ phase ∈ rest, Construct.phaseRole name phase = phase := fun phase hphase =>
    if_neg (not_or.2 (hplain phase hphase))
  have hfresh : ∀ s ∈ clauses.map Prod.snd, s.span ∉ [head.span] := fun s hs hmem =>
    hrow.span_ne hs (List.mem_singleton.1 hmem)
  have htail := dropRepeated_eq hfind hrole hphases.2 horder
    (List.mem_singleton_self head.span) hfresh (List.nodup_cons.1 hrow.nodup_span).2
  rw [Construct.ofPhases, Construct.visits, List.map_cons, List.map_cons, hfirst,
    Option.getD_none, Construct.dropRepeated, if_neg List.not_mem_nil, List.map_map]
  exact congrArg (_ :: ·) htail

/-- **A block whose clauses come in the order of its phases** visits its head and its clauses. -/
theorem visits_of_inOrder {kind : Block} (h : Admitted kind (clauses.map Prod.fst).reverse)
    (hrow : Consecutive head.span.start content (head :: clauses.map Prod.snd))
    (horder : kind ≠ .cond → (clauses.map Prod.fst).Sublist kind.phases.tail) :
    (kind.construct head clauses).visits = (kind.headRole, head) :: clauses := by
  match kind with
  | .cond => exact visits_cond h
  | .each => exact visits_phased (by decide) (by decide) (horder (by decide)) hrow
  | .await none => exact visits_phased (by decide) (by decide) (horder (by decide)) hrow
  | .await (some .fulfilled) =>
    exact visits_phased (by decide) (by decide) (horder (by decide)) hrow
  | .await (some .rejected) =>
    exact visits_phased (by decide) (by decide) (horder (by decide)) hrow
  | .key => exact visits_phased (by decide) (by decide) (horder (by decide)) hrow
  | .snippet => exact visits_phased (by decide) (by decide) (horder (by decide)) hrow

/-- **A wait with its phases the other way round has no branches**: the header of the phase that is
visited last would begin where the first one's body ends, and end before that. -/
theorem pieces_of_catch_then {rejected fulfilled : Section α}
    (hrow : Consecutive head.span.start content [head, rejected, fulfilled]) :
    ∃ range : Span, range.stop < range.start ∧
      Construct.pieces head.span.start ((Block.await none).construct head
        [("catch", rejected), ("then", fulfilled)]).visits = .error range := by
  have hrejected := hrow.span_ne List.mem_cons_self
  have hfulfilled := hrow.span_ne (List.mem_cons_of_mem _ List.mem_cons_self)
  obtain ⟨-, hheader, mid, hhead, hrest⟩ := hrow
  have hdiffer := hrest.span_ne List.mem_cons_self
  obtain ⟨-, hfirst, next, hchildren, -, hlast, stop, hbody, -⟩ := hrest
  have hvisits : ((Block.await none).construct head
      [("catch", rejected), ("then", fulfilled)]).visits =
      [("await", head), ("then", fulfilled), ("catch", rejected)] := by
    simp [construct, phases, Construct.ofPhases, Construct.visits, Construct.awaitPhases,
      Construct.dropRepeated, Construct.phaseRole, Block.word, clausesNamed, hrejected, hfulfilled,
      hdiffer.symm]
  have hcontent := hhead.le
  have hbefore := hchildren.le
  have hafter := hbody.le
  have hneg : rejected.bodyStart < stop := by
    rw [Section.bodyStart_eq_of_tiled hchildren]
    omega
  refine ⟨⟨stop, rejected.bodyStart⟩, hneg, ?_⟩
  rw [hvisits]
  refine Construct.pieces_of_error ?_ (Construct.pieces_of_error ?_ ?_)
  · rw [Section.bodyStart_eq_of_tiled hhead]
    omega
  · rw [Section.bodyStart_eq_of_tiled hhead, Section.bodyEnd_eq_of_tiled hhead,
      Section.bodyStart_eq_of_tiled hbody, Nat.max_eq_left hcontent]
    omega
  · rw [Section.bodyStart_eq_of_tiled hbody, Section.bodyEnd_eq_of_tiled hbody,
      Nat.max_eq_left hafter]
    exact Construct.pieces_of_lt hneg

/-- **The visits of a block are its head and its clauses in order**, if it has branches at all; and
its clauses come in the order of its phases. -/
theorem visits_eq {kind : Block} (h : Admitted kind (clauses.map Prod.fst).reverse)
    (hrow : Consecutive head.span.start content (head :: clauses.map Prod.snd))
    (hpieces : Construct.pieces head.span.start
      (kind.construct head clauses).visits = .ok (ps, last)) :
    (kind.construct head clauses).visits = (kind.headRole, head) :: clauses ∧
      (kind ≠ .cond → (clauses.map Prod.fst).Sublist kind.phases.tail) := by
  suffices horder : kind ≠ .cond → (clauses.map Prod.fst).Sublist kind.phases.tail from
    ⟨visits_of_inOrder h hrow horder, horder⟩
  intro hkind
  rcases h.inOrder hkind with horder | ⟨rfl, hnames⟩
  · rwa [List.reverse_reverse] at horder
  · obtain ⟨⟨_, rejected⟩, others, rfl, rfl, hothers⟩ := List.map_eq_cons_iff.1
      (List.reverse_eq_iff.1 hnames)
    obtain ⟨⟨_, fulfilled⟩, rfl, rfl⟩ := List.map_eq_singleton_iff.1 hothers
    obtain ⟨range, -, herror⟩ := pieces_of_catch_then hrow
    cases herror.symm.trans hpieces

end Visits

end Block

end Markup.Svelte
