import Mathlib.Data.List.Nodup
import Markup.Document.Walk

/-!
# Proofs/Document/Walk — the walks of a document are one traversal

Visits that are made at once, visits that suspend and visits that are watched are **three settings
of one walk** (`walkIn`), and a walk goes over from setting to setting with its visits
(`Passage.walkIn`).  The visits that a walk makes are its `turns`: they go through the selected
nodes in order, each from the state that the last one left, up to the first that fails.  All that a
walk does is told by them (`Document.walk_eq_turns`).
-/

namespace Markup

/-! ## Settings -/

instance : Monad Deferred where
  pure := .done
  bind := .bind

/-- **A walk, in any setting** that visits may take place in; the first node has the place
`index`. -/
def walkIn {m : Type → Type} [Monad m] {σ ε : Type} (kind : Option NodeKind)
    (visit : Node → σ → m (Visit σ ε)) : NodeId → List Node → σ → m (Walked σ ε)
  | _, [], s => pure ⟨[], s, .ok ()⟩
  | index, n :: ns, s =>
    if n.isSelected kind then do
      let v ← visit n s
      let n := { n with metadata := v.metadata }
      match v.outcome with
      | .error e => pure ⟨n :: ns, v.state, .error ⟨index, n.kind, e⟩⟩
      | .ok () =>
        let w ← walkIn kind visit (index + 1) ns v.state
        pure (w.cons n)
    else do
      let w ← walkIn kind visit (index + 1) ns s
      pure (w.cons n)

/-- **A passage from one setting to another** keeps what is done and in which order. -/
structure Passage (m n : Type → Type) [Monad m] [Monad n] where
  map : ∀ {α : Type}, m α → n α
  map_pure : ∀ {α : Type} (a : α), map (pure a) = pure a
  map_bind : ∀ {α β : Type} (x : m α) (f : α → m β), map (x >>= f) = map x >>= fun a => map (f a)

/-- Resuming a result until it is there. -/
def Passage.run : Passage Deferred Id where
  map := Deferred.run
  map_pure _ := rfl
  map_bind := Deferred.run_bind

section

variable {σ ε : Type} {kind : Option NodeKind}

/-- **A walk goes over with its visits.** -/
theorem Passage.walkIn {m n : Type → Type} [Monad m] [Monad n] (f : Passage m n)
    (visit : Node → σ → m (Visit σ ε)) (index : NodeId) (ns : List Node) (s : σ) :
    f.map (walkIn kind visit index ns s) =
      Markup.walkIn kind (fun n s => f.map (visit n s)) index ns s := by
  induction ns generalizing index s with
  | nil => exact f.map_pure _
  | cons n ns ih =>
    rw [Markup.walkIn, Markup.walkIn]
    split
    · rw [f.map_bind]
      refine congrArg _ (funext fun v => ?_)
      dsimp only
      split
      · exact f.map_pure _
      · simp only [f.map_bind, f.map_pure, ih]
    · simp only [f.map_bind, f.map_pure, ih]

/-- The walk with visits that suspend is a walk in their setting… -/
theorem walkNodes_eq (visit : Node → σ → Deferred (Visit σ ε)) (index : NodeId) (ns : List Node)
    (s : σ) : walkNodes kind visit index ns s = walkIn kind visit index ns s := by
  induction ns generalizing index s with
  | nil => rfl
  | cons n ns ih =>
    simp only [walkNodes, walkIn, ih]
    rfl

/-- …and so is the one with visits that are made at once. -/
theorem walkNodesNow_eq (visit : Node → σ → Visit σ ε) (index : NodeId) (ns : List Node) (s : σ) :
    walkNodesNow kind visit index ns s = walkIn (m := Id) kind visit index ns s := by
  induction ns generalizing index s with
  | nil => rfl
  | cons n ns ih =>
    simp only [walkNodesNow, walkIn, ih]
    rfl

/-- **Resumed to the end, a walk is the one whose visits are made at once.** -/
theorem run_walkNodes (visit : Node → σ → Deferred (Visit σ ε)) (index : NodeId) (ns : List Node)
    (s : σ) : (walkNodes kind visit index ns s).run =
      walkNodesNow kind (fun n s => (visit n s).run) index ns s := by
  rw [walkNodes_eq, walkNodesNow_eq]
  exact Passage.run.walkIn visit index ns s

end

/-! ## What is seen of a walk -/

/-- What may be seen while nodes are visited. -/
inductive Event where
  | started (n : Node)
  | suspended
  | ended (n : Node)

/-- The start or the end of a visit. -/
def Event.isVisit : Event → Bool
  | .suspended => false
  | _ => true

/-- **A result with what is seen** before it is there. -/
inductive Watched (α : Type) where
  | done (result : α)
  | seen (event : Event) (rest : Watched α)

namespace Watched

variable {α β : Type}

/-- Goes on with a result once it is there. -/
def bind : Watched α → (α → Watched β) → Watched β
  | done a, f => f a
  | seen event rest, f => seen event (rest.bind f)

instance : Monad Watched where
  pure := done
  bind := bind

/-- What is seen, in order. -/
def trace : Watched α → List Event
  | done _ => []
  | seen event rest => event :: rest.trace

/-- The result with nobody watching: only its suspensions are left. -/
def unwatched : Watched α → Deferred α
  | done a => .done a
  | seen .suspended rest => .suspended rest.unwatched
  | seen _ rest => rest.unwatched

/-- A result whose suspensions are watched. -/
def ofDeferred : Deferred α → Watched α
  | .done a => done a
  | .suspended rest => seen .suspended (ofDeferred rest)

theorem unwatched_bind (x : Watched α) (f : α → Watched β) :
    (x.bind f).unwatched = x.unwatched.bind fun a => (f a).unwatched := by
  induction x with
  | done a => rfl
  | seen event rest ih =>
    cases event with
    | suspended => exact congrArg Deferred.suspended ih
    | started | ended => exact ih

theorem trace_bind (x : Watched α) (f : α → Watched β) :
    (x.bind f).trace = x.trace ++ (f x.unwatched.run).trace := by
  induction x with
  | done a => rfl
  | seen event rest ih => cases event <;> exact congrArg (_ :: ·) ih

@[simp] theorem unwatched_ofDeferred (x : Deferred α) : (ofDeferred x).unwatched = x := by
  induction x with
  | done a => rfl
  | suspended rest ih => exact congrArg Deferred.suspended ih

@[simp] theorem trace_ofDeferred (x : Deferred α) :
    (ofDeferred x).trace = List.replicate x.suspensions .suspended := by
  induction x with
  | done a => rfl
  | suspended rest ih => exact congrArg (_ :: ·) ih

end Watched

/-- Leaving a result unwatched. -/
def Passage.unwatched : Passage Watched Deferred where
  map := Watched.unwatched
  map_pure _ := rfl
  map_bind := Watched.unwatched_bind

section

variable {σ ε : Type} {kind : Option NodeKind}

/-- **A visitor that shows when a visit starts, is suspended and ends.** -/
def announced (visit : Node → σ → Deferred (Visit σ ε)) (n : Node) (s : σ) :
    Watched (Visit σ ε) :=
  .seen (.started n) ((Watched.ofDeferred (visit n s)).bind fun v => .seen (.ended n) (.done v))

@[simp] theorem unwatched_announced (visit : Node → σ → Deferred (Visit σ ε)) (n : Node) (s : σ) :
    (announced visit n s).unwatched = visit n s := by
  have hdone : ∀ x : Deferred (Visit σ ε), x.bind .done = x := fun x => by
    induction x with
    | done v => rfl
    | suspended rest ih => exact congrArg Deferred.suspended ih
  have hstarted : (announced visit n s).unwatched =
      ((Watched.ofDeferred (visit n s)).bind fun v => .seen (.ended n) (.done v)).unwatched := rfl
  rw [hstarted, Watched.unwatched_bind, Watched.unwatched_ofDeferred]
  exact hdone _

theorem trace_announced (visit : Node → σ → Deferred (Visit σ ε)) (n : Node) (s : σ) :
    (announced visit n s).trace =
      .started n :: (List.replicate (visit n s).suspensions .suspended ++ [.ended n]) := by
  rw [announced, Watched.trace, Watched.trace_bind, Watched.trace_ofDeferred]
  rfl

/-- **Watching a walk changes nothing of it.** -/
theorem unwatched_walkIn (visit : Node → σ → Deferred (Visit σ ε)) (index : NodeId)
    (ns : List Node) (s : σ) :
    (walkIn kind (announced visit) index ns s).unwatched = walkNodes kind visit index ns s := by
  rw [walkNodes_eq]
  refine (Passage.unwatched.walkIn (announced visit) index ns s).trans ?_
  exact congrArg (walkIn kind · index ns s)
    (funext fun n => funext fun s => unwatched_announced visit n s)

/-! ## Turns -/

/-- The nodes that a walk is to visit with their places, if the first node has the place `index`. -/
def selectedFrom (kind : Option NodeKind) (index : NodeId) (ns : List Node) :
    List (Node × NodeId) :=
  (ns.zipIdx index).filter fun place => place.1.isSelected kind

/-- **One visit of a walk**: the node and its place, how often the visit was suspended, and what it
left. -/
structure Turn (σ ε : Type) where
  place : Node × NodeId
  suspensions : Nat
  left : Visit σ ε

/-- Why the walk ends with the turn, if it does. -/
def Turn.failure? (t : Turn σ ε) : Option (WalkError ε) :=
  match t.left.outcome with
  | .ok () => none
  | .error e => some ⟨t.place.2, t.place.1.kind, e⟩

/-- What is seen of a turn. -/
def Turn.events (t : Turn σ ε) : List Event :=
  .started t.place.1 :: (List.replicate t.suspensions .suspended ++ [.ended t.place.1])

/-- The turn that a visitor takes at a node in a state. -/
def Turn.ofVisit (visit : Node → σ → Deferred (Visit σ ε)) (place : Node × NodeId) (s : σ) :
    Turn σ ε where
  place := place
  suspensions := (visit place.1 s).suspensions
  left := (visit place.1 s).run

/-- **The turns of a walk over these places**: each begins in the state that the last one left, and
the first that fails is the last. -/
def turns (visit : Node → σ → Deferred (Visit σ ε)) : List (Node × NodeId) → σ → List (Turn σ ε)
  | [], _ => []
  | place :: places, s =>
    let turn := Turn.ofVisit visit place s
    turn :: if turn.failure?.isSome then [] else turns visit places turn.left.state

/-- The state that turns leave. -/
def stateAfter (s : σ) (ts : List (Turn σ ε)) : σ := ts.foldl (fun _ t => t.left.state) s

/-- How a walk with these turns ends. -/
def outcomeOf (ts : List (Turn σ ε)) : Except (WalkError ε) Unit :=
  match ts.findSome? Turn.failure? with
  | none => .ok ()
  | some e => .error e

/-- A node at its place after these turns: **the turn of that place has written its metadata**. -/
def writtenBy (ts : List (Turn σ ε)) (place : Node × NodeId) : Node :=
  match ts.find? fun t => t.place.2 == place.2 with
  | none => place.1
  | some t => { place.1 with metadata := t.left.metadata }

variable {visit : Node → σ → Deferred (Visit σ ε)} {index : NodeId} {ns : List Node}
  {places : List (Node × NodeId)} {s : σ}

/-- **Turns go through the places in order.** -/
theorem places_turns_prefix : (turns visit places s).map Turn.place <+: places := by
  induction places generalizing s with
  | nil => exact List.nil_prefix
  | cons place places ih =>
    rw [turns, List.map_cons]
    refine List.prefix_cons_inj _ |>.2 ?_
    split
    · exact List.nil_prefix
    · exact ih

theorem outcomeOf_cons (t : Turn σ ε) (ts : List (Turn σ ε)) :
    outcomeOf (t :: ts) = t.failure?.elim (outcomeOf ts) .error := by
  rw [outcomeOf, List.findSome?_cons]
  cases t.failure? <;> rfl

theorem failure?_ofVisit_of_error {place : Node × NodeId} {e : ε}
    (h : (visit place.1 s).run.outcome = .error e) :
    (Turn.ofVisit visit place s).failure? = some ⟨place.2, place.1.kind, e⟩ := by
  simp only [Turn.failure?, Turn.ofVisit, h]

theorem failure?_ofVisit_of_ok {place : Node × NodeId}
    (h : (visit place.1 s).run.outcome = .ok ()) :
    (Turn.ofVisit visit place s).failure? = none := by
  simp only [Turn.failure?, Turn.ofVisit, h]

/-- The turn that fails is the last… -/
theorem turns_cons_of_error {place : Node × NodeId} {e : ε}
    (h : (visit place.1 s).run.outcome = .error e) :
    turns visit (place :: places) s = [Turn.ofVisit visit place s] := by
  rw [turns, failure?_ofVisit_of_error h]
  rfl

/-- …and any other goes on from the state that it leaves. -/
theorem turns_cons_of_ok {place : Node × NodeId} (h : (visit place.1 s).run.outcome = .ok ()) :
    turns visit (place :: places) s =
      Turn.ofVisit visit place s :: turns visit places (visit place.1 s).run.state := by
  rw [turns, failure?_ofVisit_of_ok h]
  rfl

/-- …and through all of them, unless one fails. -/
theorem places_turns (h : outcomeOf (turns visit places s) = .ok ()) :
    (turns visit places s).map Turn.place = places := by
  induction places generalizing s with
  | nil => rfl
  | cons place places ih =>
    rw [turns, outcomeOf_cons] at h
    rw [turns, List.map_cons]
    cases hfailure : (Turn.ofVisit visit place s).failure? with
    | some e => simp [hfailure] at h
    | none =>
      simp only [hfailure, Option.elim_none, Option.isSome_none, Bool.false_eq_true,
        if_false] at h ⊢
      exact congrArg (place :: ·) (ih h)

/-- **A turn is what the visitor does at its place in the state that the turns before it left**, and
nothing follows it if it fails. -/
theorem turns_eq_append {before after : List (Turn σ ε)} {t : Turn σ ε}
    (h : turns visit places s = before ++ t :: after) :
    t = Turn.ofVisit visit t.place (stateAfter s before) ∧
      (t.failure?.isSome = true → after = []) := by
  induction places generalizing s before with
  | nil => simp [turns] at h
  | cons place places ih =>
    rw [turns] at h
    cases before with
    | nil =>
      obtain ⟨rfl, hafter⟩ := List.cons.inj h
      exact ⟨rfl, fun hfails => by rw [← hafter, if_pos hfails]⟩
    | cons u before =>
      obtain ⟨rfl, hrest⟩ := List.cons.inj h
      split at hrest
      · simp at hrest
      · have hlater := ih hrest
        exact hlater

/-! ## Walks and turns -/

theorem selectedFrom_cons (n : Node) : selectedFrom kind index (n :: ns) =
    if n.isSelected kind then (n, index) :: selectedFrom kind (index + 1) ns
    else selectedFrom kind (index + 1) ns := by
  rw [selectedFrom, List.zipIdx_cons, List.filter_cons]
  rfl

theorem le_of_mem_turns {t : Turn σ ε} (h : t ∈ turns visit (selectedFrom kind index ns) s) :
    index ≤ t.place.2 := by
  have hmem := places_turns_prefix.subset (List.mem_map_of_mem (f := Turn.place) h)
  exact (List.mem_zipIdx (List.mem_filter.1 hmem).1).1

/-- A node is written by the turn of its place, and the nodes after it by the turns after… -/
theorem map_writtenBy_cons (n : Node) (ts : List (Turn σ ε)) :
    ((n :: ns).zipIdx index).map (writtenBy (Turn.ofVisit visit (n, index) s :: ts)) =
      { n with metadata := (visit n s).run.metadata } ::
        (ns.zipIdx (index + 1)).map (writtenBy ts) := by
  have hlater : (ns.zipIdx (index + 1)).map (writtenBy (Turn.ofVisit visit (n, index) s :: ts)) =
      (ns.zipIdx (index + 1)).map (writtenBy ts) := by
    refine List.map_congr_left fun place hplace => ?_
    have hne : index ≠ place.2 := Nat.ne_of_lt (List.mem_zipIdx hplace).1
    rw [writtenBy, List.find?_cons_of_neg (by simpa [Turn.ofVisit] using hne)]
    rfl
  rw [List.zipIdx_cons, List.map_cons, hlater, writtenBy,
    List.find?_cons_of_pos (by simp [Turn.ofVisit])]
  rfl

/-- …or by none. -/
theorem map_writtenBy_of_lt {ts : List (Turn σ ε)} (h : ∀ t ∈ ts, index < t.place.2) (n : Node) :
    ((n :: ns).zipIdx index).map (writtenBy ts) =
      n :: (ns.zipIdx (index + 1)).map (writtenBy ts) := by
  have hnone : ts.find? (fun t => t.place.2 == index) = none :=
    List.find?_eq_none.2 fun t ht => by simpa using Nat.ne_of_gt (h t ht)
  rw [List.zipIdx_cons, List.map_cons, writtenBy, hnone]

/-- **A walk is told by its turns.** -/
theorem walkNodesNow_eq_turns :
    walkNodesNow kind (fun n s => (visit n s).run) index ns s =
      let ts := turns visit (selectedFrom kind index ns) s
      ⟨(ns.zipIdx index).map (writtenBy ts), stateAfter s ts, outcomeOf ts⟩ := by
  induction ns generalizing index s with
  | nil => rfl
  | cons n ns ih =>
    dsimp only at ih ⊢
    rw [walkNodesNow, selectedFrom_cons]
    split
    · cases houtcome : (visit n s).run.outcome with
      | error e =>
        have hfails : (Turn.ofVisit visit (n, index) s).failure? = some ⟨index, n.kind, e⟩ :=
          failure?_ofVisit_of_error houtcome
        have hkept : (ns.zipIdx (index + 1)).map (writtenBy ([] : List (Turn σ ε))) = ns :=
          List.zipIdx_map_fst _ _
        rw [turns_cons_of_error houtcome, map_writtenBy_cons, outcomeOf_cons, hfails, hkept]
        simp only [houtcome]
        rfl
      | ok =>
        have hgoes : (Turn.ofVisit visit (n, index) s).failure? = none :=
          failure?_ofVisit_of_ok houtcome
        rw [turns_cons_of_ok houtcome, map_writtenBy_cons, outcomeOf_cons, hgoes]
        simp only [houtcome, ih]
        rfl
    · rw [ih, map_writtenBy_of_lt fun t ht => le_of_mem_turns ht]
      rfl

/-- **What is seen of a walk is what is seen of its turns**, one after the other. -/
theorem trace_walkIn : (walkIn kind (announced visit) index ns s).trace =
    (turns visit (selectedFrom kind index ns) s).flatMap Turn.events := by
  induction ns generalizing index s with
  | nil => rfl
  | cons n ns ih =>
    rw [walkIn, selectedFrom_cons]
    split
    · refine (Watched.trace_bind _ _).trans ?_
      rw [trace_announced, unwatched_announced]
      cases houtcome : (visit n s).run.outcome with
      | error e =>
        rw [turns_cons_of_error houtcome]
        rfl
      | ok =>
        rw [turns_cons_of_ok houtcome, List.flatMap_cons, ← ih]
        refine congrArg (Turn.events (Turn.ofVisit visit (n, index) s) ++ ·) ?_
        exact (Watched.trace_bind _ _).trans (List.append_nil _)
    · exact (Watched.trace_bind _ _).trans (by rw [ih]; exact List.append_nil _)

/-- A turn without its suspensions. -/
def Turn.atOnce (t : Turn σ ε) : Turn σ ε := { t with suspensions := 0 }

/-- A visitor that does at once what another one does takes the same turns at once. -/
theorem turns_atOnce : turns (fun n s => .done (visit n s).run) places s =
    (turns visit places s).map Turn.atOnce := by
  induction places generalizing s with
  | nil => rfl
  | cons place places ih =>
    have hturn : Turn.ofVisit (fun n s => .done (visit n s).run) place s =
        (Turn.ofVisit visit place s).atOnce := rfl
    have hfailure : (Turn.ofVisit visit place s).atOnce.failure? =
        (Turn.ofVisit visit place s).failure? := rfl
    rw [turns, turns, hturn, hfailure, List.map_cons]
    refine congrArg (_ :: ·) ?_
    split
    · rfl
    · exact ih

/-- Starts and ends are all that is seen of a turn at once. -/
theorem events_atOnce (t : Turn σ ε) : t.atOnce.events = t.events.filter Event.isVisit := by
  have hnone : (List.replicate t.suspensions Event.suspended).filter Event.isVisit = [] := by
    simp [Event.isVisit]
  rw [Turn.events, Turn.events, List.filter_cons_of_pos rfl, List.filter_append, hnone]
  rfl

/-- If a walk fails, it does so at its last turn. -/
theorem exists_of_outcomeOf {error : WalkError ε}
    (h : outcomeOf (turns visit places s) = .error error) :
    ∃ t, (turns visit places s).getLast? = some t ∧ t.left.outcome = .error error.cause ∧
      error.index = t.place.2 ∧ error.kind = t.place.1.kind := by
  rw [outcomeOf] at h
  split at h
  · cases h
  · next e hfound =>
    obtain rfl := Except.error.inj h
    obtain ⟨before, t, after, hts, hfails, -⟩ := List.findSome?_eq_some_iff.1 hfound
    obtain rfl := (turns_eq_append hts).2 (by rw [hfails]; rfl)
    refine ⟨t, by rw [hts, List.getLast?_concat], ?_⟩
    rw [Turn.failure?] at hfails
    split at hfails
    · cases hfails
    · next hcause =>
      obtain rfl := Option.some.inj hfails
      exact ⟨hcause, rfl, rfl⟩

end

/-! ## Documents -/

section

variable {σ ε : Type} {kind : Option NodeKind} {index : NodeId} {ns : List Node}

/-- Only metadata is written. -/
theorem isSelected_writtenBy (ts : List (Turn σ ε)) (place : Node × NodeId) :
    (writtenBy ts place).isSelected kind = place.1.isSelected kind := by
  rw [writtenBy]
  split <;> rfl

/-- …so **the same places are selected afterwards**. -/
theorem selectedFrom_writtenBy (ts : List (Turn σ ε)) :
    (selectedFrom kind index ((ns.zipIdx index).map (writtenBy ts))).map Prod.snd =
      (selectedFrom kind index ns).map Prod.snd := by
  induction ns generalizing index with
  | nil => rfl
  | cons n ns ih =>
    rw [List.zipIdx_cons, List.map_cons, selectedFrom_cons, selectedFrom_cons,
      isSelected_writtenBy]
    split
    · rw [List.map_cons, List.map_cons, ih]
    · exact ih

/-- No place is selected twice. -/
theorem nodup_selectedFrom : ((selectedFrom kind index ns).map Prod.snd).Nodup := by
  have hall : ((ns.zipIdx index).map Prod.snd).Nodup := by
    rw [List.zipIdx_map_snd]
    exact List.nodup_range'
  exact hall.sublist (List.filter_sublist.map Prod.snd)

end

namespace Document

variable {σ ε : Type} (doc : Document)

/-- The nodes that a walk is to visit, with their places in the whole list. -/
def selected (kind : Option NodeKind) : List (Node × NodeId) :=
  selectedFrom kind 0 doc.nodes.toList

/-- The document with the metadata that turns have written. -/
def writtenBy (ts : List (Turn σ ε)) : Document :=
  { doc with nodes := (doc.nodes.toList.zipIdx.map (Markup.writtenBy ts)).toArray }

/-- A walk over the document that is watched. -/
def watched (kind : Option NodeKind) (visit : Node → σ → Deferred (Visit σ ε)) (s : σ) :
    Watched (Walked σ ε) :=
  walkIn kind (announced visit) 0 doc.nodes.toList s

/-- **Turns that are taken in order and end with the first failure.** -/
structure FailFast (kind : Option NodeKind) (visit : Node → σ → Deferred (Visit σ ε)) (s : σ)
    (ts : List (Turn σ ε)) : Prop where
  /-- The turns go through the selected nodes… -/
  inOrder : ts.map Turn.place <+: doc.selected kind
  /-- …each from the state that those before left, none after one that fails… -/
  chained : ∀ before t after, ts = before ++ t :: after →
    t = Turn.ofVisit visit t.place (stateAfter s before) ∧ (t.failure?.isSome = true → after = [])
  /-- …and through all of them, unless one fails. -/
  complete : outcomeOf ts = .ok () → ts.map Turn.place = doc.selected kind
  /-- A failure tells the place of the node in the whole list and its kind. -/
  located : ∀ error, outcomeOf ts = .error error → ∃ t, ts.getLast? = some t ∧
    t.left.outcome = .error error.cause ∧ doc.nodes[error.index]? = some t.place.1 ∧
      error.kind = t.place.1.kind
  /-- A node keeps all but its metadata, and that too if it is not visited. -/
  kept : ∀ i n, doc.nodes[i]? = some n → ∃ metadata,
    (doc.writtenBy ts).nodes[i]? = some { n with metadata } ∧
      ((∀ t ∈ ts, t.place.2 ≠ i) → metadata = n.metadata) ∧
        ∀ t ∈ ts, t.place.2 = i → metadata = t.left.metadata

variable {doc} {kind : Option NodeKind} {visit : Node → σ → Deferred (Visit σ ε)} {s : σ}

theorem getElem?_of_mem_selected {n : Node} {i : NodeId} (h : (n, i) ∈ doc.selected kind) :
    doc.nodes[i]? = some n := by
  rw [← Array.getElem?_toList]
  exact List.mk_mem_zipIdx_iff_getElem?.1 (List.mem_filter.1 h).1

theorem getElem?_writtenBy (ts : List (Turn σ ε)) {n : Node} {i : NodeId}
    (h : doc.nodes[i]? = some n) :
    (doc.writtenBy ts).nodes[i]? = some (Markup.writtenBy ts (n, i)) := by
  rw [← Array.getElem?_toList] at h
  simp [writtenBy, h]

/-- **The turns of a walk are taken in order and end with the first failure.** -/
theorem failFast : doc.FailFast kind visit s (turns visit (doc.selected kind) s) := by
  have hvisited : (turns visit (doc.selected kind) s).map Turn.place <+: doc.selected kind :=
    places_turns_prefix
  refine ⟨hvisited, fun before t after => turns_eq_append, places_turns, fun error h => ?_,
    fun i n hn => ?_⟩
  · obtain ⟨t, hlast, hcause, hindex, hkind⟩ := exists_of_outcomeOf h
    have hplace := hvisited.subset
      (List.mem_map_of_mem (f := Turn.place) (List.mem_of_getLast? hlast))
    exact ⟨t, hlast, hcause, hindex ▸ getElem?_of_mem_selected hplace, hkind⟩
  · have hnodup : ((turns visit (doc.selected kind) s).map fun t => t.place.2).Nodup := by
      have hplaces := nodup_selectedFrom.sublist (hvisited.sublist.map Prod.snd)
      rwa [List.map_map] at hplaces
    rw [getElem?_writtenBy _ hn, Markup.writtenBy]
    split
    · next hnone =>
      refine ⟨n.metadata, rfl, fun _ => rfl, fun t ht hi => ?_⟩
      exact absurd hi (by simpa using List.find?_eq_none.1 hnone t ht)
    · next u hsome =>
      have hu := List.mem_of_find?_eq_some hsome
      have hi : u.place.2 = i := by simpa using List.find?_some hsome
      refine ⟨u.left.metadata, rfl, fun hother => absurd hi (hother u hu), fun t ht hti => ?_⟩
      rw [List.inj_on_of_nodup_map hnodup ht hu (hti.trans hi.symm)]

/-- **Walks that suspend and walks at once are the same traversal**: the visitor leaves the same
state, metadata and outcome, and the same visits start and end, each before the next; they are those
of the selected nodes up to the first that fails, and a later walk begins with the same nodes. -/
theorem walk_eq_turns (doc : Document) (kind : Option NodeKind)
    (visit : Node → σ → Deferred (Visit σ ε)) (s : σ) :
    let now := fun n s => (visit n s).run
    let watched := doc.watched kind visit s
    let watchedNow := doc.watched kind (fun n s => .done (now n s)) s
    doc.walk kind visit s = watched.unwatched.bind (fun w => .done (doc.afterWalk w)) ∧
      doc.walkNow kind now s = doc.afterWalk watchedNow.unwatched.run ∧
      ∃ ts, doc.FailFast kind visit s ts ∧
        (doc.walk kind visit s).run = (doc.writtenBy ts, stateAfter s ts, outcomeOf ts) ∧
        doc.walkNow kind now s = (doc.writtenBy ts, stateAfter s ts, outcomeOf ts) ∧
        watched.trace = ts.flatMap Turn.events ∧
        watchedNow.trace = watched.trace.filter Event.isVisit ∧
        ∀ later, ((doc.writtenBy ts).selected later).map Prod.snd =
          (doc.selected later).map Prod.snd := by
  intro now watched watchedNow
  let ts := turns visit (doc.selected kind) s
  have hwalk : doc.walk kind visit s =
      watched.unwatched.bind (fun w => .done (doc.afterWalk w)) := by
    rw [walk, ← unwatched_walkIn]
    rfl
  have hnow : doc.walkNow kind now s = (doc.writtenBy ts, stateAfter s ts, outcomeOf ts) := by
    rw [walkNow, walkNodesNow_eq_turns]
    rfl
  have htrace : watched.trace = ts.flatMap Turn.events := trace_walkIn
  refine ⟨hwalk, ?_, ts, failFast, ?_, hnow, htrace, ?_, fun later => ?_⟩
  · have hwatched : watchedNow.unwatched = walkNodes kind _ 0 doc.nodes.toList s :=
      unwatched_walkIn _ _ _ _
    rw [hwatched, run_walkNodes]
    rfl
  · rw [← hnow, walk, Deferred.run_bind, run_walkNodes]
    rfl
  · have htraceNow : watchedNow.trace = (ts.map Turn.atOnce).flatMap Turn.events :=
      trace_walkIn.trans (congrArg _ turns_atOnce)
    rw [htrace, htraceNow, List.flatMap_map, List.filter_flatMap]
    exact congrArg (List.flatMap · _) (funext events_atOnce)
  · exact selectedFrom_writtenBy ts

end Document

end Markup
