import Markup.Proofs.Blueprint.Raise

/-!
# Proofs/Blueprint/Buildable — building fails only where the source does

Of all its steps building may fail at three: a range that is none of the source, a start tag that
cannot be split, and what could not be planned.  A blueprint without these is `Buildable`, and **is
built wherever it stands** (`Blueprint.total_raise`).
-/

namespace Markup

namespace Build

variable {α β : Type}

/-- A step that succeeds from every arena. -/
def Total (x : Build α) : Prop := ∀ a, ∃ r, x a = .ok r

/-- **Steps that succeed one after the other succeed.** -/
theorem Total.bind {x : Build α} {f : α → Build β} (hx : x.Total)
    (hf : ∀ a v b, x a = .ok (v, b) → (f v).Total) : (x >>= f).Total := by
  intro a
  obtain ⟨⟨v, b⟩, hv⟩ := hx a
  obtain ⟨r, hr⟩ := hf a v b hv b
  exact ⟨r, bind_eq_ok.2 ⟨v, b, hv, hr⟩⟩

theorem total_pure (v : α) : (pure v : Build α).Total := fun a => ⟨(v, a), rfl⟩

theorem total_lift {x : Except Error α} {v : α} (h : x = .ok v) : (liftM x : Build α).Total :=
  fun a => ⟨(v, a), lift_eq_ok.2 ⟨h, rfl⟩⟩

theorem total_slice {source : Source} {span : Span} {token : Token}
    (h : source.slice span = .ok token) : (slice source span).Total :=
  fun a => ⟨(token, a), slice_eq_ok.2 ⟨h, rfl⟩⟩

theorem total_mapM_slice {source : Source} {span : Option Span}
    (h : ∀ s, span = some s → ∃ token, source.slice s = .ok token) :
    (span.mapM (slice source)).Total := by
  cases span with
  | none => exact total_pure none
  | some s =>
    obtain ⟨token, htoken⟩ := h s rfl
    intro a
    exact ⟨(some token, a), mapM_slice_eq_ok.2 ⟨Or.inr ⟨s, token, rfl, rfl, htoken⟩, rfl⟩⟩

/-- **An element is always closed**, by whatever there is. -/
theorem total_close (d : Dialect) (source : Source) (here : Position) (ns : Namespace) (id : NodeId)
    (tag : StartTag) (closer : Option Token) : (close d source here ns id tag closer).Total := by
  cases closer with
  | some token => exact fun a => ⟨_, rfl⟩
  | none =>
    cases himplied : d.impliesClose tag with
    | true => exact fun a => ⟨((), _), (close_none_eq_ok himplied).2 rfl⟩
    | false => exact fun a => ⟨((), a), (close_none_eq_ok_of_not himplied).2 rfl⟩

end Build

namespace Blueprint

open Build

/-- **A blueprint of which every range is one of the source** and every start tag can be split. -/
inductive Buildable (d : Dialect) (source : Source) : Blueprint → Prop
  | leaf {placement : Placement} {span : Span} {kind : Leaf} {token : Token}
      (slice : source.slice span = .ok token) : Buildable d source (.leaf placement span kind)
  | block {placement : Placement} {span : Span} {name : String} {children : List Blueprint}
      {token : Token} (slice : source.slice span = .ok token)
      (inside : ∀ b ∈ children, Buildable d source b) :
      Buildable d source (.block placement span name children)
  | element {placement : Placement} {startTag : Span} {children : List Blueprint}
      {endTag : Option Span} {token : Token} {tag : StartTag}
      (slice : source.slice startTag = .ok token)
      (read : StartTag.read d.readAttribute source token = .ok tag)
      (inside : ∀ b ∈ children, Buildable d source b)
      (closes : ∀ span, endTag = some span → ∃ token, source.slice span = .ok token) :
      Buildable d source (.element placement startTag children endTag)
  | group {placement : Placement} {span : Option Span} {items : List Blueprint}
      (slice : ∀ s, span = some s → ∃ token, source.slice s = .ok token)
      (inside : ∀ b ∈ items, Buildable d source b) :
      Buildable d source (.group placement span items)

variable {d : Dialect} {source : Source}

theorem total_raiseAll {bs : List Blueprint} (h : ∀ b ∈ bs, ∀ here, (raise d source here b).Total)
    (here : Position) : (raiseAll d source here bs).Total := by
  induction bs with
  | nil => rw [raiseAll]; exact total_pure []
  | cons b bs ih =>
    rw [List.forall_mem_cons] at h
    rw [raiseAll]
    refine (h.1 here).bind fun _ ids _ _ => ?_
    exact (ih h.2).bind fun _ others _ _ => total_pure _

/-- **What is buildable is built**, wherever it stands. -/
theorem total_raise {b : Blueprint} (h : Buildable d source b) :
    ∀ here, (raise d source here b).Total := by
  induction h with
  | leaf slice =>
    intro here
    rw [raise]
    exact (total_slice slice).bind fun _ token _ _ a => ⟨_, leaf_eq⟩
  | block slice inside ih =>
    intro here
    rw [raise]
    refine (total_slice slice).bind fun _ token _ _ => ?_
    refine Total.bind (fun a => ⟨_, rfl⟩) fun _ ns _ _ => ?_
    refine Total.bind (fun a => ⟨_, rfl⟩) fun _ id _ _ => ?_
    refine (total_raiseAll ih _).bind fun _ ids _ _ => ?_
    refine Total.bind (fun a => ⟨_, rfl⟩) fun _ displaced _ _ => ?_
    exact Total.bind (fun a => ⟨_, rfl⟩) fun _ _ _ _ => total_pure _
  | element slice read inside closes ih =>
    intro here
    rw [raise]
    refine (total_slice slice).bind fun _ token _ htoken => ?_
    obtain ⟨hslice, rfl⟩ := slice_eq_ok.1 htoken
    obtain rfl := Except.ok.inj (slice.symm.trans hslice)
    refine (total_lift read).bind fun _ tag _ _ => ?_
    refine Total.bind (fun a => ⟨_, rfl⟩) fun _ outer _ _ => ?_
    refine Total.bind (fun a => ⟨_, rfl⟩) fun _ id _ _ => ?_
    refine (total_raiseAll ih _).bind fun _ ids _ _ => ?_
    refine Total.bind (fun a => ⟨_, rfl⟩) fun _ displaced _ _ => ?_
    refine (total_mapM_slice closes).bind fun _ closer _ _ => ?_
    refine (total_close d source _ _ _ _ _).bind fun _ _ _ _ => ?_
    exact Total.bind (fun a => ⟨_, rfl⟩) fun _ _ _ _ => total_pure _
  | group slice inside ih =>
    intro here
    rw [raise]
    exact (total_mapM_slice slice).bind fun _ _ _ _ => total_raiseAll ih _

end Blueprint

/-- **A document whose roots are buildable is parsed.** -/
theorem Document.exists_of_buildable {d : Dialect} {raw : String} {o : Options} {reading : Reading}
    (hread : d.read (Source.ofString raw o.base) o = .ok reading)
    (h : ∀ b ∈ reading.roots, b.Buildable d (Source.ofString raw o.base)) :
    ∃ doc, Document.parse d raw o = .ok doc := by
  obtain ⟨⟨ids, a⟩, hraise⟩ :=
    Blueprint.total_raiseAll (fun b hb => Blueprint.total_raise (h b hb)) ⟨none, o.depth⟩ #[]
  rw [Document.parse]
  simp only [hread, Blueprint.raiseForest, StateT.run, hraise, bind, Except.bind, pure, Except.pure]
  exact ⟨_, rfl⟩

end Markup
