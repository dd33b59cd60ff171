import Markup.Proofs.Blueprint.Buildable
import Markup.Proofs.StartTag.Cover

/-!
# Proofs/Blueprint/Refusal — building refuses the source or nothing

Building asks for ranges of the source, splits start tags and moves what does not stand where it is
built.  A blueprint is `Sound` if **all that can fail of this is the text's own fault**: then
building it decides the source (`Blueprint.decides_raise`).  And where no blueprint asks for a place
of its own, nothing is ever left over to be moved (`Blueprint.InPlace.stays`).
-/

namespace Markup

namespace Build

variable {source : Source} {α β : Type}

/-- A step that decides the source from every arena. -/
def Decides (source : Source) (x : Build α) : Prop :=
  ∀ a, source.Decides (fun _ => True) (x a)

theorem Decides.bind {x : Build α} {f : α → Build β} (hx : Decides source x)
    (hf : ∀ a v b, x a = .ok (v, b) → Decides source (f v)) : Decides source (x >>= f) := by
  intro a
  refine Source.Decides.bind (hx a) fun r hr _ => ?_
  obtain ⟨v, b⟩ := r
  exact hf a v b hr b

/-- A step that always succeeds. -/
theorem decides_of_ok {x : Build α} (h : ∀ a, ∃ r, x a = .ok r) : Decides source x := by
  intro a
  obtain ⟨r, hr⟩ := h a
  rw [hr]
  exact .ok trivial

theorem decides_lift {x : Except Error α} (h : source.Decides (fun _ => True) x) :
    Decides source (liftM x : Build α) :=
  fun _ => Source.Decides.bind h fun _ _ _ => .ok trivial

/-- **A range of the text has a token.** -/
theorem decides_slice {span : Span} (h : Text.IsRange source.text span.start span.stop) :
    Decides source (slice source span) := by
  obtain ⟨token, htoken⟩ := Source.exists_slice_of_isRange h
  exact decides_of_ok fun a => ⟨(token, a), slice_eq_ok.2 ⟨htoken, rfl⟩⟩

theorem decides_mapM_slice {span : Option Span}
    (h : ∀ s, span = some s → Text.IsRange source.text s.start s.stop) :
    Decides source (span.mapM (slice source)) := by
  cases span with
  | none => exact decides_of_ok fun a => ⟨(none, a), rfl⟩
  | some s =>
    obtain ⟨token, htoken⟩ := Source.exists_slice_of_isRange (h s rfl)
    exact decides_of_ok fun a =>
      ⟨(some token, a), mapM_slice_eq_ok.2 ⟨Or.inr ⟨s, token, rfl, rfl, htoken⟩, rfl⟩⟩

/-- An element is always closed, by whatever there is. -/
theorem decides_close (d : Dialect) (here : Position) (ns : Namespace) (id : NodeId)
    (tag : StartTag) (closer : Option Token) :
    Decides source (close d source here ns id tag closer) :=
  decides_of_ok (total_close d source here ns id tag closer)

end Build

namespace Blueprint

open Build

/-- **A blueprint of which nothing can fail but by the text's own fault**: all its ranges are ranges
of the text, and its start tags can be split or are refused. -/
inductive Sound (d : Dialect) (source : Source) : Blueprint → Prop
  | leaf {placement : Placement} {span : Span} {kind : Leaf}
      (range : Text.IsRange source.text span.start span.stop) :
      Sound d source (.leaf placement span kind)
  | block {placement : Placement} {span : Span} {name : String} {children : List Blueprint}
      (range : Text.IsRange source.text span.start span.stop)
      (inside : ∀ b ∈ children, Sound d source b) :
      Sound d source (.block placement span name children)
  | element {placement : Placement} {startTag : Span} {children : List Blueprint}
      {endTag : Option Span} (range : Text.IsRange source.text startTag.start startTag.stop)
      (reads : ∀ token, source.slice startTag = .ok token →
        source.Decides (fun _ => True) (StartTag.read d.readAttribute source token))
      (inside : ∀ b ∈ children, Sound d source b)
      (closes : ∀ span, endTag = some span → Text.IsRange source.text span.start span.stop) :
      Sound d source (.element placement startTag children endTag)
  | group {placement : Placement} {span : Option Span} {items : List Blueprint}
      (range : ∀ s, span = some s → Text.IsRange source.text s.start s.stop)
      (inside : ∀ b ∈ items, Sound d source b) : Sound d source (.group placement span items)
  | fault {error : Error} (located : error.Located source) : Sound d source (.fault error)

variable {d : Dialect} {source : Source}

/-- One blueprint in a range of the text. -/
theorem Sound.single {placement : Placement} {span : Span} {b : Blueprint}
    (range : Text.IsRange source.text span.start span.stop) (h : Sound d source b) :
    Sound d source (.group placement (some span) [b]) := by
  refine .group ?_ (List.forall_mem_singleton.2 h)
  rintro _ ⟨⟩
  exact range

/-- **An element with a start tag that begins with a bracket**: it is split or refused. -/
theorem Sound.of_startTag {placement : Placement} {startTag : Span} {children : List Blueprint}
    {endTag : Option Span} {inner : List Char} (hread : d.readAttribute.Covers)
    (hslice : Text.slice? startTag.start startTag.stop source.text = some ('<' :: inner))
    (inside : ∀ b ∈ children, Sound d source b)
    (closes : ∀ span, endTag = some span → Text.IsRange source.text span.start span.stop) :
    Sound d source (.element placement startTag children endTag) := by
  refine .element ⟨_, hslice⟩ (fun token htoken => ?_) inside closes
  have hraw := Option.some.inj ((Source.slice?_of_slice htoken).symm.trans hslice)
  exact (StartTag.decides_read hread htoken hraw).mono fun _ _ => trivial

theorem decides_raiseAll {bs : List Blueprint}
    (h : ∀ b ∈ bs, ∀ here, Decides source (raise d source here b)) (here : Position) :
    Decides source (raiseAll d source here bs) := by
  induction bs with
  | nil => rw [raiseAll]; exact decides_of_ok fun a => ⟨([], a), rfl⟩
  | cons b bs ih =>
    rw [List.forall_mem_cons] at h
    rw [raiseAll]
    refine (h.1 here).bind fun _ ids _ _ => ?_
    exact (ih h.2).bind fun _ others _ _ => decides_of_ok fun a => ⟨(_, a), rfl⟩

/-- **What is sound is built, or the source is refused at a place of it.** -/
theorem decides_raise {b : Blueprint} (h : Sound d source b) :
    ∀ here, Decides source (raise d source here b) := by
  induction h with
  | leaf range =>
    intro here
    rw [raise]
    exact (decides_slice range).bind fun _ token _ _ => decides_of_ok fun a => ⟨_, leaf_eq⟩
  | block range inside ih =>
    intro here
    rw [raise]
    refine (decides_slice range).bind fun _ token _ _ => ?_
    refine (decides_of_ok fun a => ⟨_, rfl⟩).bind fun _ ns _ _ => ?_
    refine (decides_of_ok fun a => ⟨_, rfl⟩).bind fun _ id _ _ => ?_
    refine (decides_raiseAll ih _).bind fun _ ids _ _ => ?_
    refine (decides_of_ok fun a => ⟨_, rfl⟩).bind fun _ displaced _ _ => ?_
    exact (decides_of_ok fun a => ⟨_, rfl⟩).bind fun _ _ _ _ => decides_of_ok fun a => ⟨_, rfl⟩
  | element range reads inside closes ih =>
    intro here
    rw [raise]
    refine (decides_slice range).bind fun _ token _ htoken => ?_
    refine (decides_lift (reads token (slice_eq_ok.1 htoken).1)).bind fun _ tag _ _ => ?_
    refine (decides_of_ok fun a => ⟨_, rfl⟩).bind fun _ outer _ _ => ?_
    refine (decides_of_ok fun a => ⟨_, rfl⟩).bind fun _ id _ _ => ?_
    refine (decides_raiseAll ih _).bind fun _ ids _ _ => ?_
    refine (decides_of_ok fun a => ⟨_, rfl⟩).bind fun _ displaced _ _ => ?_
    refine (decides_mapM_slice closes).bind fun _ closer _ _ => ?_
    refine (decides_close d _ _ _ _ _).bind fun _ _ _ _ => ?_
    exact (decides_of_ok fun a => ⟨_, rfl⟩).bind fun _ _ _ _ => decides_of_ok fun a => ⟨_, rfl⟩
  | group range inside ih =>
    intro here
    rw [raise]
    exact (decides_mapM_slice range).bind fun _ _ _ _ => decides_raiseAll ih _
  | fault located =>
    intro here a
    rw [raise]
    exact .refused located

/-- …and so are forests of such blueprints. -/
theorem decides_raiseForest {roots : List Blueprint} (h : ∀ b ∈ roots, Sound d source b)
    (depth : Nat) : source.Decides (fun _ => True) (raiseForest d source depth roots) := by
  have hraise := decides_raiseAll (fun b hb => decides_raise (h b hb)) ⟨none, depth⟩
  rw [raiseForest]
  exact (hraise #[]).bind fun _ _ _ => .ok trivial

/-! ## Nodes that stay where they are built -/

/-- **What is built side by side stands where it is built**: none of its nodes is left over to be
moved. -/
def Settled (d : Dialect) (source : Source) (bs : List Blueprint) : Prop :=
  ∀ ⦃here : Position⦄ ⦃a a' : Arena⦄ ⦃ids : List NodeId⦄,
    (∀ p, here.parent = some p → p < a.size) → raiseAll d source here bs a = .ok (ids, a') →
      (a'.settle here ids).2 = []

/-- **All that is built inside of a blueprint stands right under its node.** -/
inductive Stays (d : Dialect) (source : Source) : Blueprint → Prop
  | leaf (placement : Placement) (span : Span) (kind : Leaf) :
      Stays d source (.leaf placement span kind)
  | block {placement : Placement} {span : Span} {name : String} {children : List Blueprint}
      (settled : Settled d source children) (inside : ∀ b ∈ children, Stays d source b) :
      Stays d source (.block placement span name children)
  | element {placement : Placement} {startTag : Span} {children : List Blueprint}
      {endTag : Option Span} (settled : Settled d source children)
      (inside : ∀ b ∈ children, Stays d source b) :
      Stays d source (.element placement startTag children endTag)
  | group {placement : Placement} {span : Option Span} {items : List Blueprint}
      (inside : ∀ b ∈ items, Stays d source b) : Stays d source (.group placement span items)
  | fault (error : Error) : Stays d source (.fault error)

/-- **Blueprints that ask for no place of their own** are settled where they are built… -/
theorem settled_of_inPlace {bs : List Blueprint} (h : ∀ b ∈ bs, b.InPlace) :
    Settled d source bs := by
  intro here a a' ids hparent hraise
  obtain ⟨nodes, hnodes, hrow⟩ :=
    adds_raiseAll (fun b hb => adds_raise (h b hb)) hparent hraise
  rw [Arena.settle_of_standsAt (hrow.standsAt hnodes)]

/-- …and so is all that is inside them. -/
theorem InPlace.stays {b : Blueprint} (h : b.InPlace) : b.Stays d source := by
  induction h with
  | leaf span kind => exact .leaf {} span kind
  | block _ _ inside ih => exact .block (settled_of_inPlace inside) ih
  | element _ _ inside ih => exact .element (settled_of_inPlace inside) ih
  | group _ _ ih => exact .group ih
  | fault error => exact .fault error

end Blueprint

/-- **A text of which all blueprints are sound is parsed, or refused at a place of it.** -/
theorem Document.decides_of_sound {d : Dialect} {raw : String} {o : Options}
    (h : ∀ reading, d.read (Source.ofString raw o.base) o = .ok reading →
      ∀ b ∈ reading.roots, b.Sound d (Source.ofString raw o.base)) :
    (Source.ofString raw o.base).Decides (fun _ => True) (Document.parse d raw o) := by
  rw [Document.parse]
  dsimp only
  split
  · exact .refused (Source.located_reject _ _)
  · next reading hread =>
    exact (Blueprint.decides_raiseForest (h reading hread) o.depth).bind fun _ _ _ => .ok trivial

end Markup
