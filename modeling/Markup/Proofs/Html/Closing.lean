import Markup.Proofs.Html.Filling

/-!
# Proofs/Html/Closing — an implied close is an explicit one

A start tag, an end tag of an outer element or the end of the text closes elements that have no end
tag of their own.  **If each is given its end tag just there, the trees are the same** but for these
end tags (`Tree.ofText_insertFrom`).  `Growth.complete` puts them among the lexemes.  The completed
lexemes are those of the text with the end tags put in (`Growth.exists_insertFrom_eq`,
`Growth.lexemes_complete`), and what they grow is what the others grew, filled
(`Growth.foldl_complete`).
-/

namespace Markup.Html

/-- The end tag of an element, as it is written. -/
def Lexeme.closer (name : String) : Lexeme := .endTag name (Html.endTag name.toList)

/-- **A mark that is not left open**, or no mark at all. -/
def Tree.isEnded (source : List Char) : Tree → Bool
  | .leaf kind span => kind.isEnded ((Text.slice? span.start span.stop source).getD [])
  | _ => true

namespace Growth

variable {source : List Char} {g : Growth} {l : Lexeme} {ls : List Lexeme}

/-- **The lexemes that are left while a tree grows**: those of what has not been read yet. -/
structure Before (source : List Char) (g : Growth) (ls : List Lexeme) : Prop where
  covers : g.Covers source g.offset
  rest : Text.dropBytes? g.offset source = some (ls.flatMap Lexeme.text)
  read : lexemes config (ls.flatMap Lexeme.text) = .ok ls

namespace Before

/-- The first of them is read first… -/
theorem next (h : g.Before source (l :: ls)) :
    l.text ≠ [] ∧ Lexeme.next config (l.text ++ ls.flatMap Lexeme.text) =
      .ok (l, ls.flatMap Lexeme.text) ∧ lexemes config (ls.flatMap Lexeme.text) = .ok ls := by
  have hread := h.read
  rw [List.flatMap_cons] at hread
  cases hcs : l.text ++ ls.flatMap Lexeme.text with
  | nil =>
    rw [hcs, lexemes] at hread
    cases hread
  | cons c cs =>
    rw [hcs] at hread
    obtain ⟨first, rest, others, hnext, hothers, heq⟩ := lexemes_cons_eq_ok hread
    cases heq
    obtain rfl := (flatMap_text_of_lexemes hothers).1
    exact ⟨(Lexeme.append_of_next hnext).2 (List.cons_ne_nil c cs), hnext, hothers⟩

theorem ne_nil (h : g.Before source (l :: ls)) : l.text ++ ls.flatMap Lexeme.text ≠ [] :=
  List.append_ne_nil_of_left_ne_nil h.next.1 _

theorem proper (h : g.Before source (l :: ls)) : l.Proper :=
  Lexeme.proper_of_next h.next.2.1 h.ne_nil

/-- …and then the others are left. -/
theorem step (h : g.Before source (l :: ls)) : (g.step config l).Before source ls := by
  have hrest := h.rest
  rw [List.flatMap_cons] at hrest
  exact ⟨covers_step h.covers h.proper hrest, Text.dropBytes?_of_append hrest, h.next.2.2⟩

end Before

/-- All is left of a text that has not been read. -/
theorem before_start {ls : List Lexeme} (h : lexemes config source = .ok ls) :
    Before source {} ls := by
  have htext := (flatMap_text_of_lexemes h).1
  refine ⟨Stacked.nil (Forest.nil _), ?_, htext.symm ▸ h⟩
  exact Text.dropBytes?_eq_some_iff.2 ⟨[], htext.symm, rfl⟩

namespace Before

theorem closeMany {n : Nat} (h : g.Before source ls) (hn : n ≤ g.names.length) :
    (closeMany n g).Before source ls := by
  rw [names, List.length_map] at hn
  refine ⟨?_, ?_, h.read⟩
  · rw [offset_closeMany]
    exact h.covers.closeMany hn
  · rw [offset_closeMany]
    exact h.rest

/-- A start tag that nothing belongs to is that of a void element, or closes itself. -/
theorem closed_of_closedTag {name : String} {raw : List Char}
    (h : g.Before source (.closedTag name raw :: ls)) :
    (TagRule.ofName name).isVoid = true ∨ isSelfClosing raw = true :=
  Lexeme.closed_of_next h.next.2.1

theorem standsAt (h : g.Before source (l :: ls)) : l.StandsAt source g.offset := by
  have hrest := h.rest
  rw [List.flatMap_cons] at hrest
  have hproper := h.proper
  cases l with
  | mark | openTag | endTag => trivial
  | closedTag name raw => exact ⟨Text.slice?_of_dropBytes? hrest, h.closed_of_closedTag⟩
  | rawElement name startTag content closing =>
    obtain ⟨htag, hopen, -⟩ := hproper
    rw [Lexeme.text, List.append_assoc, List.append_assoc] at hrest
    exact ⟨startTag, ⟨Text.slice?_of_dropBytes? hrest, htag⟩, hopen⟩

end Before

/-! ## Completed lexemes -/

/-- The end tags of the innermost open elements. -/
def closers (g : Growth) (n : Nat) : List Lexeme := (g.names.take n).map Lexeme.closer

/-- **Lexemes with the end tags that are lacking in them**, each where its element is closed. -/
def complete (g : Growth) : List Lexeme → List Lexeme
  | [] => g.closers g.names.length
  | l :: ls => g.closers (g.implied l) ++ l.closed :: complete (g.step config l) ls

/-- The growth at the end of the text, after all that is open has been closed. -/
def closeAll (g : Growth) : Growth := closeMany g.stack.length g

theorem implied_le (g : Growth) (l : Lexeme) : g.implied l ≤ g.names.length := by
  cases l with
  | mark => exact Nat.zero_le _
  | closedTag | openTag | rawElement => exact (List.takeWhile_prefix _).length_le
  | endTag name =>
    rw [implied]
    cases h : g.names.findIdx? (config.namesMatch · name) with
    | none => exact Nat.zero_le _
    | some n =>
      obtain ⟨hn, -⟩ := List.findIdx?_eq_some_iff_getElem.1 h
      exact Nat.le_of_lt hn

/-- One end tag closes the innermost element, and the others those around it. -/
theorem exists_closers_succ {n : Nat} (hn : n + 1 ≤ g.names.length) :
    ∃ e, g.stack.head? = some e ∧ n ≤ (g.closeTop none).names.length ∧
      g.closers (n + 1) = .closer e.name :: (g.closeTop none).closers n := by
  have htail : (g.closeTop none).names = g.names.tail := names_closeTop g none
  obtain ⟨offset, roots, stack⟩ := g
  cases stack with
  | nil => exact absurd hn (Nat.not_succ_le_zero n)
  | cons e outer =>
    rw [closers, closers, htail]
    exact ⟨e, rfl, Nat.le_of_succ_le_succ hn, rfl⟩

/-- **End tags close in the filled growth what is closed without them.** -/
theorem foldl_closers {n : Nat} (h : g.Before source ls) (hn : n ≤ g.names.length) :
    (g.closers n).foldl (step config) (g.fill source) = (closeMany n g).fill source := by
  induction n generalizing g with
  | zero => rfl
  | succ n ih =>
    obtain ⟨e, he, hn', hclosers⟩ := exists_closers_succ hn
    have hclosed : (g.closeTop none).Before source ls := h.closeMany (n := 1) (by omega)
    have htop : (g.fill source).top? = some e.name := by
      rw [top?_fill, top?, he]
      rfl
    have hstep : (g.fill source).step config (.closer e.name) = (g.closeTop none).fill source := by
      rw [fill_closeTop_none h.covers he, Lexeme.closer, step_of_top htop (namesMatch_self e.name)]
    rw [hclosers, List.foldl_cons, hstep]
    exact ih hclosed hn'

/-- The end tags that are lacking where elements are closed. -/
theorem missing_closeMany {n : Nat} (h : g.Before source ls) (hn : n ≤ g.names.length) :
    Tree.missing source (closeMany n g).finished = Tree.missing source g.finished ++
      ((g.closers n).map Lexeme.text).map (⟨g.offset, ·⟩) := by
  induction n generalizing g with
  | zero => exact (List.append_nil _).symm
  | succ n ih =>
    obtain ⟨e, he, hn', hclosers⟩ := exists_closers_succ hn
    have hclosed : (g.closeTop none).Before source ls := h.closeMany (n := 1) (by omega)
    obtain ⟨hopens, hend⟩ := h.covers.of_head he
    have hlacks := OpenElement.lacked?_close hopens
    rw [Growth.closeMany, ih hclosed hn', missing_closeTop he, Tree.insertion?, hlacks,
      offset_closeTop, hclosers, List.append_assoc]
    simp only [OpenElement.close, Tree.span, Option.map_none, Option.getD_none, hend]
    rfl

/-! ## Whole runs -/

/-- **The completed lexemes grow what the others grow, filled.** -/
theorem foldl_complete (h : g.Before source ls) :
    (g.complete ls).foldl (step config) (g.fill source) =
      (ls.foldl (step config) g).closeAll.fill source := by
  induction ls generalizing g with
  | nil =>
    have hlength : g.names.length = g.stack.length := List.length_map _
    rw [complete, foldl_closers h (Nat.le_refl _), hlength]
    rfl
  | cons l ls ih =>
    have hclosed := h.closeMany (implied_le g l)
    rw [complete, List.foldl_append, foldl_closers h (implied_le g l), List.foldl_cons,
      ← fill_step (implied_closeMany g l) hclosed.standsAt, step_closeMany, ih h.step,
      List.foldl_cons]

/-- **The completed lexemes are written where the end tags are put in** that are missing in what is
finished later. -/
theorem exists_insertFrom_eq (h : g.Before source ls) :
    ∃ later, Tree.missing source (ls.foldl (step config) g).closeAll.finished =
        Tree.missing source g.finished ++ later ∧ (∀ w ∈ later, g.offset ≤ w.position) ∧
      Text.insertFrom later g.offset (ls.flatMap Lexeme.text) =
        (g.complete ls).flatMap Lexeme.text := by
  induction ls generalizing g with
  | nil =>
    have hlength : g.names.length = g.stack.length := List.length_map _
    rw [List.foldl_nil]
    refine ⟨_, missing_closeMany h (Nat.le_of_eq hlength.symm), by simp, ?_⟩
    rw [List.flatMap_nil, complete, hlength, Text.insertFrom_words, List.flatMap_def]
  | cons l ls ih =>
    have hclosed := h.closeMany (implied_le g l)
    have hmissing := missing_step (implied_closeMany g l) hclosed.standsAt
    rw [step_closeMany, missing_closeMany h (implied_le g l), offset_closeMany] at hmissing
    obtain ⟨later, hlater, hbehind, hinsert⟩ := ih h.step
    have hoffset : (g.step config l).offset = g.offset + Text.byteSize l.text := rfl
    rw [hoffset] at hbehind hinsert
    rw [hmissing, List.append_assoc, List.append_assoc] at hlater
    have hown : ∀ w ∈ l.lacks.map (⟨g.offset + Text.byteSize l.text, ·⟩) ++ later,
        g.offset + Text.byteSize l.text ≤ w.position :=
      List.forall_mem_append.2 ⟨List.forall_mem_map.2 fun _ _ => Nat.le_refl _, hbehind⟩
    refine ⟨_, hlater, ?_, ?_⟩
    · exact List.forall_mem_append.2 ⟨List.forall_mem_map.2 fun _ _ => Nat.le_refl _,
        fun w hw => Nat.le_trans (Nat.le_add_right _ _) (hown w hw)⟩
    · rw [List.flatMap_cons, Text.insertFrom_append_words, Text.insertFrom_append hown,
        Text.insertFrom_append_words, hinsert, complete, List.flatMap_append, List.flatMap_cons,
        Lexeme.text_closed, List.append_assoc, ← List.flatMap_def]

/-! ## Completed lexemes as a text -/

/-- The names of open elements can be written in tags. -/
theorem Covers.isTagName {stop : Nat} (h : g.Covers source stop) :
    ∀ name ∈ g.names, IsTagName name.toList := by
  obtain ⟨offset, roots, stack⟩ := g
  simp only [Covers] at h
  rw [names, List.forall_mem_map]
  induction h with
  | nil => simp
  | cons before startTag opens inside ih =>
    obtain ⟨raw, ⟨-, htag⟩, -⟩ := opens
    exact List.forall_mem_cons.2 ⟨htag.isTagName, ih⟩

/-- …in particular the names of those that are closed. -/
theorem Before.isTagName (h : g.Before source ls) (n : Nat) :
    ∀ name ∈ g.names.take n, IsTagName name.toList :=
  fun name hname => h.covers.isTagName name (List.mem_of_mem_take hname)

/-- End tags that are written are read. -/
theorem lexemes_closers {names : List String} (h : ∀ name ∈ names, IsTagName name.toList)
    {rest : List Char} (hrest : lexemes config rest = .ok ls) :
    lexemes config ((names.map Lexeme.closer).flatMap Lexeme.text ++ rest) =
      .ok (names.map Lexeme.closer ++ ls) := by
  induction names with
  | nil => exact hrest
  | cons name names ih =>
    obtain ⟨hname, hnames⟩ := List.forall_mem_cons.1 h
    have hnext : Lexeme.next config ((Lexeme.closer name).text ++
        ((names.map Lexeme.closer).flatMap Lexeme.text ++ rest)) =
          .ok (.closer name, (names.map Lexeme.closer).flatMap Lexeme.text ++ rest) :=
      (Lexeme.next_endTag hname _).trans (by rw [String.ofList_toList]; rfl)
    rw [List.map_cons, List.flatMap_cons, List.append_assoc]
    exact lexemes_of_next hnext (List.cons_ne_nil _ _) (ih hnames)

/-- Before end tags a run of text ends. -/
theorem Before.endsText_closers (h : g.Before source ls) (n : Nat) {rest : List Char}
    (hrest : EndsText rest) : EndsText ((g.closers n).flatMap Lexeme.text ++ rest) := by
  have hnames := h.isTagName n
  rw [closers]
  cases hn : g.names.take n with
  | nil => exact hrest
  | cons name names =>
    rw [List.map_cons, List.flatMap_cons, List.append_assoc]
    exact Or.inr (isMarkup_endTag (hnames name (hn ▸ List.mem_cons_self)) _)

/-- What ends a run of text still does, once the end tags have been put in. -/
theorem Before.endsText (h : g.Before source ls) (hended : ∀ l ∈ ls, l.Ended)
    (hrest : EndsText (ls.flatMap Lexeme.text)) :
    EndsText ((g.complete ls).flatMap Lexeme.text) := by
  cases ls with
  | nil =>
    have hnothing := h.endsText_closers g.names.length (Or.inl rfl)
    rwa [List.append_nil] at hnothing
  | cons l ls =>
    obtain ⟨hne, hnext, -⟩ := h.next
    rw [complete, List.flatMap_append, List.flatMap_cons]
    refine h.endsText_closers _ (Or.inr ?_)
    have hnot := (Lexeme.isMarkup_iff_of_next hnext).1 (hrest.resolve_left h.ne_nil)
    rw [Lexeme.isMarkup_iff_of_next (Lexeme.next_closed hnext h.ne_nil
      (List.forall_mem_cons.1 hended).1 fun htext => absurd htext hnot)]
    rintro ⟨raw, heq⟩
    cases l with
    | mark => exact hnot ⟨raw, heq⟩
    | _ => cases heq

/-- **The completed lexemes are those of their text.** -/
theorem lexemes_complete (h : g.Before source ls) (hended : ∀ l ∈ ls, l.Ended) :
    lexemes config ((g.complete ls).flatMap Lexeme.text) = .ok (g.complete ls) := by
  induction ls generalizing g with
  | nil =>
    have hnothing : lexemes config [] = .ok [] := by rw [lexemes]
    have hread := lexemes_closers (h.isTagName g.names.length) hnothing
    rwa [List.append_nil, List.append_nil] at hread
  | cons l ls ih =>
    obtain ⟨hl, hls⟩ := List.forall_mem_cons.1 hended
    obtain ⟨hne, hnext, -⟩ := h.next
    have hclosed := Lexeme.next_closed hnext h.ne_nil hl fun htext =>
      h.step.endsText hls (Lexeme.endsText_of_next hnext h.ne_nil htext)
    have hsome : l.closed.text ++ ((g.step config l).complete ls).flatMap Lexeme.text ≠ [] := by
      rw [Lexeme.text_closed, List.append_assoc]
      exact List.append_ne_nil_of_left_ne_nil hne _
    have hread := lexemes_closers (h.isTagName (g.implied l))
      (lexemes_of_next hclosed hsome (ih h.step hls))
    rwa [complete, List.flatMap_append, List.flatMap_cons]

/-! ## The last leaf -/

/-- Closing an element adds no leaf. -/
theorem leaves_closeMany (n : Nat) (g : Growth) :
    Tree.leaves (Growth.closeMany n g).finished = Tree.leaves g.finished := by
  induction n generalizing g with
  | zero => rfl
  | succ n ih =>
    rw [Growth.closeMany, ih]
    obtain ⟨offset, roots, stack⟩ := g
    cases stack with
    | nil => rfl
    | cons e outer =>
      rw [closeTop_cons, finished_add, finished_cons, Tree.leaves_append, Tree.leaves_append]
      congr 1
      rw [Tree.leaves, Tree.postorderAll_singleton, List.filter_append]
      exact List.append_nil _

/-- A mark is the last leaf where it is read. -/
theorem leaves_step_mark (g : Growth) (kind : Mark) (raw : List Char) :
    Tree.leaves (g.step config (.mark kind raw)).finished =
      Tree.leaves g.finished ++ [.leaf kind ⟨g.offset, g.offset + Text.byteSize raw⟩] := by
  rw [step_mark, finished_upTo, finished_add, Tree.leaves_append]
  rfl

/-- **No mark of a text is left open**, if its last leaf is not. -/
theorem Before.ended (h : g.Before source ls)
    (hlast : (Tree.leaves (ls.foldl (Growth.step config) g).closeAll.finished).getLast?.all
      (Tree.isEnded source) = true) : ∀ l ∈ ls, l.Ended := by
  induction ls generalizing g with
  | nil => simp
  | cons l ls ih =>
    refine List.forall_mem_cons.2 ⟨?_, ih h.step hlast⟩
    obtain ⟨hne, hnext, -⟩ := h.next
    cases ls with
    | cons l' ls => exact Lexeme.ended_of_next hnext h.step.ne_nil
    | nil =>
      cases l with
      | closedTag | openTag | rawElement | endTag => trivial
      | mark kind raw =>
        have hrest := h.rest
        rw [List.flatMap_cons] at hrest
        have hslice : Text.slice? g.offset (g.offset + Text.byteSize raw) source = some raw :=
          Text.slice?_of_dropBytes? hrest
        rw [List.foldl_cons, List.foldl_nil, closeAll, leaves_closeMany, leaves_step_mark,
          List.getLast?_concat, Option.all_some, Tree.isEnded] at hlast
        rwa [hslice] at hlast

/-- At the end nothing is open. -/
theorem closeAll_eq (g : Growth) :
    g.closeAll = { offset := g.closeAll.offset, roots := g.closeAll.roots } := by
  have hstack := stack_closeMany g.stack.length g
  rw [Nat.sub_self, List.length_eq_zero_iff] at hstack
  rw [closeAll, ← hstack]

/-- What has been grown is what is finished then… -/
theorem finish_eq (g : Growth) : g.finish = g.closeAll.finished := by
  rw [closeAll_eq]
  exact (List.append_nil _).symm

/-- …and so is what is filled. -/
theorem finish_fill_closeAll (source : List Char) (g : Growth) :
    (g.closeAll.fill source).finish = Tree.fillAll source 0 g.closeAll.finished := by
  rw [closeAll_eq]
  simp [finish, fill, fillStack, closeMany, finished]

/-- Nothing is filled before anything is read. -/
theorem fill_start (source : List Char) : Growth.fill source {} = {} := by
  simp [fill, finished, fillStack, Tree.fillAll]

end Growth

/-- **An implied close is an explicit one**: where no mark is left open, the text with the end tags
that its trees lack has these trees, with the end tags and moved by them. -/
theorem Tree.ofText_insertFrom {source : List Char} {trees : List Tree}
    (h : Tree.ofText config false source = .ok trees)
    (hlast : (Tree.leaves trees).getLast?.all (Tree.isEnded source) = true) :
    Tree.ofText config false (Text.insertFrom (Tree.missing source trees) 0 source) =
      .ok (Tree.fillAll source 0 trees) := by
  rw [Tree.ofText, documentLexemes] at h
  simp only [Bool.false_eq_true, if_false] at h
  split at h
  · next ls hls =>
    cases h
    have hstart := Growth.before_start hls
    rw [Tree.ofLexemes, Growth.finish_eq] at hlast ⊢
    have hended := hstart.ended hlast
    obtain ⟨later, hlater, -, hinsert⟩ := Growth.exists_insertFrom_eq hstart
    have hgrown := Growth.foldl_complete hstart
    have hread := Growth.lexemes_complete hstart hended
    rw [(flatMap_text_of_lexemes hls).1] at hinsert
    have hnone : Tree.missing source (Growth.finished {}) = [] := Tree.missing_nil
    rw [hnone, List.nil_append] at hlater
    rw [Growth.fill_start] at hgrown
    rw [hlater, hinsert, Tree.ofText, documentLexemes]
    simp only [Bool.false_eq_true, if_false, hread, Tree.ofLexemes, hgrown,
      Growth.finish_fill_closeAll]
  · cases h

/-- A list and a paragraph with hardly any end tags, a void element, and opaque content at the
end. -/
def impliedPage : List Char := "<ul><li>a<li>b<P>c</ul><p>d<br>é<!-- e --><p><style>f".toList

/-- The same with all of them. -/
def explicitPage : List Char :=
  "<ul><li>a</li><li>b<P>c</P></li></ul><p>d<br>é<!-- e --></p><p><style>f</style></p>".toList

theorem ofText_explicitPage : ∃ trees, Tree.ofText config false impliedPage = .ok trees ∧
    (Tree.leaves trees).getLast?.all (Tree.isEnded impliedPage) = true ∧
      Text.insertFrom (Tree.missing impliedPage trees) 0 impliedPage = explicitPage ∧
        Tree.ofText config false explicitPage = .ok (Tree.fillAll impliedPage 0 trees) := by
  have hall : (Tree.ofText config false impliedPage).toOption.any (fun trees =>
      (Tree.leaves trees).getLast?.all (Tree.isEnded impliedPage) &&
        Text.insertFrom (Tree.missing impliedPage trees) 0 impliedPage == explicitPage) = true := by
    decide +kernel
  cases h : Tree.ofText config false impliedPage with
  | error r =>
    rw [h] at hall
    cases hall
  | ok trees =>
    rw [h] at hall
    obtain ⟨hlast, htext⟩ := Bool.and_eq_true_iff.1 hall
    have hclosed := Tree.ofText_insertFrom h hlast
    rw [beq_iff_eq.1 htext] at hclosed
    exact ⟨trees, rfl, hlast, beq_iff_eq.1 htext, hclosed⟩

end Markup.Html
