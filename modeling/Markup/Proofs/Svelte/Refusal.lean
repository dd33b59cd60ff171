import Markup.Proofs.Blueprint.Refusal
import Markup.Proofs.Svelte.Element

/-!
# Proofs/Svelte/Refusal — a template names no place that is none of its text

A template is refused where a lexeme is missing: at the tag that was begun last, or at what is open.
Each such rejection **points at what stands there or at what has been read before**
(`Lexeme.pointsInto_of_next`), and the same is true of the offsets in its trees (`Tree.every_cut`),
so their blueprints are sound.
-/

namespace Markup.Svelte

variable {source cs : List Char} {offset stop : Nat} {r : Rejection}

/-! ## Lexemes that are missing -/

/-- What a text goes on with is pointed at… -/
theorem pointsInto_append (read : List Char) {rest : List Char}
    (hrest : Text.dropBytes? offset source = some (read ++ rest))
    (hstop : offset + Text.byteSize read = stop) (fault : Fault) :
    (fault.reject offset stop).PointsInto source := by
  subst hstop
  exact Text.isRange_of_dropBytes? hrest

/-- …and so is all that follows… -/
theorem pointsInto_rest (hrest : Text.dropBytes? offset source = some cs) (fault : Fault) :
    (fault.reject offset (offset + Text.byteSize cs)).PointsInto source := by
  rw [← List.append_nil cs] at hrest
  exact pointsInto_append cs hrest rfl fault

/-- …or what the text ends with. -/
theorem pointsInto_suffix {unread : List Char} (hrest : Text.dropBytes? offset source = some cs)
    (hunread : unread <:+ cs) (fault : Fault) :
    (fault.reject (offset + Text.byteSize cs - Text.byteSize unread)
      (offset + Text.byteSize cs)).PointsInto source := by
  obtain ⟨before, rfl⟩ := hunread
  have hpoints := pointsInto_rest (Text.dropBytes?_of_append hrest) fault
  rw [Text.byteSize_append, ← Nat.add_assoc, Nat.add_sub_cancel]
  exact hpoints

/-- The beginning of an end tag, up to where its name ends. -/
theorem pointsInto_name {after : List Char}
    (hrest : Text.dropBytes? offset source = some ('<' :: '/' :: after)) (fault : Fault) :
    (fault.reject offset (offset + 2 + Text.byteSize (leadingName after))).PointsInto source := by
  rw [← leadingName_append_afterName after] at hrest
  refine pointsInto_append ('<' :: '/' :: leadingName after) hrest ?_ fault
  rw [Text.byteSize_cons, Text.byteSize_cons, Nat.add_assoc, ← Nat.add_assoc _ _ (Text.byteSize _)]
  rfl

/-- Where siblings end there is an end tag, a clause or a closing tag. -/
theorem exists_of_boundary (h : opening cs = .boundary) :
    (∃ after, cs = '<' :: '/' :: after) ∨
      ∃ sign after, (sign = ':' ∨ sign = '/') ∧ cs = '{' :: sign :: after := by
  unfold opening at h
  split at h
  · exact Or.inr ⟨':', _, Or.inl rfl, rfl⟩
  · exact Or.inr ⟨'/', _, Or.inr rfl, rfl⟩
  · exact Or.inl ⟨_, rfl⟩
  · exact absurd h (by decide)
  · exact absurd h (by decide)
  · split at h <;> exact absurd h (by decide)
  · exact absurd h (by decide)

/-- …which take two characters of one byte each. -/
theorem pointsInto_sign (hopening : opening cs = .boundary)
    (hrest : Text.dropBytes? offset source = some cs) (fault : Fault) :
    (fault.reject offset (offset + 2)).PointsInto source := by
  obtain ⟨after, rfl⟩ | ⟨sign, after, rfl | rfl, rfl⟩ := exists_of_boundary hopening
  · exact pointsInto_append ['<', '/'] hrest rfl fault
  · exact pointsInto_append ['{', ':'] hrest rfl fault
  · exact pointsInto_append ['{', '/'] hrest rfl fault

theorem pointsInto_unexpected (hopening : opening cs = .boundary)
    (hrest : Text.dropBytes? offset source = some cs) :
    (unexpected offset cs).PointsInto source := by
  rw [unexpected.eq_def]
  split
  · exact pointsInto_name hrest _
  · exact pointsInto_sign hopening hrest _

/-- **An end tag that is missing**: another stands there, or it does not end. -/
theorem pointsInto_of_endTag {name : String} {startTag : Span}
    (h : endTag config name startTag offset cs = .error r) (hopening : opening cs = .boundary)
    (hrest : Text.dropBytes? offset source = some cs) : r.PointsInto source := by
  unfold endTag at h
  split at h
  · exact absurd hopening (by decide)
  · next after =>
    simp only at h
    split at h
    · split at h
      · cases h
      · cases h
        have hblanks := List.takeWhile_append_dropWhile (p := Text.isBlank) (l := afterName after)
        have hname := leadingName_append_afterName after
        rw [← hname, ← hblanks] at hrest
        have hafter : Text.dropBytes? (offset + 2) source = some _ :=
          Text.dropBytes?_of_append (show _ = some (['<', '/'] ++ _) from hrest)
        have hplace := Text.dropBytes?_of_append (Text.dropBytes?_of_append hafter)
        exact pointsInto_append [] hplace rfl Fault.noBracket
    · cases h
      exact pointsInto_name hrest _
  · cases h
    exact pointsInto_unexpected hopening hrest

/-- **A tag in braces that is left open** is pointed at up to the end of the text. -/
theorem pointsInto_of_readBraceTag (h : readBraceTag offset cs = .error r)
    (hrest : Text.dropBytes? offset source = some cs) : r.PointsInto source := by
  rw [readBraceTag] at h
  split at h
  · cases h
  · cases h
    exact pointsInto_rest hrest _

/-- A tag in braces that has been read is pointed at as a whole. -/
theorem pointsInto_braceTag {tag : BraceTag} (htag : readBraceTag offset cs = .ok tag)
    (hrest : Text.dropBytes? offset source = some cs) (fault : Fault) :
    (fault.reject offset (offset + Text.byteSize tag.raw)).PointsInto source := by
  rw [← (append_of_braceTag? (readBraceTag_eq_ok htag)).1] at hrest
  exact pointsInto_append tag.raw hrest rfl fault

/-- **A clause or closing tag that is missing.** -/
theorem pointsInto_of_blockTag {kind : Block} {start : Nat} {clauses : List String}
    (h : blockTag kind start clauses offset cs = .error r) (hopening : opening cs = .boundary)
    (hrest : Text.dropBytes? offset source = some cs) : r.PointsInto source := by
  simp only [blockTag] at h
  split at h
  · exact absurd hopening (by decide)
  · split at h
    · rcases Except.bind_eq_error.1 h with hopen | ⟨tag, htag, h⟩
      · exact pointsInto_of_readBraceTag hopen hrest
      · split at h
        · cases h
        · cases h
          exact pointsInto_braceTag htag hrest _
    · cases h
      exact pointsInto_sign hopening hrest _
  · rcases Except.bind_eq_error.1 h with hopen | ⟨tag, htag, h⟩
    · exact pointsInto_of_readBraceTag hopen hrest
    · split at h
      · cases h
      · cases h
        exact pointsInto_braceTag htag hrest _
  · cases h
    exact pointsInto_sign hopening hrest _

theorem pointsInto_of_mustache (h : mustache offset cs = .error r)
    (hrest : Text.dropBytes? offset source = some cs) : r.PointsInto source := by
  rcases Except.bind_eq_error.1 h with hopen | ⟨tag, htag, h⟩
  · exact pointsInto_of_readBraceTag hopen hrest
  · simp only at h
    split at h
    · split at h
      · cases h
      · cases h
        exact pointsInto_braceTag htag hrest _
    · split at h
      · cases h
      · cases h
        exact pointsInto_braceTag htag hrest _
    · cases h

/-- A comment begins with its four characters… -/
theorem exists_of_comment (h : opening cs = .comment) :
    ∃ after, cs = '<' :: '!' :: '-' :: '-' :: after := by
  unfold opening at h
  split at h
  all_goals try exact absurd h (by decide)
  · exact ⟨_, rfl⟩
  · split at h <;> exact absurd h (by decide)

/-- …and is pointed at by them. -/
theorem pointsInto_of_comment (h : comment offset cs = .error r) (hopening : opening cs = .comment)
    (hrest : Text.dropBytes? offset source = some cs) : r.PointsInto source := by
  rw [comment] at h
  split at h
  · cases h
    obtain ⟨after, rfl⟩ := exists_of_comment hopening
    exact pointsInto_append ['<', '!', '-', '-'] hrest rfl _
  · cases h

/-- What is left open in a start tag is what the text ends with. -/
theorem suffix_of_tagTail {unclosed : Unclosed} {unread : List Char}
    (h : tagTail cs = .error (unclosed, unread)) : unread <:+ cs := by
  fun_induction tagTail cs with
  | case1 | case4 | case7 =>
    cases h
    exact List.suffix_rfl
  | case2 | case3 => cases h
  | case5 c cs _ _ _ quote rest hd _ ih =>
    have hrest : quote :: rest <:+ cs := hd ▸ List.dropWhile_suffix _
    exact ((ih (Except.map_eq_error.1 h)).trans (List.suffix_cons _ _)).trans
      (hrest.trans (List.suffix_cons _ _))
  | case6 cs inner close rest hs _ _ _ _ ih =>
    have hrest : close :: rest <:+ cs := ⟨inner, (Expression.append_of_split? hs).1⟩
    exact ((ih (Except.map_eq_error.1 h)).trans (List.suffix_cons _ _)).trans
      (hrest.trans (List.suffix_cons _ _))
  | case8 c cs _ _ _ _ ih => exact (ih (Except.map_eq_error.1 h)).trans (List.suffix_cons _ _)

/-- Opaque content ends where an end tag begins. -/
theorem exists_of_rawTextEnd? {name closing : String} (h : config.rawTextEnd? name = some closing) :
    ∃ word, closing.toList = '<' :: '/' :: word := by
  obtain ⟨tag, hfind, rfl⟩ := Option.map_eq_some_iff.1 h
  have hmem : tag = .element "script" ∨ tag = .element "style" := by
    simpa [config] using List.mem_of_find?_eq_some hfind
  rcases hmem with rfl | rfl <;> exact ⟨_, rfl⟩

/-- **Opaque content that does not end**, behind a start tag that does. -/
theorem pointsInto_of_rawContent {name closing : String} {startTag : List Char}
    (h : rawContent config name closing ⟨offset, offset + Text.byteSize startTag⟩ cs = .error r)
    (hclosing : config.rawTextEnd? name = some closing)
    (hrest : Text.dropBytes? offset source = some (startTag ++ cs)) : r.PointsInto source := by
  rw [rawContent] at h
  split at h
  · cases h
    exact pointsInto_append startTag hrest rfl _
  · next content rest hcut =>
    obtain ⟨word, hword⟩ := exists_of_rawTextEnd? hclosing
    have hbegins := List.isPrefixOf_iff_prefix.1 (Text.find_of_cutWhere hcut)
    rw [hword] at hbegins
    obtain ⟨others, hothers⟩ := hbegins
    have hopening : opening rest = .boundary := by
      rw [← hothers]
      rfl
    obtain hend | ⟨_, -, h⟩ := Except.bind_eq_error.1 h
    · rw [← Text.append_of_cut hcut] at hrest
      exact pointsInto_of_endTag hend hopening
        (Text.dropBytes?_of_append (Text.dropBytes?_of_append hrest))
    · cases h

/-- **A start tag that does not end**, or whose element does not. -/
theorem pointsInto_of_startTag (h : startTag config offset cs = .error r)
    (hrest : Text.dropBytes? offset source = some cs) : r.PointsInto source := by
  have hname : cs.take 1 ++ leadingName (cs.drop 1) ++ afterName (cs.drop 1) = cs := by
    rw [List.append_assoc, leadingName_append_afterName, List.take_append_drop]
  simp only [startTag] at h
  split at h
  · cases h
    exact pointsInto_rest hrest _
  · next htail =>
    cases h
    exact pointsInto_suffix hrest ((suffix_of_tagTail htail).trans ⟨_, hname⟩) _
  · next htail =>
    cases h
    exact pointsInto_suffix hrest ((suffix_of_tagTail htail).trans ⟨_, hname⟩) _
  · next tail htail =>
    rw [← (append_of_tagTail htail).1, ← List.append_assoc] at hname
    split at h
    · cases h
    · split at h
      · cases h
      · next closing hclosing =>
        obtain hcontent | ⟨_, -, h⟩ := Except.bind_eq_error.1 h
        · exact pointsInto_of_rawContent hcontent hclosing
            (hrest.trans (congrArg some hname.symm))
        · cases h

/-- **A lexeme that is missing is pointed at.** -/
theorem Lexeme.pointsInto_of_next {context : Context} (h : next config context offset cs = .error r)
    (hrest : Text.dropBytes? offset source = some cs) : r.PointsInto source := by
  rw [next] at h
  split at h
  · next hopening =>
    cases context with
    | top =>
      cases h
      exact pointsInto_unexpected hopening hrest
    | element name startTag =>
      obtain hend | ⟨_, -, h⟩ := Except.bind_eq_error.1 h
      · exact pointsInto_of_endTag hend hopening hrest
      · cases h
    | block kind start clauses => exact pointsInto_of_blockTag h hopening hrest
  · next hopening =>
    obtain hcomment | ⟨_, -, h⟩ := Except.bind_eq_error.1 h
    · exact pointsInto_of_comment hcomment hopening hrest
    · cases h
  · exact pointsInto_of_startTag h hrest
  · exact pointsInto_of_mustache h hrest
  · cases h

/-! ## Templates that are refused -/

/-- A tag in braces begins with a brace of one byte. -/
theorem TagAt.pointsInto {span : Span} {inner : List Char} (h : TagAt source span inner)
    (fault : Fault) : (fault.reject span.start (span.start + 1)).PointsInto source := by
  obtain ⟨raw, hslice, htag⟩ := h
  obtain ⟨tail, rfl⟩ := htag.exists_cons
  have hbrace : Text.slice? span.start span.stop source = some (['{'] ++ tail) := hslice
  exact ⟨['{'], (Text.slice?_of_append hbrace).1⟩

/-- **What is left open** is pointed at where it began. -/
theorem Opener.Begins.pointsInto {opener : Opener} {start : Nat} (h : opener.Begins source start) :
    opener.leftOpen.PointsInto source := by
  cases h with
  | element _ written =>
    obtain ⟨raw, hslice, -⟩ := written
    exact ⟨raw, hslice⟩
  | block _ opens =>
    obtain ⟨_, htag, -⟩ := opens
    exact htag.pointsInto _
  | clause opens =>
    obtain ⟨_, htag, -⟩ := opens
    exact htag.pointsInto _

namespace Growth

variable {g : Growth}

theorem Covers.pointsInto_finish (h : g.Covers source stop) (hfinish : g.finish = .error r) :
    r.PointsInto source := by
  obtain ⟨_, roots, stack⟩ := g
  cases h with
  | nil => cases hfinish
  | cons before level =>
    cases hfinish
    exact level.before.pointsInto

end Growth

/-- **A rejection of a template points at a range of it.** -/
theorem pointsInto_of_ofText (h : Tree.ofText config cs = .error r) : r.PointsInto cs := by
  have hstart : Growth.Covers cs {} 0 := Stacked.nil (Forest.nil 0)
  have hall : Text.dropBytes? 0 cs = some cs := Text.dropBytes?_eq_some_iff.2 ⟨[], rfl, rfl⟩
  obtain ⟨last, unread, hcovers, hrest, ⟨-, hfinish⟩ | ⟨_, hnext, hrefused⟩⟩ :=
    Growth.exists_of_run (fun g => g.Covers cs g.offset)
      (fun _ _ _ _ => Growth.covers_of_next) hstart hall
  · exact hcovers.pointsInto_finish (hfinish.symm.trans h)
  · cases hrefused.symm.trans h
    exact Lexeme.pointsInto_of_next hnext hrest

/-! ## Trees -/

/-- The offsets that a tree names, but for those of tags that are known to be written there. -/
def Tree.cuts : Tree → List Nat
  | .text span | .comment span | .mustache span | .strayClause span => [span.start, span.stop]
  | .element _ span _ endTag _ => span.stop :: endTag.toList.map Span.start
  | .special .. | .block .. => []

/-- **All offsets that a tree names are boundaries.** -/
def Tree.Cut (source : List Char) (t : Tree) : Prop :=
  ∀ n ∈ t.cuts, Text.isBoundary n source = true

/-- **Whatever a lexeme adds is cut where the lexeme begins or ends**, or one of its parts. -/
theorem Lexeme.adds_cut {context : Context} {lexeme : Lexeme} {rest : List Char}
    (h : Text.dropBytes? offset source = some (lexeme.raw ++ rest)) :
    lexeme.Adds (Tree.Cut source) context offset := by
  have hstart : Text.isBoundary offset source = true :=
    (Text.isRange_of_dropBytes? h).isBoundary.1
  have hends : Text.isBoundary (offset + Text.byteSize lexeme.raw) source = true :=
    (Text.isRange_of_dropBytes? h).isBoundary.2
  cases lexeme with
  | text raw | comment raw | mustache raw | closedTag name raw =>
    have hstop : Text.isBoundary (offset + Text.byteSize raw) source = true := hends
    simp [Adds, Tree.Cut, Tree.cuts, hstart, hstop]
  | special | openTag | openBlock | clause => simp [Adds, Tree.Cut, Tree.cuts]
  | closer raw =>
    have hstop : Text.isBoundary (offset + Text.byteSize raw) source = true := hends
    rintro name startTag children -
    simp [Tree.Cut, Tree.cuts, hstart, hstop]
  | rawElement name startTag content endTag =>
    rw [raw, List.append_assoc, List.append_assoc] at h
    have hcontent := Text.dropBytes?_of_append h
    have hheader := (Text.isRange_of_dropBytes? h).isBoundary.2
    have htext := (Text.isRange_of_dropBytes? hcontent).isBoundary.2
    have hstop := (Text.isRange_of_dropBytes? (Text.dropBytes?_of_append hcontent)).isBoundary.2
    refine Growth.every_rawElement ?_ (by simp [Tree.Cut, Tree.cuts, hheader, htext])
    simp [Growth.rawElement, Tree.Cut, Tree.cuts, htext, hstop]

/-- **All offsets in the trees of a template are boundaries.** -/
theorem Tree.every_cut {trees : List Tree} (h : Tree.ofText config source = .ok trees) :
    ∀ t ∈ trees, t.Every (Tree.Cut source) :=
  Tree.every_of_ofText (fun _ _ _ => by simp [Tree.Cut, Tree.cuts])
    (fun _ _ _ _ _ hnext hrest => Lexeme.adds_cut ((Lexeme.append_of_next hnext).1 ▸ hrest)) h

/-! ## Blueprints -/

/-- A start tag begins with a bracket. -/
theorem IsStartTag.exists_cons {raw : List Char} {name : String} {selfClosing : Bool}
    (h : IsStartTag raw name selfClosing) : ∃ inner, raw = '<' :: inner := by
  obtain ⟨-⟩ := h
  exact ⟨_, rfl⟩

/-- A tag that is written somewhere is a range of the text. -/
theorem TagAt.isRange {span : Span} {inner : List Char} (h : TagAt source span inner) :
    Text.IsRange source span.start span.stop := by
  obtain ⟨raw, hslice, -⟩ := h
  exact ⟨raw, hslice⟩

/-- **The headers of clauses that are written** are tags of the text. -/
theorem Block.Written.tagAt {kind : Block} {clauses : List (String × Section Tree)}
    (h : kind.Written source clauses) :
    ∀ c ∈ clauses, ∃ inner, TagAt source ⟨c.2.span.start, c.2.headerEnd⟩ inner := by
  induction h with
  | nil => simp
  | cons _ continues ih =>
    obtain ⟨header, htag, -⟩ := continues
    exact List.forall_mem_cons.2 ⟨⟨_, htag⟩, ih⟩

/-- **A block is a range of the text**: it begins with a tag and ends with one. -/
theorem Block.isRange_whole {kind : Block} {head : Section Tree}
    {clauses : List (String × Section Tree)} {content : Nat}
    (opens : kind.OpensAt source ⟨head.span.start, head.headerEnd⟩)
    (row : Consecutive head.span.start content (head :: clauses.map Prod.snd))
    (closes : content < head.span.stop) (closer : kind.ClosesAt source ⟨content, head.span.stop⟩) :
    Text.IsRange source head.span.start head.span.stop := by
  obtain ⟨_, hopens, -⟩ := opens
  obtain ⟨_, hcloses, -⟩ := closer
  exact Text.isRange_of_isBoundary hopens.isRange.isBoundary.1 hcloses.isRange.isBoundary.2
    (Nat.le_trans row.le (Nat.le_of_lt closes))

/-- **The blueprint of a block is sound** if those of the trees in its sections are. -/
theorem sound_block {source : Source} {kind : Block} {head : Section Tree}
    {clauses : List (String × Section Tree)} {content : Nat}
    (opens : kind.OpensAt source.text ⟨head.span.start, head.headerEnd⟩)
    (row : Consecutive head.span.start content (head :: clauses.map Prod.snd))
    (inside : ∀ s ∈ head :: clauses.map Prod.snd, ∀ t ∈ s.children,
      (t.blueprint source).Sound dialect source)
    (written : kind.Written source.text clauses.reverse) (closes : content < head.span.stop)
    (closer : kind.ClosesAt source.text ⟨content, head.span.stop⟩) :
    (Tree.blueprint source (.block kind head clauses)).Sound dialect source := by
  have hwhole := Block.isRange_whole opens row closes closer
  obtain ⟨_, hopens, -⟩ := opens
  obtain ⟨_, hcloses, -⟩ := id closer
  rcases blueprint_block row written closes closer with ⟨-, heq⟩ | ⟨e, hlocated, heq⟩
  · rw [heq, plannedVisits_eq_map, List.map_map]
    refine .group (by rintro _ ⟨⟩; exact hwhole) (List.forall_mem_append.2
      ⟨List.forall_mem_map.2 fun visit hvisit => ?_,
        List.forall_mem_singleton.2 (.block hcloses.isRange (by simp))⟩)
    rw [Function.comp_apply, ofSection_planned, blueprints_eq_map]
    refine .block ?_ (List.forall_mem_map.2 fun t ht =>
      inside visit.2 (List.mem_map_of_mem (f := Prod.snd) hvisit) t ht)
    rcases List.mem_cons.1 hvisit with rfl | hclause
    · exact hopens.isRange
    · obtain ⟨inner, htag⟩ := written.tagAt visit (List.mem_reverse.2 hclause)
      exact htag.isRange
  · rw [heq]
    exact .single hwhole (.fault (hlocated hwhole))

/-- **The blueprint of a tree is sound** if its offsets are boundaries. -/
theorem Tree.WellFormed.sound {source : Source} {t : Tree} (h : t.WellFormed source.text)
    (hcut : t.Every (Tree.Cut source.text)) (hlt : t.span.start < t.span.stop) :
    (t.blueprint source).Sound dialect source := by
  induction h with
  | text | comment =>
    obtain ⟨here, -⟩ := hcut
    simp only [Tree.Cut, Tree.cuts, List.forall_mem_cons] at here
    rw [Tree.blueprint]
    exact .leaf (Text.isRange_of_isBoundary here.1 here.2.1 (Nat.le_of_lt hlt))
  | mustache =>
    obtain ⟨here, -⟩ := hcut
    simp only [Tree.Cut, Tree.cuts, List.forall_mem_cons] at here
    rw [Tree.blueprint]
    exact .block (Text.isRange_of_isBoundary here.1 here.2.1 (Nat.le_of_lt hlt)) (by simp)
  | @special tag span written =>
    obtain ⟨header, htag, -⟩ := written
    rcases blueprint_special htag.lt with heq | ⟨e, hlocated, heq⟩
    · rw [heq]
      exact .single htag.isRange (.block htag.isRange (by simp))
    · rw [heq]
      exact .single htag.isRange (.fault (hlocated htag.isRange))
  | @element name span startTagEnd content endTag selfClosing children startTag written closed empty
      row inside closes ih =>
    obtain ⟨here, hinside⟩ := hcut
    obtain ⟨raw, hslice, htag⟩ := written
    have hstart : Text.IsRange source.text span.start startTagEnd := ⟨raw, hslice⟩
    simp only [Tree.Cut, Tree.cuts, List.forall_mem_cons] at here
    have hwhole := Text.isRange_of_isBoundary hstart.isBoundary.1 here.1 (Nat.le_of_lt hlt)
    rw [Tree.blueprint, blueprints_eq_map]
    obtain ⟨inner, rfl⟩ := htag.exists_cons
    refine .single hwhole (.of_startTag covers_readAttribute hslice ?_ ?_)
    · exact List.forall_mem_map.2 fun t ht =>
        ih t ht (hinside _ (List.mem_singleton_self _) t ht) (row.lt_of_mem ht)
    · rintro tag rfl
      obtain ⟨rfl, hle⟩ := closes
      have hcontent : Text.isBoundary content source.text = true := by simpa using here.2
      exact Text.isRange_of_isBoundary hcontent here.1 (Nat.le_of_lt hle)
  | block opens row inside written closes closer ih =>
    exact sound_block opens row (fun s hs t ht => ih s hs t ht (hcut.of_block s hs t ht)
      (row.lt_of_mem hs ht)) written closes closer

/-- **What is read of a template is sound**… -/
theorem sound_of_read {source : Source} (options : Options) {reading : Reading}
    (h : read source options = .ok reading) :
    ∀ b ∈ reading.roots, b.Sound dialect source := by
  obtain ⟨trees, htrees, hreading⟩ := Except.bind_eq_ok.1 h
  have hforest := Tree.forest_of_ofText htrees
  have hcut := Tree.every_cut htrees
  cases hreading
  rw [blueprints_eq_map]
  exact List.forall_mem_map.2 fun t ht =>
    (hforest.all t ht).sound (hcut t ht) (hforest.tiled.lt_of_mem ht)

/-- …and a template that is not read is refused at a range of it. -/
theorem pointsInto_of_read {source : Source} (options : Options)
    (h : read source options = .error r) : r.PointsInto source.text := by
  obtain htrees | ⟨trees, -, hreading⟩ := Except.bind_eq_error.1 h
  · exact pointsInto_of_ofText htrees
  · cases hreading

end Markup.Svelte
