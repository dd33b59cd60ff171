import Markup.Proofs.Growing
import Markup.Proofs.Svelte.Phases
import Markup.Proofs.Svelte.Rendering
import Markup.Proofs.Svelte.Template

/-!
# Proofs/Svelte/Recovery — a template that is written out grows its own trees

Where it is read, a template is its trees, **whatever is open around it and whatever follows**
(`Template.run_render`), and the clauses of a block are its sections (`Clauses.run_render`).  So a
well-formed template whose headers are read as they are written comes back
(`Template.ofText_render`), and these are the headers that name their phase where no hidden word
gets in the way (`Template.ofText_eq_trees`).
-/

namespace Markup.Svelte

open Expression (WellNested)
open Html (IsTagName writeComment)

/-! ## Lexeme by lexeme -/

namespace Growth

variable {g : Growth} {rest cs : List Char} {lexeme : Lexeme}

/-- **Reading goes on behind the first lexeme.** -/
theorem run_of_next {config : Config}
    (h : Lexeme.next config g.context g.offset cs = .ok (lexeme, rest)) (hcs : cs ≠ []) :
    run config g cs = run config (g.step lexeme) rest := by
  obtain ⟨c, cs, rfl⟩ := List.exists_cons_of_ne_nil hcs
  rw [run]
  split
  · next herror => simp [h] at herror
  · next hok =>
    obtain ⟨rfl, rfl⟩ := Prod.mk.inj (Except.ok.inj (h.symm.trans hok))
    rfl

end Growth

/-! ## Levels of blocks -/

namespace Level

variable {l : Level} {kind : Block} {start : Nat} {names : List String}

/-- **A clause ends the section before it** and begins its own. -/
theorem exists_beginClause (h : l.opener.context = .block kind start names) (name : String)
    (header : Span) :
    ∃ opener, l.beginClause name header = ⟨opener, []⟩ ∧
      opener.context = .block kind start (name :: names) ∧ ∀ children stop,
        headSection ⟨opener, children⟩ stop = l.headSection header.start ∧
        clauses ⟨opener, children⟩ stop = l.clauses header.start ++
          [(name, ⟨⟨header.start, stop⟩, header.stop, children.reverse⟩)] := by
  obtain ⟨opener, children⟩ := l
  cases opener with
  | element => exact absurd h nofun
  | block =>
    obtain ⟨rfl, rfl, rfl⟩ := Context.block.inj h
    exact ⟨_, rfl, rfl, fun _ _ => ⟨rfl, rfl⟩⟩
  | clause =>
    obtain ⟨rfl, rfl, rfl⟩ := Context.block.inj h
    exact ⟨_, rfl, rfl, fun _ _ => ⟨rfl, by simp [clauses, toSection, Opener.header]⟩⟩

/-- The block that a level becomes if these clauses follow at an offset, then its closing tag. -/
def closed (l : Level) (kind : Block) (offset : Nat) (clauses : Clauses) : Tree :=
  let closing := offset + Text.byteSize clauses.render
  .block kind (extend (closing + Text.byteSize (writeCloser kind)) (l.headSection offset))
    ((l.clauses offset).map (reach closing) ++ clauses.sections closing offset)

theorem closed_done (h : l.opener.context = .block kind start names) (offset : Nat) :
    l.closed kind offset .done = l.close ⟨offset, offset + Text.byteSize (writeCloser kind)⟩ := by
  rw [close_eq h, closed, Clauses.sections, List.append_nil]
  rfl

/-- A block without clauses so far has those that follow. -/
theorem closed_block (kind : Block) (start inside offset : Nat) (trees : List Tree)
    (clauses : Clauses) :
    let closing := offset + Text.byteSize clauses.render
    closed ⟨.block kind ⟨start, inside⟩, trees.reverse⟩ kind offset clauses =
      .block kind ⟨⟨start, closing + Text.byteSize (writeCloser kind)⟩, inside, trees⟩
        (clauses.sections closing offset) := by
  intro closing
  rw [closed, headSection, toSection, List.reverse_reverse]
  rfl

/-- A clause that follows is one of those so far, once it has been read. -/
theorem exists_closed_clause (h : l.opener.context = .block kind start names)
    (tag : Continuation) (body : Template) (more : Clauses) (offset : Nat) :
    let inside := offset + Text.byteSize tag.write
    ∃ opener, l.beginClause tag.name ⟨offset, inside⟩ = ⟨opener, []⟩ ∧
      opener.context = .block kind start (tag.name :: names) ∧
      closed ⟨opener, (body.trees inside).reverse⟩ kind (inside + Text.byteSize body.render) more =
        l.closed kind offset (.clause tag body more) := by
  intro inside
  obtain ⟨opener, hbegin, hcontext, hsections⟩ := exists_beginClause h tag.name ⟨offset, inside⟩
  refine ⟨opener, hbegin, hcontext, ?_⟩
  obtain ⟨hhead, hclauses⟩ := hsections (body.trees inside).reverse
    (inside + Text.byteSize body.render)
  have hreach : ∀ closing stop,
      reach closing (tag.name, ⟨⟨offset, stop⟩, inside, body.trees inside⟩) =
        (tag.name, ⟨⟨offset, if tag.name = "elseif" then closing else stop⟩, inside,
          body.trees inside⟩) := by
    intro closing stop
    rw [reach]
    split
    · rfl
    · rfl
  rw [closed, closed, hhead, hclauses, Clauses.sections, List.map_append, List.append_assoc,
    List.map_singleton, List.reverse_reverse, hreach, Clauses.render, Text.byteSize_append,
    Text.byteSize_append, ← Nat.add_assoc, ← Nat.add_assoc]
  rfl

end Level

/-! ## Constructs around what is read -/

namespace Growth

variable {g : Growth} {name content rest : List Char} {as : List Written} {trees : List Tree}

/-- **A finished tree and what stands beside it.** -/
theorem run_tree {cs more : List Char} {tree : Tree} {mid size : Nat}
    (hfirst : g.run config cs = run config (g.addUpTo tree mid) more)
    (hbeside : ∀ g' : Growth, g'.offset = mid →
      g'.run config more = run config (g'.addAll trees (mid + size)) rest) :
    g.run config cs = run config (g.addAll (tree :: trees) (mid + size)) rest := by
  rw [hfirst, hbeside _ rfl, Growing.addAll_addUpTo]

/-- **What is inside something open is added to it.** -/
theorem run_inside (opener : Opener) {offset : Nat}
    (hcontent : ∀ g' : Growth, g'.offset = offset → g'.run config (content ++ rest) =
      run config (g'.addAll trees (offset + Text.byteSize content)) rest) :
    run config { g with offset, stack := ⟨opener, []⟩ :: g.stack } (content ++ rest) =
      run config { g with
        offset := offset + Text.byteSize content
        stack := ⟨opener, trees.reverse⟩ :: g.stack } rest := by
  have hadded : Growing.addAll { g with offset, stack := ⟨opener, []⟩ :: g.stack } trees
      (offset + Text.byteSize content) = { g with
        offset := offset + Text.byteSize content
        stack := ⟨opener, trees.reverse ++ []⟩ :: g.stack } := rfl
  rw [hcontent _ rfl, hadded, List.append_nil]

/-- **What is open innermost is closed by its tag** and added to what is around it. -/
theorem run_closer {l : Level} {offset : Nat} {raw : List Char}
    (h : Lexeme.next config l.opener.context offset (raw ++ rest) = .ok (.closer raw, rest))
    (hraw : raw ≠ []) :
    run config { g with offset, stack := l :: g.stack } (raw ++ rest) =
      run config (g.addUpTo (l.close ⟨offset, offset + Text.byteSize raw⟩)
        (offset + Text.byteSize raw)) rest := by
  have hnext := @run_of_next { g with offset, stack := l :: g.stack } rest (raw ++ rest)
    (.closer raw) _ h (List.append_ne_nil_of_left_ne_nil hraw rest)
  have hstep : step { g with offset, stack := l :: g.stack } (.closer raw) =
      g.addUpTo (l.close ⟨offset, offset + Text.byteSize raw⟩) (offset + Text.byteSize raw) := by
    obtain ⟨-, roots, stack⟩ := g
    cases stack <;> rfl
  rw [hnext, hstep]

/-- **An element is closed by its end tag**, if what is inside it grows nothing but its trees. -/
theorem run_element (hname : IsTagName name) (hopen : isVoidName (String.ofList name) = false)
    (hmarkup : config.rawTextEnd? (String.ofList name) = none) (has : ∀ a ∈ as, IsWritten a)
    (rest : List Char) {offset inside : Nat}
    (hoffset : g.offset = offset)
    (hinside : inside = offset + Text.byteSize (writeStartTag name as))
    (hcontent : ∀ g' : Growth, g'.offset = inside →
      g'.run config (content ++ (Html.endTag name ++ rest)) =
        run config (g'.addAll trees (inside + Text.byteSize content))
          (Html.endTag name ++ rest)) :
    let close := inside + Text.byteSize content
    let stop := close + Text.byteSize (Html.endTag name)
    g.run config (writeStartTag name as ++ (content ++ (Html.endTag name ++ rest))) =
      run config (g.addUpTo (.element (String.ofList name) ⟨offset, stop⟩ inside
        (some ⟨close, stop⟩) trees) stop) rest := by
  intro close stop
  subst hinside hoffset
  let opener : Opener := .element (String.ofList name)
    ⟨g.offset, g.offset + Text.byteSize (writeStartTag name as)⟩
  have hopens := run_of_next (g := g)
    (Lexeme.next_startTag hname hopen hmarkup has (content ++ (Html.endTag name ++ rest)))
    (List.cons_ne_nil _ _)
  have hclose : Level.close ⟨opener, trees.reverse⟩ ⟨close, stop⟩ = .element (String.ofList name)
      ⟨g.offset, stop⟩ (g.offset + Text.byteSize (writeStartTag name as)) (some ⟨close, stop⟩)
        trees := by
    rw [Level.close, List.reverse_reverse]
  rw [hopens, ← hclose]
  refine (run_inside (g := g) opener hcontent).trans ?_
  exact run_closer (Lexeme.next_endTag hname rest) (List.cons_ne_nil _ _)

end Growth

/-! ## Whole templates -/

section

variable {rest : List Char}

theorem EndsText.of_boundary {cs : List Char} (h : opening cs = .boundary) : EndsText cs :=
  Or.inr (by rw [h]; decide)

/-- A template that does not begin with a text ends one. -/
theorem Template.endsText_render {t : Template} {p : Head → Prop} (h : t.WellFormed p)
    (htext : ¬t.BeginsWithText) (hrest : EndsText rest) : EndsText (t.render ++ rest) := by
  have hbrace : ∀ cs, opening ('{' :: cs) ≠ .text := fun cs => by
    rw [opening.eq_def]
    split <;> simp_all
  cases t with
  | blank => exact hrest
  | text => exact absurd trivial htext
  | comment body others => exact Or.inr (by simp [Template.render, writeComment, opening])
  | mustache code others => exact Or.inr (hbrace _)
  | special tag code others => exact Or.inr (hbrace _)
  | element name attributes children others =>
    obtain ⟨c, word, rfl, hletter⟩ := h.1.1.exists_cons
    have hopening : opening ((element (c :: word) attributes children others).render ++ rest) =
        .startTag := opening_letter hletter
    exact Or.inr (by rw [hopening]; decide)
  | block head body clauses others => exact Or.inr (hbrace _)

/-- What goes on or closes a block ends a text. -/
theorem Clauses.endsText_render (clauses : Clauses) (kind : Block) :
    EndsText (clauses.render ++ (writeCloser kind ++ rest)) := by
  refine .of_boundary ?_
  cases clauses with
  | done => rfl
  | clause tag body more =>
    obtain ⟨cs, hwrite⟩ := tag.exists_write
    rw [Clauses.render, hwrite]
    rfl

end

mutual

/-- **A template grows its own trees** wherever it is read… -/
theorem Template.run_render : ∀ (t : Template) (g : Growth) (offset : Nat) (rest : List Char),
    g.offset = offset → t.WellFormed Head.ReadAsWritten → EndsText rest →
      g.run config (t.render ++ rest) =
        Growth.run config (g.addAll (t.trees offset) (offset + Text.byteSize t.render)) rest
  | .blank, g, offset, rest, hoffset, _, _ => by
    subst hoffset
    rw [Template.render, Template.trees, List.nil_append, Text.byteSize_nil, Nat.add_zero,
      Growing.addAll_nil]
  | .text raw others, g, offset, rest, hoffset, ⟨hne, hraw, htext, hothers⟩, hrest => by
    subst hoffset
    have hfirst := Growth.run_of_next (g := g)
      (Lexeme.next_text hne hraw (Template.endsText_render hothers htext hrest)) (by simp [hne])
    rw [Template.render, List.append_assoc, Text.byteSize_append, ← Nat.add_assoc]
    exact Growth.run_tree hfirst fun g' hoffset =>
      Template.run_render others g' _ rest hoffset hothers hrest
  | .comment body others, g, offset, rest, hoffset, ⟨hbody, hothers⟩, hrest => by
    subst hoffset
    have hfirst := Growth.run_of_next (g := g)
      (Lexeme.next_comment hbody (others.render ++ rest)) (List.cons_ne_nil _ _)
    rw [Template.render, List.append_assoc, Text.byteSize_append, ← Nat.add_assoc]
    exact Growth.run_tree hfirst fun g' hoffset =>
      Template.run_render others g' _ rest hoffset hothers hrest
  | .mustache code others, g, offset, rest, hoffset, ⟨hcode, hothers⟩, hrest => by
    subst hoffset
    have hfirst := Growth.run_of_next (g := g)
      (Lexeme.next_mustache hcode (others.render ++ rest)) (List.cons_ne_nil _ _)
    rw [Template.render, List.append_assoc, Text.byteSize_append, ← Nat.add_assoc]
    exact Growth.run_tree hfirst fun g' hoffset =>
      Template.run_render others g' _ rest hoffset hothers hrest
  | .special tag code others, g, offset, rest, hoffset, ⟨hcode, hothers⟩, hrest => by
    subst hoffset
    have hfirst := Growth.run_of_next (g := g)
      (Lexeme.next_special tag hcode (others.render ++ rest)) (List.cons_ne_nil _ _)
    rw [Template.render, List.append_assoc, Text.byteSize_append, ← Nat.add_assoc]
    exact Growth.run_tree hfirst fun g' hoffset =>
      Template.run_render others g' _ rest hoffset hothers hrest
  | .element name attributes children others, g, offset, rest, hoffset,
      ⟨⟨hname, holds⟩, has, hchildren, hothers⟩, hrest => by
    have hinside := Growth.run_element (g := g) hname (isVoidName_of_holdsMarkup holds)
      (rawTextEnd?_eq_none holds.not_opaque) has (others.render ++ rest) hoffset rfl
      fun g' hoffset' =>
        Template.run_render children g' _ (Html.endTag name ++ (others.render ++ rest)) hoffset'
          hchildren (.of_boundary rfl)
    simp only [Template.render, List.append_assoc, Text.byteSize_append, ← Nat.add_assoc]
    exact Growth.run_tree hinside fun g' hoffset =>
      Template.run_render others g' _ rest hoffset hothers hrest
  | .block head body clauses others, g, offset, rest, hoffset,
      ⟨⟨hhead, hphase⟩, hbody, hclauses, hothers⟩, hrest => by
    subst hoffset
    let inside := g.offset + Text.byteSize head.write
    let opener : Opener := .block head.kind ⟨g.offset, inside⟩
    let more := writeCloser head.kind ++ (others.render ++ rest)
    have hopen := Growth.run_of_next (g := g)
      (Lexeme.next_head hhead hphase (body.render ++ (clauses.render ++ more)))
      (List.cons_ne_nil _ _)
    have hinside := Growth.run_inside (g := g) opener fun g' hoffset =>
      Template.run_render body g' inside (clauses.render ++ more) hoffset hbody
        (clauses.endsText_render head.kind)
    have hblock := Clauses.run_render clauses g ⟨opener, (body.trees inside).reverse⟩
      (inside + Text.byteSize body.render) (others.render ++ rest) hclauses rfl
    rw [Level.closed_block] at hblock
    simp only [Template.render, List.append_assoc, Text.byteSize_append, ← Nat.add_assoc]
    exact Growth.run_tree (hopen.trans (hinside.trans hblock)) fun g' hoffset =>
      Template.run_render others g' _ rest hoffset hothers hrest

/-- …and **the clauses of a block become its sections**, up to its closing tag. -/
theorem Clauses.run_render : ∀ (clauses : Clauses) (g : Growth) (l : Level) (offset : Nat)
    (rest : List Char) {kind : Block} {start : Nat} {names : List String},
    clauses.WellFormed Head.ReadAsWritten kind names → l.opener.context = .block kind start names →
      Growth.run config { g with offset, stack := l :: g.stack }
          (clauses.render ++ (writeCloser kind ++ rest)) =
        Growth.run config (g.addUpTo (l.closed kind offset clauses) (offset +
          Text.byteSize clauses.render + Text.byteSize (writeCloser kind))) rest
  | .done, g, l, offset, rest, kind, start, names, _, hopen => by
    have hnext : Lexeme.next config l.opener.context offset (writeCloser kind ++ rest) =
        .ok (.closer (writeCloser kind), rest) := hopen ▸ Lexeme.next_closer rest
    rw [Level.closed_done hopen]
    exact Growth.run_closer hnext (List.cons_ne_nil _ _)
  | .clause tag body more, g, l, offset, rest, kind, start, names, ⟨⟨htag, hgoes⟩, hbody, hmore⟩,
      hopen => by
    let inside := offset + Text.byteSize tag.write
    let after := more.render ++ (writeCloser kind ++ rest)
    obtain ⟨opener, hbegin, hcontext, hclosed⟩ :=
      Level.exists_closed_clause hopen tag body more offset
    have hnext : Lexeme.next config l.opener.context offset (tag.write ++ (body.render ++ after)) =
        .ok (.clause tag.name tag.write, body.render ++ after) :=
      hopen ▸ Lexeme.next_clause htag hgoes _
    have hwritten := @Growth.run_of_next { g with offset, stack := l :: g.stack }
      (body.render ++ after) (tag.write ++ (body.render ++ after)) (.clause tag.name tag.write)
      _ hnext (by obtain ⟨cs, hwrite⟩ := tag.exists_write; simp [hwrite])
    have hstep : Growth.step { g with offset, stack := l :: g.stack } (.clause tag.name tag.write) =
        { g with offset := inside, stack := ⟨opener, []⟩ :: g.stack } := by
      rw [← hbegin]
      rfl
    have hinside := Growth.run_inside (g := g) opener fun g' hoffset =>
      Template.run_render body g' inside after hoffset hbody (more.endsText_render kind)
    have hclauses := Clauses.run_render more g ⟨opener, (body.trees inside).reverse⟩
      (inside + Text.byteSize body.render) rest hmore hcontext
    rw [hclosed] at hclauses
    simp only [Clauses.render, List.append_assoc, Text.byteSize_append, ← Nat.add_assoc]
    exact hwritten.trans (hstep ▸ hinside.trans hclauses)

end

/-- **A template whose headers are read as they are written is recovered from its text.** -/
theorem Template.ofText_render (t : Template) (h : t.WellFormed Head.ReadAsWritten) :
    Tree.ofText config t.render = .ok (t.trees 0) := by
  have hrun := Template.run_render t {} 0 [] rfl h (Or.inl rfl)
  have hfinish :
      Growth.run config (Growing.addAll {} (t.trees 0) (0 + Text.byteSize t.render)) [] =
      .ok (t.trees 0) := by
    rw [Growth.run]
    exact congrArg Except.ok ((congrArg List.reverse (List.append_nil _)).trans
      (List.reverse_reverse _))
  rw [List.append_nil] at hrun
  exact hrun.trans hfinish

/-- **The trees of a well-formed template are recovered from its text**, each with its own range, if
each wait names the phase that it is written with and hides no other word that is taken for it. -/
theorem Template.ofText_eq_trees (t : Template)
    (h : t.WellFormed fun head => head.NamesPhase ∧ head.HidesNoPhase) :
    Tree.ofText config t.render = .ok (t.trees 0) :=
  t.ofText_render (Template.WellFormed.mono (fun _ hhead => hhead.1.readAsWritten hhead.2) t h)

/-- Code with a brace in a string and another in a hole of a template literal. -/
def bracesInCode : List Char :=
  ['f', '(', '\'', '\\', '\'', '}', '\'', ',', '`', '{', '$', '{', 'b', '[', '0', ']', '}', '`',
    ')']

theorem wellNested_bracesInCode : WellNested .code bracesInCode := by
  have hstring : Expression.IsQuoted '\'' ['\\', '\'', '}'] := .escape (.char (by decide) .nil)
  have hhole : WellNested .code ['b', '[', '0', ']'] :=
    .plain (by decide) (@WellNested.bracketed '[' ']' ['0'] [] rfl (.plain (by decide) .nil) .nil)
  have hliteral : WellNested .literal ['{', '$', '{', 'b', '[', '0', ']', '}'] :=
    .char (by decide) (by decide) (@WellNested.hole ['b', '[', '0', ']'] [] hhole .nil)
  have hinside : WellNested .code (bracesInCode.tail.tail.dropLast) :=
    @WellNested.quoted '\'' ['\\', '\'', '}'] _ (Or.inl rfl) hstring
      (.plain (by decide) (@WellNested.backticks _ [] hliteral .nil))
  exact .plain (by decide) (@WellNested.bracketed '(' ')' _ [] rfl hinside .nil)

/-- A template with all kinds of blocks in one another, and brackets where they close nothing. -/
def nestedTemplate : Template :=
  .text "a \x7d ".toList <| .comment "\x7b#if\x7d".toList <| .mustache bracesInCode <|
  .element "Div".toList
    [.quoted "title".toList "a > '\x7b'".toList, .braces "on".toList bracesInCode]
    (.block (.cond bracesInCode) (.text "b".toList .blank)
      (.clause (.elseIf "c".toList) (.special .html "d".toList .blank) <|
        .clause .otherwise .blank .done) .blank) <|
  .block (.await "then".toList) .blank
    (.clause (.phase .fulfilled "v".toList) (.block (.each "vs as v".toList) .blank
      (.clause .otherwise (.block (.key "k".toList) .blank .done .blank) .done) .blank) <|
      .clause (.phase .rejected "e".toList) .blank .done) <|
  .block (.awaitPhase "p".toList .fulfilled "v".toList) .blank
    (.clause (.phase .rejected "e".toList) .blank .done) .blank

theorem wellFormed_nestedTemplate :
    nestedTemplate.WellFormed fun head => head.NamesPhase ∧ head.HidesNoPhase := by
  have hchars : ∀ code ∈ ["c".toList, "d".toList, "then".toList, "v".toList, "vs as v".toList,
      "k".toList, "e".toList, "p".toList, (Head.await "then".toList).header,
      (Head.awaitPhase "p".toList .fulfilled "v".toList).header], ∀ c ∈ code,
      Expression.IsPlain c := by
    simp [Expression.IsPlain, Head.header, Head.kind, Head.subject, Block.word, Phase.word]
  have hplain := fun code hcode => WellNested.of_plain (hchars code hcode)
  simp only [List.forall_mem_cons] at hplain hchars
  obtain ⟨hc, hd, hthen, hv, hvs, hk, he, hp, -⟩ := hplain
  obtain ⟨-, -, -, -, -, -, -, -, hwait, hwaitPhase, -⟩ := hchars
  have hshown : IsShown bracesInCode := ⟨wellNested_bracesInCode, by decide, by decide⟩
  have hquoted : IsWritten (.quoted "title".toList "a > '\x7b'".toList) :=
    .of_word (by simp [Written.name]) (by decide : '"' ∉ "a > '\x7b'".toList)
  have hattributes : ∀ a ∈ [Written.quoted "title".toList "a > '\x7b'".toList,
      .braces "on".toList bracesInCode], IsWritten a :=
    List.forall_mem_cons.2 ⟨hquoted, List.forall_mem_singleton.2
      (.of_word (by simp [Written.name]) wellNested_bracesInCode)⟩
  have hnone : ∀ name : String, name ∉ ([] : List String) := fun _ => List.not_mem_nil
  have hnew : ∀ {name other : String}, name ≠ other → name ∉ [other] := fun hne hmem =>
    hne (List.mem_singleton.1 hmem)
  refine ⟨by decide, ⟨by decide, by decide⟩, id, by decide, hshown,
    ⟨⟨by decide, by decide +kernel⟩, hattributes, ?cond, ?await⟩⟩
  case cond =>
    refine ⟨⟨wellNested_bracesInCode, Head.names_of_kind (by simp [Head.kind])⟩,
      ⟨by decide, ⟨by decide, by decide⟩, id, trivial⟩, ?_, trivial⟩
    exact ⟨⟨hc, hnone _⟩, ⟨hd, trivial⟩, ⟨⟨trivial, hnew (by decide)⟩, trivial, trivial⟩⟩
  case await =>
    refine ⟨⟨hthen, Head.ReadAsWritten.names (by decide +kernel) (.of_plain hwait)⟩, trivial,
      ⟨⟨hv, ?_⟩, ?each, ⟨⟨he, ?_⟩, trivial, trivial⟩⟩, ?phase⟩
    case each =>
      exact ⟨⟨hvs, Head.names_of_kind (by simp [Head.kind])⟩, trivial, ⟨⟨trivial, rfl⟩,
        ⟨⟨hk, Head.names_of_kind (by simp [Head.kind])⟩, trivial, trivial, trivial⟩, trivial⟩,
        trivial⟩
    case phase =>
      refine ⟨⟨⟨hp, hv⟩, Head.ReadAsWritten.names (by decide +kernel) (.of_plain hwaitPhase)⟩,
        trivial, ⟨⟨he, ?_⟩, trivial, trivial⟩, trivial⟩
      exact ⟨by decide, by decide, hnone _⟩
    · exact ⟨by decide, by decide, hnone _⟩
    · exact ⟨by decide, by decide, hnew (by decide)⟩

theorem ofText_nestedTemplate :
    (nestedTemplate.WellFormed fun head => head.NamesPhase ∧ head.HidesNoPhase) ∧
    Tree.ofText config nestedTemplate.render = .ok (nestedTemplate.trees 0) :=
  ⟨wellFormed_nestedTemplate, Template.ofText_eq_trees nestedTemplate wellFormed_nestedTemplate⟩

/-! ## Headers that name another phase -/

/-- The tree is a wait whose header opens no phase. -/
def Tree.opensNoPhase : Tree → Bool
  | .block (.await none) _ _ => true
  | _ => false

/-- A wait for `a then b` with a clause for its fulfilment. -/
def waitForWords : Template :=
  .block (.await "a then b".toList) (.text "x".toList .blank)
    (.clause (.phase .fulfilled "c".toList) (.text "y".toList .blank) .done) .blank

/-- A wait for nothing whose header opens a phase. -/
def waitForNothing : Template :=
  .block (.awaitPhase [] .fulfilled "v".toList) (.text "x".toList .blank) .done .blank

/-- **A header is read by its words**: one that names another phase than it was written with is not
that header, so its template is refused or comes back as another. -/
theorem not_recovered_of_words :
    (waitForWords.WellFormed (fun _ => True) ∧
      (Tree.ofText config waitForWords.render).isOk = false) ∧
    waitForNothing.WellFormed (fun _ => True) ∧
      Tree.ofText config waitForNothing.render ≠ .ok (waitForNothing.trees 0) := by
  have hwords : WellNested .code "a then b".toList := .of_plain (by simp [Expression.IsPlain])
  have hc : WellNested .code "c".toList := .of_plain (by simp [Expression.IsPlain])
  have hv : WellNested .code "v".toList := .of_plain (by simp [Expression.IsPlain])
  have hx : (Template.text "x".toList .blank).WellFormed fun _ => True := by
    simp [Template.WellFormed, Template.BeginsWithText]
  have hy : (Template.text "y".toList .blank).WellFormed fun _ => True := by
    simp [Template.WellFormed, Template.BeginsWithText]
  refine ⟨⟨?words, by decide +kernel⟩, ?nothing, fun hrecovered => ?_⟩
  case words =>
    exact ⟨⟨hwords, trivial⟩, hx,
      ⟨⟨hc, by decide, by decide, List.not_mem_nil⟩, hy, trivial⟩, trivial⟩
  case nothing => exact ⟨⟨⟨.nil, hv⟩, trivial⟩, hx, trivial, trivial⟩
  · have hread : (Tree.ofText config waitForNothing.render).toOption.any
        (fun trees => trees.all Tree.opensNoPhase) = true := by decide +kernel
    rw [hrecovered] at hread
    exact absurd hread (by decide)

end Markup.Svelte
