import Markup.Proofs.Blueprint.Cover
import Markup.Proofs.Blueprint.Raise

/-!
# Proofs/Document/Lossless — the tokens of a document are its text

A document is `Lossless` if its tokens are **the text, piece by piece**.  `lossless_of_covers`
proves it for every dialect whose blueprints cover the source: the tokens of their row tile it
(`Row.tokensTile`), and slices that meet are one (`TokensTile.slice?_text`).
-/

namespace Markup

/-- **The tokens of the nodes are the text**, piece by piece, from an offset on. -/
structure Document.Lossless (doc : Document) (text : String) (offset : Nat) : Prop where
  start : ∀ n, doc.nodes[0]? = some n → n.token.startOffset = offset
  meet : ∀ i n m, doc.nodes[i]? = some n → doc.nodes[i + 1]? = some m →
    m.token.startOffset = n.token.endOffset
  stop : ∀ n, doc.nodes.back? = some n → n.token.endOffset = offset + text.utf8ByteSize
  empty_iff : doc.nodes = #[] ↔ text = ""
  slice : ∀ n ∈ doc.nodes, offset ≤ n.token.startOffset ∧
    Text.slice? (n.token.startOffset - offset) (n.token.endOffset - offset) text.toList =
      some n.token.raw.toList
  ghost_iff : ∀ n ∈ doc.nodes, n.token.raw = "" ↔ n.isGhost = true
  text_eq : doc.text = text

namespace TokensTile

variable {source : Source} {start stop : Nat} {n m : Node} {nodes : List Node}

theorem le (h : TokensTile source start stop nodes) : start ≤ stop := by
  induction nodes generalizing start with
  | nil => exact Nat.le_of_eq h
  | cons n nodes ih =>
    obtain ⟨mid, hslice, -, hrest⟩ := h
    exact Nat.le_trans (Source.le_of_slice hslice) (ih hrest)

/-- The first token begins where the row does. -/
theorem startOffset_head (h : TokensTile source start stop (n :: nodes)) :
    n.token.startOffset = start + source.base.offset := by
  obtain ⟨mid, hslice, -, -⟩ := h
  exact Source.startOffset_of_slice hslice

/-- …the last one ends where the row does… -/
theorem endOffset_getLast? (h : TokensTile source start stop nodes)
    (hn : nodes.getLast? = some n) : n.token.endOffset = stop + source.base.offset := by
  obtain ⟨before, rfl⟩ := List.getLast?_eq_some_iff.1 hn
  obtain ⟨mid, -, last, hslice, -, rfl⟩ := append_iff.1 h
  exact Source.endOffset_of_slice hslice

/-- …and each of the others ends where the next one begins. -/
theorem startOffset_next {i : Nat} (h : TokensTile source start stop nodes)
    (hn : nodes[i]? = some n) (hm : nodes[i + 1]? = some m) :
    m.token.startOffset = n.token.endOffset := by
  induction nodes generalizing start i with
  | nil => simp at hn
  | cons k nodes ih =>
    obtain ⟨mid, hslice, -, hrest⟩ := h
    cases i with
    | zero =>
      obtain rfl : k = n := Option.some.inj hn
      rw [List.getElem?_cons_succ] at hm
      obtain ⟨others, rfl⟩ : ∃ others, nodes = m :: others := by
        rw [← List.head?_eq_getElem?] at hm
        exact List.head?_eq_some_iff.1 hm
      rw [hrest.startOffset_head, Source.endOffset_of_slice hslice]
    | succ i =>
      rw [List.getElem?_cons_succ] at hn hm
      exact ih hrest hn hm

/-- No token begins before the row does… -/
theorem le_startOffset (h : TokensTile source start stop nodes) (hn : n ∈ nodes) :
    start + source.base.offset ≤ n.token.startOffset := by
  induction nodes generalizing start with
  | nil => exact absurd hn List.not_mem_nil
  | cons k nodes ih =>
    rcases List.mem_cons.1 hn with rfl | hlater
    · exact Nat.le_of_eq h.startOffset_head.symm
    · obtain ⟨mid, hslice, -, hrest⟩ := h
      have hle := Source.le_of_slice hslice
      exact Nat.le_trans (Nat.add_le_add_right hle _) (ih hrest hlater)

/-- …so **no two are the same**, without ghosts. -/
theorem nodup_token (h : TokensTile source start stop nodes)
    (hghost : ∀ n ∈ nodes, n.isGhost = false) : (nodes.map Node.token).Nodup := by
  induction nodes generalizing start with
  | nil => exact List.nodup_nil
  | cons n nodes ih =>
    rw [List.forall_mem_cons] at hghost
    obtain ⟨mid, hslice, hempty, hrest⟩ := h
    refine List.nodup_cons.2 ⟨fun hmem => ?_, ih hrest hghost.2⟩
    obtain ⟨m, hm, htoken⟩ := List.mem_map.1 hmem
    have hfirst := hrest.le_startOffset hm
    rw [htoken, Source.startOffset_of_slice hslice] at hfirst
    have hle := Source.le_of_slice hslice
    have hmid : start = mid := Nat.le_antisymm hle (Nat.le_of_add_le_add_right hfirst)
    exact absurd (hempty.2 hmid) (by simp [hghost.1])

/-- **Each token is a slice of the source**, and only a ghost's is empty. -/
theorem slice_of_mem (h : TokensTile source start stop nodes) (hn : n ∈ nodes) :
    ∃ a b, source.slice ⟨a, b⟩ = .ok n.token ∧ (n.isGhost = true ↔ a = b) := by
  obtain ⟨before, after, rfl⟩ := List.append_of_mem hn
  obtain ⟨mid, -, last, hslice, hghost, -⟩ := append_iff.1 h
  exact ⟨mid, last, hslice, hghost⟩

/-- **The texts of the tokens in a row are the slice that the row covers**, from any slice on that
ends where it begins. -/
theorem slice?_text {first : Nat} {before : List Char} (h : TokensTile source start stop nodes)
    (hbefore : Text.slice? first start source.text = some before) :
    Text.slice? first stop source.text =
      some (before ++ nodes.flatMap fun n => n.token.raw.toList) := by
  induction nodes generalizing start before with
  | nil =>
    obtain rfl : start = stop := h
    rw [List.flatMap_nil, List.append_nil, hbefore]
  | cons n nodes ih =>
    obtain ⟨mid, hslice, -, hrest⟩ := h
    have hjoin := Text.slice?_join hbefore (Source.slice?_of_slice hslice)
    rw [ih hrest hjoin, List.flatMap_cons, List.append_assoc]

/-- A row that covers nothing and begins with no ghost is empty. -/
theorem eq_nil (h : TokensTile source start start nodes)
    (hhead : ∀ n, nodes.head? = some n → n.isGhost = false) : nodes = [] := by
  cases nodes with
  | nil => rfl
  | cons n nodes =>
    obtain ⟨mid, hslice, hghost, hrest⟩ := h
    have hle := hrest.le
    have hge := Source.le_of_slice hslice
    have hn := hghost.2 (Nat.le_antisymm hge hle)
    rw [hhead n rfl] at hn
    exact absurd hn Bool.false_ne_true

end TokensTile

namespace Document

variable {d : Dialect} {raw : String} {o : Options} {doc : Document}

/-- **Where no end tag may be left out, a document has no ghosts.** -/
theorem isGhost_of_covers (hd : ∀ tag, d.impliesClose tag = false)
    (hcovers : ∀ reading, d.read (Source.ofString raw o.base) o = .ok reading →
      Blueprint.Covers 0 raw.utf8ByteSize reading.roots)
    (hparse : Document.parse d raw o = .ok doc) : ∀ n ∈ doc.nodes, n.isGhost = false := by
  obtain ⟨reading, tops, hread, hrow⟩ :=
    row_of_parse (fun reading hread => (hcovers reading hread).inPlace) hparse
  exact fun n hn => hrow.isGhost_of_mem hd n (Array.mem_toList_iff.2 hn)

/-- **A document whose tokens tile a text is the text**, if it does not begin with a ghost. -/
theorem lossless_of_tokensTile
    (htile : TokensTile (Source.ofString raw o.base) 0 raw.utf8ByteSize doc.nodes.toList)
    (hhead : ∀ n, doc.nodes.toList.head? = some n → n.isGhost = false) :
    doc.Lossless raw o.offsetOffset where
  start := by
    intro n hn
    rw [← Array.getElem?_toList, ← List.head?_eq_getElem?] at hn
    obtain ⟨nodes, hnodes⟩ := List.head?_eq_some_iff.1 hn
    rw [hnodes] at htile
    exact htile.startOffset_head.trans (Nat.zero_add _)
  meet := by
    intro i n m hn hm
    rw [← Array.getElem?_toList] at hn hm
    exact htile.startOffset_next hn hm
  stop := by
    intro n hn
    rw [← Array.getLast?_toList] at hn
    exact (htile.endOffset_getLast? hn).trans (Nat.add_comm _ _)
  empty_iff := by
    refine ⟨fun h => ?_, fun h => ?_⟩
    · rw [h] at htile
      exact String.utf8ByteSize_eq_zero_iff.1 htile.symm
    · rw [h] at htile
      exact Array.toList_eq_nil_iff.1 (htile.eq_nil hhead)
  slice := by
    intro n hn
    obtain ⟨a, b, hslice, -⟩ := htile.slice_of_mem (Array.mem_toList_iff.2 hn)
    have hraw := Source.slice?_of_slice hslice
    rw [Source.startOffset_of_slice hslice, Source.endOffset_of_slice hslice]
    refine ⟨Nat.le_add_left _ _, ?_⟩
    rwa [← Nat.add_sub_cancel a, ← Nat.add_sub_cancel b] at hraw
  ghost_iff := by
    intro n hn
    obtain ⟨a, b, hslice, hghost⟩ := htile.slice_of_mem (Array.mem_toList_iff.2 hn)
    rw [Source.raw_eq_empty_iff_of_slice hslice, hghost]
  text_eq := by
    have htext := htile.slice?_text (Text.slice?_zero _)
    rw [List.nil_append, ← Text.byteSize_toList, Source.ofString, Text.slice?_whole] at htext
    rw [Document.text, ← String.toList_inj, String.toList_join, List.flatMap_map]
    exact (Option.some.inj htext).symm

/-- **A dialect whose blueprints cover the source loses nothing of it.** -/
theorem lossless_of_covers
    (hcovers : ∀ reading, d.read (Source.ofString raw o.base) o = .ok reading →
      Blueprint.Covers 0 raw.utf8ByteSize reading.roots)
    (hparse : Document.parse d raw o = .ok doc) : doc.Lossless raw o.offsetOffset := by
  obtain ⟨reading, tops, hread, hrow⟩ :=
    row_of_parse (fun reading hread => (hcovers reading hread).inPlace) hparse
  exact lossless_of_tokensTile (hrow.tokensTile (hcovers reading hread)) fun n hn =>
    hrow.isGhost_head? hn

end Document

end Markup
