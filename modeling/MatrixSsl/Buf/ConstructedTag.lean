import MatrixSsl.Buf.DynOps

/-!
# Where `psDynBufEndConstructedTag` points

`psDynBufBeginConstructedTag` opens a sub-buffer with four bytes of head room,
and the appends that fill it keep that room. `psDynBufEndConstructedTag`
prepends the tag and the length field into the head room and returns where it
put them; `psDynBufSubFinish` then moves the whole sub-buffer content, header
first, to the front of the sub-buffer's region. The result is where the header
was before the move: the TLV now starts `4 - len_of_tag_and_len(len)` bytes
earlier, so for a content shorter than `256` bytes the result points into the
length field or the content (`psDynBufEndConstructedTag_points_past_tag`).
-/

namespace MatrixSsl

theorem psDynBufSubFinish_top_start {s s' : DynState} {loc : Nat} {m : DynBuf} {ms : List DynBuf}
    (hm : s.masters = m :: ms) (h : psDynBufSubFinish s = some (loc, s')) :
    s'.top.buf.start = m.buf.start := by
  obtain ⟨heap, sub, _⟩ := s
  dsimp only at hm
  subst hm
  simp only [psDynBufSubFinish] at h
  by_cases herr : sub.err ≠ 0
  · rw [if_pos herr] at h
    cases h; rfl
  · rw [if_neg herr] at h
    obtain ⟨H, -, h⟩ := Option.bind_eq_some.1 h
    cases h; rfl

section Tags

variable {grow : Nat} {ok : Bool}

/-- On every sub-buffer in a chain without error that has the four bytes of head
room `psDynBufBeginConstructedTag` gives it, and content of `L < 256` bytes:
`psDynBufEndConstructedTag` returns the region's start plus
`4 - len_of_tag_and_len(L)`, one or two bytes past the tag, while the master
holds the tag, the length field and the content from the region's start. -/
theorem psDynBufEndConstructedTag_points_past_tag {s : DynState} {tag : UInt8} (hi : ChainInv s)
    (hm : s.masters ≠ []) (hhead : s.top.buf.start = s.top.buf.buf + 4)
    (hL : (content s.heap s.top.buf).length < 256) :
    ∃ s', psDynBufEndConstructedTag grow ok s tag =
        some (s.top.buf.buf + (4 - lenOfTagAndLen (content s.heap s.top.buf).length), s') ∧
      s'.heap.read s.top.buf.buf
          (tag :: outputLen (content s.heap s.top.buf).length ++ content s.heap s.top.buf).length =
        tag :: outputLen (content s.heap s.top.buf).length ++ content s.heap s.top.buf := by
  obtain ⟨heap, sub, ms⟩ := s
  cases ms with
  | nil => exact absurd rfl hm
  | cons m ms =>
  dsimp only at hhead hL ⊢
  generalize hc : content heap sub.buf = c at hL ⊢
  have he : lenOfTagAndLen c.length ≤ 3 := by unfold lenOfTagAndLen; split_ifs <;> omega
  have hbs : (tag :: outputLen c.length).length = lenOfTagAndLen c.length := by
    simpa [Nat.add_comm] using outputLen_length c.length
  have hfit : sub.buf.buf + lenOfTagAndLen c.length ≤ sub.buf.start := by omega
  obtain ⟨⟨hb1, hb2, hb3⟩, ⟨-, hs1, -⟩, -⟩ := hi.chain
  have hlen : sub.buf.end - sub.buf.start = c.length := by rw [← hc]; simp [content]
  have hpos : sub.buf.start - lenOfTagAndLen c.length ≠ 0 := by
    have := hi.chain.buf_pos hi.alloc; simp only at this; omega
  have hp : psDynBufPrependSize grow ok ⟨heap, sub, m :: ms⟩ (lenOfTagAndLen c.length) =
      some (sub.buf.start - lenOfTagAndLen c.length, ⟨heap, { sub with buf :=
        { sub.buf with start := sub.buf.start - lenOfTagAndLen c.length } }, m :: ms⟩) := by
    simp [psDynBufPrependSize, psBufPrependSize, hfit, hpos, hb1]
  have e1 := prepended_of_fit hi hfit
  rw [← hbs] at e1
  have e2 := @EditsTop.write_start _ ⟨heap, { sub with buf :=
    { sub.buf with start := sub.buf.start - (tag :: outputLen c.length).length } }, m :: ms⟩ _ _ _ e1 rfl
  obtain ⟨loc3, s3, hf, -, -, ⟨pre, post, hfr, hct⟩, -⟩ :=
    psDynBufSubFinish_spec e2.inv (List.cons_ne_nil _ _)
  have hw2 : (heap.write (sub.buf.start - lenOfTagAndLen c.length) [tag]).write
      (sub.buf.start - lenOfTagAndLen c.length + 1) (outputLen c.length) =
      heap.write (sub.buf.start - lenOfTagAndLen c.length) (tag :: outputLen c.length) :=
    Heap.write_append _ _ [tag] _
  have hf' : psDynBufSubFinish ⟨heap.write (sub.buf.start - lenOfTagAndLen c.length)
      (tag :: outputLen c.length), { sub with buf :=
        { sub.buf with start := sub.buf.start - lenOfTagAndLen c.length } }, m :: ms⟩ = some (loc3, s3) := by
    rw [← hbs]; exact hf
  refine ⟨s3, ?_, ?_⟩
  · simp only [psDynBufEndConstructedTag, hlen, hp, Option.bind_eq_bind, Option.some_bind, ne_eq, hpos,
      not_false_eq_true, if_true, hw2, hf']
    congr 2
    omega
  · have hstart := psDynBufSubFinish_top_start rfl hf'
    have hpre : pre.length = sub.buf.buf - m.buf.start := by
      simp only [frames, frame, List.cons.injEq, Prod.mk.injEq] at hfr
      rw [← hfr.1.1, Heap.read_length]
    rw [e2.content_eq] at hct
    dsimp only at hct
    rw [hc] at hct
    have := Heap.read_middle hct
    rwa [hstart, hpre, Nat.add_sub_cancel' hs1] at this

theorem psDynBufEndConstructedTag_points_past_tag_one_byte :
    ∃ s', psDynBufEndConstructedTag 8 true ⟨⟨fun _ => 0, 30, by decide⟩, ⟨⟨1, 5, 6, 20⟩, 0, 0⟩,
        [⟨⟨1, 1, 21, 29⟩, 7, 0⟩]⟩ 0x30 = some (3, s') ∧ s'.heap.read 1 3 = [0x30, 0x01, 0x00] := by
  have hi : ChainInv ⟨⟨fun _ => 0, 30, by decide⟩, ⟨⟨1, 5, 6, 20⟩, 0, 0⟩, [⟨⟨1, 1, 21, 29⟩, 7, 0⟩]⟩ :=
    ⟨⟨show BufOk _ from ⟨by decide, by decide, by decide⟩, ⟨rfl, by decide, by decide⟩,
      show BufOk _ from ⟨by decide, by decide, by decide⟩⟩, rfl, by simp, by decide⟩
  obtain ⟨s', h1, h2⟩ := @psDynBufEndConstructedTag_points_past_tag 8 true _ 0x30 hi
    (List.cons_ne_nil _ _) rfl (by decide)
  exact ⟨s', h1, h2⟩

end Tags

end MatrixSsl
