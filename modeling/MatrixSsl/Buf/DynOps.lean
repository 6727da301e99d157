import MatrixSsl.Buf.DynInv

/-!
# The writing operations on a chain of dynamic buffers

`ChainInv` is the invariant of a chain that no operation has failed on: the
layout of `ChainOk`, no error count anywhere, and a block at the root. From it,
and from no `size_t` sum wrapping, every operation of `psbuf.c` returns (no
`assert` fails), and one that succeeds keeps the invariant. What it does is said
through the contents: the content of the buffer being written and the frames
of its masters. The root's block grows by at most what the operation asked
`psDynBufGrow` for.
-/

namespace MatrixSsl

/-- The size of the root's block. -/
def rootSize (s : DynState) : Nat := (rootOf s.top s.masters).buf.size

/-- A chain that no operation has failed on. -/
structure ChainInv (s : DynState) : Prop where
  chain : ChainOk s.top s.masters
  top_clean : s.top.err = 0
  masters_clean : ∀ b ∈ s.masters, b.err = 0
  alloc : 0 < (rootOf s.top s.masters).buf.buf

theorem ChainOk.buf_pos {ms : List DynBuf} :
    ∀ {db : DynBuf}, ChainOk db ms → 0 < (rootOf db ms).buf.buf → 0 < db.buf.buf := by
  induction ms with
  | nil => intro db _ h; exact h
  | cons m ms ih =>
    rintro db ⟨-, ⟨-, hs, -⟩, hm⟩ h
    have := ih hm h
    have := hm.bufOk.1
    omega

theorem ChainInv.start_pos {s : DynState} (hi : ChainInv s) : 0 < s.top.buf.start :=
  Nat.lt_of_lt_of_le (hi.chain.buf_pos hi.alloc) hi.chain.bufOk.1

theorem content_append_end (h : Heap) {b : PsBuf Nat} (hb : b.start ≤ b.end) (n : Nat) :
    content h { b with «end» := b.end + n } = content h b ++ h.read b.end n := by
  simp only [content]
  rw [show b.end + n - b.start = (b.end - b.start) + n by omega, Heap.read_add, Nat.add_sub_cancel' hb]

theorem content_prepend_start (h : Heap) {b : PsBuf Nat} (hb : b.start ≤ b.end) {n : Nat}
    (hn : n ≤ b.start) : content h { b with start := b.start - n } = h.read (b.start - n) n ++ content h b := by
  simp only [content]
  rw [show b.end - (b.start - n) = n + (b.end - b.start) by omega, Heap.read_add, Nat.sub_add_cancel hn]

section Ops

variable {grow : Nat} {ok : Bool}

theorem Grown.clean {head tail : Nat} {h : Heap} {db : DynBuf} {ms : List DynBuf} {s : DynState}
    (g : Grown grow head tail h db ms s) (hd : db.err = 0) (hms : ∀ b ∈ ms, b.err = 0) :
    s.top.err = 0 ∧ ∀ b ∈ s.masters, b.err = 0 := by
  have e := congrArg (List.map Prod.snd) g.counts
  simp only [List.map_cons, List.map_map, List.cons.injEq] at e
  refine ⟨e.1.trans hd, fun b hb => ?_⟩
  obtain ⟨b', hb', he⟩ := List.mem_map.1 (e.2 ▸ List.mem_map_of_mem _ hb)
  exact he.symm.trans (hms b' hb')

theorem Grown.inv {head tail : Nat} {s s' : DynState} (hi : ChainInv s)
    (g : Grown grow head tail s.heap s.top s.masters s') : ChainInv s' :=
  ⟨g.chain, (g.clean hi.top_clean hi.masters_clean).1, (g.clean hi.top_clean hi.masters_clean).2, g.alloc⟩

/-- `s'` is `s` with the content of `top` turned into `f` of it, every frame
kept, and the root's block grown by at most `r`. -/
structure EditsTop (s : DynState) (r : Nat) (f : List UInt8 → List UInt8) (s' : DynState) : Prop where
  inv : ChainInv s'
  content_eq : content s'.heap s'.top.buf = f (content s.heap s.top.buf)
  frames_eq : frames s'.heap s'.top s'.masters = frames s.heap s.top s.masters
  root : rootSize s' ≤ rootSize s + r

theorem EditsTop.trans {s s2 s3 : DynState} {r r' : Nat} {f f' : List UInt8 → List UInt8}
    (e : EditsTop s r f s2) (e' : EditsTop s2 r' f' s3) : EditsTop s (r + r') (f' ∘ f) s3 :=
  ⟨e'.inv, by rw [e'.content_eq, e.content_eq]; rfl, by rw [e'.frames_eq, e.frames_eq], by have := e.root; have := e'.root; omega⟩

theorem EditsTop.mono {s s' : DynState} {r r' : Nat} {f : List UInt8 → List UInt8} (e : EditsTop s r f s')
    (h : r ≤ r') : EditsTop s r' f s' :=
  ⟨e.inv, e.content_eq, e.frames_eq, le_trans e.root (Nat.add_le_add_left h _)⟩

theorem Grown.editsTop {head tail : Nat} {s s' : DynState} (hi : ChainInv s)
    (g : Grown grow head tail s.heap s.top s.masters s') : EditsTop s (growReq grow head tail) id s' :=
  ⟨g.inv hi, g.content, g.frames, le_of_eq g.root⟩

theorem appended_of_fit {s : DynState} {sz : Nat} (hi : ChainInv s)
    (hfit : s.top.buf.end + sz ≤ s.top.buf.buf + s.top.buf.size) :
    EditsTop s 0 (· ++ s.heap.read s.top.buf.end sz)
      { s with top := { s.top with buf := { s.top.buf with «end» := s.top.buf.end + sz } } } := by
  obtain ⟨h1, h2, h3⟩ := hi.chain.bufOk
  exact ⟨⟨hi.chain.with_region ⟨h1, by simp only; omega, hfit⟩, hi.top_clean, hi.masters_clean,
    by simpa using hi.alloc⟩, content_append_end _ h2 _, frames_with_region _ _ _ _ _, by simp [rootSize]⟩

theorem prepended_of_fit {s : DynState} {sz : Nat} (hi : ChainInv s)
    (hfit : s.top.buf.buf + sz ≤ s.top.buf.start) :
    EditsTop s 0 (s.heap.read (s.top.buf.start - sz) sz ++ ·)
      { s with top := { s.top with buf := { s.top.buf with start := s.top.buf.start - sz } } } := by
  obtain ⟨h1, h2, h3⟩ := hi.chain.bufOk
  exact ⟨⟨hi.chain.with_region ⟨by simp only; omega, by simp only; omega, h3⟩, hi.top_clean,
    hi.masters_clean, by simpa using hi.alloc⟩, content_prepend_start _ h2 (by omega),
    frames_with_region _ _ _ _ _, by simp [rootSize]⟩

theorem ChainInv.with_heap {s : DynState} (hi : ChainInv s) (h : Heap) : ChainInv { s with heap := h } :=
  ⟨hi.chain, hi.top_clean, hi.masters_clean, hi.alloc⟩

theorem EditsTop.before_append {s s' : DynState} {r loc n : Nat}
    (e : EditsTop s r (· ++ s'.heap.read loc n) s') (hend : loc + n = s'.top.buf.end) :
    s'.top.buf.start + (content s.heap s.top.buf).length = loc ∧
      s'.heap.read s'.top.buf.start (content s.heap s.top.buf).length = content s.heap s.top.buf := by
  have hc : s'.heap.read s'.top.buf.start (s'.top.buf.end - s'.top.buf.start) =
      content s.heap s.top.buf ++ s'.heap.read loc n := e.content_eq
  have hlen := congrArg List.length hc
  simp only [Heap.read_length, List.length_append] at hlen
  have hloc : s'.top.buf.start + (content s.heap s.top.buf).length = loc := by
    have := e.inv.chain.bufOk.2.1; omega
  rw [show s'.top.buf.end - s'.top.buf.start = (content s.heap s.top.buf).length + n by omega, Heap.read_add,
    hloc] at hc
  exact ⟨hloc, (List.append_inj hc (by simp)).1⟩

theorem EditsTop.write_end {s s' : DynState} {r loc : Nat} {bs : List UInt8}
    (e : EditsTop s r (· ++ s'.heap.read loc bs.length) s') (hend : loc + bs.length = s'.top.buf.end) :
    EditsTop s r (· ++ bs) { s' with heap := s'.heap.write loc bs } := by
  obtain ⟨hloc, hpre⟩ := e.before_append hend
  obtain ⟨h1, h2, h3⟩ := e.inv.chain.bufOk
  refine ⟨e.inv.with_heap _, ?_, ?_, e.root⟩
  · show (s'.heap.write loc bs).read s'.top.buf.start (s'.top.buf.end - s'.top.buf.start) = _
    rw [show s'.top.buf.end - s'.top.buf.start = (content s.heap s.top.buf).length + bs.length by omega, ← hloc,
      Heap.read_write_after, hpre]
  · exact frames_congr e.inv.chain (Heap.agree_write (by omega) (by omega)) |>.trans e.frames_eq

theorem EditsTop.write_start {s s' : DynState} {r loc : Nat} {bs : List UInt8}
    (e : EditsTop s r (s'.heap.read loc bs.length ++ ·) s') (hloc : loc = s'.top.buf.start) :
    EditsTop s r (bs ++ ·) { s' with heap := s'.heap.write loc bs } := by
  subst hloc
  obtain ⟨h1, h2, h3⟩ := e.inv.chain.bufOk
  have hc : s'.heap.read s'.top.buf.start (s'.top.buf.end - s'.top.buf.start) =
      s'.heap.read s'.top.buf.start bs.length ++ content s.heap s.top.buf := e.content_eq
  have hlen := congrArg List.length hc
  simp only [Heap.read_length, List.length_append] at hlen
  rw [hlen, Heap.read_add] at hc
  refine ⟨e.inv.with_heap _, ?_, ?_, e.root⟩
  · show (s'.heap.write s'.top.buf.start bs).read s'.top.buf.start (s'.top.buf.end - s'.top.buf.start) = _
    rw [hlen, Heap.read_add, Heap.read_write_self, Heap.read_write_of_disjoint (Or.inr le_rfl),
      (List.append_inj hc rfl).2]
  · exact frames_congr e.inv.chain (Heap.agree_write h1 (by omega)) |>.trans e.frames_eq

theorem psDynBufAppendSize_of_fit {s : DynState} {sz : Nat}
    (hfit : s.top.buf.end + sz ≤ s.top.buf.buf + s.top.buf.size) (hpos : s.top.buf.end ≠ 0) :
    psDynBufAppendSize grow ok s sz =
      some (s.top.buf.end, { s with top := { s.top with buf := { s.top.buf with «end» := s.top.buf.end + sz } } }) := by
  simp [psDynBufAppendSize, psBufAppendSize, hfit, hpos]

theorem psDynBufPrependSize_of_fit {s : DynState} {sz : Nat} (hb : s.top.buf.buf ≤ s.top.buf.start)
    (hfit : s.top.buf.buf + sz ≤ s.top.buf.start) (hpos : s.top.buf.start - sz ≠ 0) :
    psDynBufPrependSize grow ok s sz =
      some (s.top.buf.start - sz,
        { s with top := { s.top with buf := { s.top.buf with start := s.top.buf.start - sz } } }) := by
  simp [psDynBufPrependSize, psBufPrependSize, hfit, hpos, hb]

/-- `psDynBufAppendSize` returns, and when it returns a location it has appended
`sz` bytes there, at the end of the content; it does whenever the allocator does
not fail. -/
theorem psDynBufAppendSize_spec {s : DynState} {sz : Nat} (hi : ChainInv s)
    (hw : rootSize s + growReq grow 0 sz < 2 ^ 64) :
    ∃ loc s', psDynBufAppendSize grow ok s sz = some (loc, s') ∧
      (loc ≠ 0 → EditsTop s (growReq grow 0 sz) (· ++ s'.heap.read loc sz) s' ∧
        loc + sz = s'.top.buf.end) ∧ (ok = true → loc ≠ 0) ∧
        ChainOk s'.top s'.masters ∧ s'.masters.length = s.masters.length := by
  obtain ⟨heap, ⟨b, pool, err⟩, ms⟩ := s
  by_cases hfit : b.end + sz ≤ b.buf + b.size
  · have hpos : b.end ≠ 0 := by have := hi.start_pos; have := hi.chain.bufOk.2.1; simp only at *; omega
    refine ⟨b.end, ⟨heap, ⟨{ b with «end» := b.end + sz }, pool, err⟩, ms⟩, ?_,
      fun _ => ⟨(appended_of_fit hi hfit).mono (Nat.zero_le _), rfl⟩, fun _ => hpos,
      (appended_of_fit hi hfit).inv.chain, rfl⟩
    exact psDynBufAppendSize_of_fit hfit hpos
  · obtain ⟨g, s2, hg, hfail, hgrown, hok⟩ := @psDynBufGrow_spec grow ok ms heap ⟨b, pool, err⟩ 0 sz hi.chain hw
    by_cases hg0 : g = 0
    · refine ⟨0, s2, ?_, fun h => absurd rfl h, fun hk => absurd hg0 (hok hk ?_), (hfail hg0).2.2⟩
      · simp [psDynBufAppendSize, psBufAppendSize, hfit, hg, hg0]
      · exact List.forall_mem_cons.2 ⟨hi.top_clean, hi.masters_clean⟩
    have gr := hgrown hg0
    have hi2 := gr.inv hi
    have hfit2 : s2.top.buf.end + sz ≤ s2.top.buf.buf + s2.top.buf.size := by
      have := gr.tailroom; have := le_roundTail grow sz; have := hi2.chain.bufOk; simp only [BufOk] at *; omega
    have hpos : s2.top.buf.end ≠ 0 := by have := hi2.start_pos; have := hi2.chain.bufOk.2.1; omega
    refine ⟨s2.top.buf.end, { s2 with top := { s2.top with buf := { s2.top.buf with «end» := s2.top.buf.end + sz } } },
      ?_, fun _ => ⟨((gr.editsTop hi).trans (appended_of_fit hi2 hfit2)).mono (Nat.add_zero _).le, rfl⟩,
      fun _ => hpos, (appended_of_fit hi2 hfit2).inv.chain, by simpa using congrArg List.length gr.frames⟩
    simp [psDynBufAppendSize, psBufAppendSize, hfit, hg, hg0, hfit2, hpos]

theorem psDynBufPrependSize_spec {s : DynState} {sz : Nat} (hi : ChainInv s)
    (hw : rootSize s + growReq grow sz 0 < 2 ^ 64) :
    ∃ loc s', psDynBufPrependSize grow ok s sz = some (loc, s') ∧
      (loc ≠ 0 → EditsTop s (growReq grow sz 0) (s'.heap.read loc sz ++ ·) s' ∧
        loc = s'.top.buf.start) ∧ (ok = true → loc ≠ 0) ∧
        ChainOk s'.top s'.masters ∧ s'.masters.length = s.masters.length := by
  obtain ⟨heap, ⟨b, pool, err⟩, ms⟩ := s
  have hb := hi.chain.bufOk
  simp only [BufOk] at hb
  by_cases hfit : b.buf + sz ≤ b.start
  · have hpos : b.start - sz ≠ 0 := by have := hi.chain.buf_pos hi.alloc; simp only at *; omega
    refine ⟨b.start - sz, ⟨heap, ⟨{ b with start := b.start - sz }, pool, err⟩, ms⟩, ?_,
      fun _ => ⟨(prepended_of_fit hi hfit).mono (Nat.zero_le _), rfl⟩, fun _ => hpos,
      (prepended_of_fit hi hfit).inv.chain, rfl⟩
    exact psDynBufPrependSize_of_fit hb.1 hfit hpos
  · obtain ⟨g, s2, hg, hfail, hgrown, hok⟩ := @psDynBufGrow_spec grow ok ms heap ⟨b, pool, err⟩ sz 0 hi.chain hw
    by_cases hg0 : g = 0
    · refine ⟨0, s2, ?_, fun h => absurd rfl h, fun hk => absurd hg0 (hok hk ?_), (hfail hg0).2.2⟩
      · simp [psDynBufPrependSize, psBufPrependSize, hfit, hg, hg0]
      · exact List.forall_mem_cons.2 ⟨hi.top_clean, hi.masters_clean⟩
    have gr := hgrown hg0
    have hi2 := gr.inv hi
    have hb2 := hi2.chain.bufOk
    have hfit2 : s2.top.buf.buf + sz ≤ s2.top.buf.start := by
      have := gr.headroom; have := le_roundHead grow sz; simp only [BufOk] at *; omega
    have hpos : s2.top.buf.start - sz ≠ 0 := by have := hi2.chain.buf_pos hi2.alloc; omega
    refine ⟨s2.top.buf.start - sz,
      { s2 with top := { s2.top with buf := { s2.top.buf with start := s2.top.buf.start - sz } } }, ?_,
      fun _ => ⟨((gr.editsTop hi).trans (prepended_of_fit hi2 hfit2)).mono (Nat.add_zero _).le, rfl⟩,
      fun _ => hpos, (prepended_of_fit hi2 hfit2).inv.chain, by simpa using congrArg List.length gr.frames⟩
    simp [psDynBufPrependSize, psBufPrependSize, hfit, hg, hg0, hfit2, hpos, hb2.1]

theorem psDynBufAppendUtf8_spec {s : DynState} {chr : Int} (hi : ChainInv s)
    (hw : rootSize s + growReq grow 0 (utf8Bytes (chr % 2 ^ 32).toNat).length < 2 ^ 64) :
    ∃ loc s', psDynBufAppendUtf8 grow ok s chr = some (loc, s') ∧
      (loc ≠ 0 → EditsTop s (growReq grow 0 (utf8Bytes (chr % 2 ^ 32).toNat).length)
        (· ++ utf8Bytes (chr % 2 ^ 32).toNat) s') ∧
      (ok = true → (chr % 2 ^ 32).toNat ≤ 0x1FFFF → loc ≠ 0) := by
  by_cases hch : (chr % 2 ^ 32).toNat > 0x1FFFF
  · exact ⟨0, _, if_pos hch, fun h => absurd rfl h, fun _ h => absurd h (by omega)⟩
  obtain ⟨loc, s1, ha, hsucc, hok, -, -⟩ := @psDynBufAppendSize_spec grow ok _ _ hi hw
  have hrun : psDynBufAppendUtf8 grow ok s chr = if loc = 0 then some (0, s1) else
      some (loc, { s1 with heap := s1.heap.write loc (utf8Bytes (chr % 2 ^ 32).toNat) }) := by
    unfold psDynBufAppendUtf8
    rw [if_neg hch, ha]
    rfl
  by_cases h0 : loc = 0
  · exact ⟨0, s1, by rw [hrun, if_pos h0], fun h => absurd rfl h, fun hk _ => absurd h0 (hok hk)⟩
  obtain ⟨e, hend⟩ := hsucc h0
  exact ⟨loc, _, by rw [hrun, if_neg h0], fun _ => e.write_end hend, fun _ _ => h0⟩

theorem psDynBufAppendAsn1TagGen_spec {s : DynState} {tag : UInt8} {bytes : List UInt8} (hi : ChainInv s)
    (hw : rootSize s + growReq grow 0 (bytes.length + lenOfTagAndLen bytes.length) < 2 ^ 64) :
    ∃ loc s', psDynBufAppendAsn1TagGen grow ok s tag bytes = some (loc, s') ∧
      (loc ≠ 0 → EditsTop s (growReq grow 0 (bytes.length + lenOfTagAndLen bytes.length))
        (· ++ (tag :: outputLen bytes.length ++ bytes)) s') ∧ (ok = true → loc ≠ 0) := by
  have hsz : sizeT (bytes.length + lenOfTagAndLen bytes.length) = bytes.length + lenOfTagAndLen bytes.length :=
    sizeT_of_lt (by have := le_roundTail grow (bytes.length + lenOfTagAndLen bytes.length); unfold growReq at hw
                    simp only [roundHead_zero] at hw; omega)
  have hlen : (tag :: outputLen bytes.length ++ bytes).length = bytes.length + lenOfTagAndLen bytes.length := by
    have := outputLen_length bytes.length
    simp only [List.cons_append, List.length_cons, List.length_append]
    omega
  obtain ⟨loc, s1, ha, hsucc, hok, -, -⟩ := @psDynBufAppendSize_spec grow ok _ _ hi hw
  have hrun : psDynBufAppendAsn1TagGen grow ok s tag bytes = if loc = 0 then some (0, s1) else
      some (loc, { s1 with heap := s1.heap.write loc (tag :: outputLen bytes.length ++ bytes) }) := by
    have hw3 : ((s1.heap.write loc [tag]).write (loc + 1) (outputLen bytes.length)).write
        (loc + lenOfTagAndLen bytes.length) bytes = s1.heap.write loc (tag :: outputLen bytes.length ++ bytes) := by
      rw [show loc + lenOfTagAndLen bytes.length = loc + 1 + (outputLen bytes.length).length by
        have := outputLen_length bytes.length; omega, Heap.write_append]
      exact Heap.write_append _ loc [tag] _
    simp [psDynBufAppendAsn1TagGen, hsz, ha, hw3]
  by_cases h0 : loc = 0
  · exact ⟨0, s1, by rw [hrun, if_pos h0], fun h => absurd rfl h, fun hk => absurd h0 (hok hk)⟩
  obtain ⟨e, hend⟩ := hsucc h0
  rw [← hlen] at e hend
  exact ⟨loc, _, by rw [hrun, if_neg h0], fun _ => hlen ▸ e.write_end hend, fun _ => h0⟩

theorem psDynBufReservePrepend_spec {s : DynState} {sz : Nat} (hi : ChainInv s) :
    ∃ s', psDynBufReservePrepend s sz = some s' ∧ EditsTop s 0 id s' := by
  obtain ⟨h1, h2, h3⟩ := hi.chain.bufOk
  by_cases he : s.top.buf.start = s.top.buf.end
  · by_cases hfit : s.top.buf.end + sz ≤ s.top.buf.buf + s.top.buf.size
    · refine ⟨{ s with top := { s.top with buf :=
          { s.top.buf with start := s.top.buf.start + sz, «end» := s.top.buf.end + sz } } },
        by simp [psDynBufReservePrepend, psBufReservePrepend, he, hfit], ⟨⟨hi.chain.with_region
          ⟨by simp only; omega, by simp only; omega, hfit⟩, hi.top_clean, hi.masters_clean,
          by simpa using hi.alloc⟩, ?_, frames_with_region _ _ _ _ _, by simp [rootSize]⟩⟩
      simp [content, he]
    · exact ⟨_, by simp [psDynBufReservePrepend, psBufReservePrepend, he, hfit], hi, rfl, rfl,
        Nat.le_add_right _ _⟩
  · exact ⟨_, if_neg he, hi, rfl, rfl, Nat.le_add_right _ _⟩

theorem psDynBufSubInit_spec {s : DynState} {cap : Nat} (hi : ChainInv s)
    (hw : rootSize s + growReq grow 0 cap < 2 ^ 64) :
    ∃ loc s', psDynBufSubInit grow ok s cap = some (loc, s') ∧
      (loc ≠ 0 → ChainInv s' ∧ content s'.heap s'.top.buf = [] ∧
        frames s'.heap s'.top s'.masters = (content s.heap s.top.buf, []) :: frames s.heap s.top s.masters ∧
        rootSize s' ≤ rootSize s + growReq grow 0 cap ∧ s'.top.buf.size = cap) ∧ (ok = true → loc ≠ 0) := by
  obtain ⟨loc, s1, ha, hsucc, hok, -, -⟩ := @psDynBufAppendSize_spec grow ok _ _ hi hw
  by_cases h0 : loc = 0
  · exact ⟨0, ⟨s1.heap, ⟨⟨0, 0, 0, 0⟩, 0, 1⟩, { s1.top with err := s1.top.err + 1 } :: s1.masters⟩,
      by simp [psDynBufSubInit, ha, h0], fun h => absurd rfl h, fun hk => absurd h0 (hok hk)⟩
  obtain ⟨e, hend⟩ := hsucc h0
  obtain ⟨hloc, hpre⟩ := e.before_append hend
  obtain ⟨h1, h2, h3⟩ := e.inv.chain.bufOk
  have hsub : SubOk ⟨⟨loc, loc, loc, cap⟩, 0, 0⟩ s1.top := ⟨rfl, by simp only; omega, by simp only; omega⟩
  obtain ⟨H, hH, hag, -⟩ := assertSubbuf_spec (h := s1.heap.memset loc 0x23 cap)
    (show BufOk ⟨loc, loc, loc, cap⟩ from ⟨le_rfl, le_rfl, Nat.le_add_right _ _⟩) hsub
  have hag' : s1.heap.Agree H loc (loc + cap) := (Heap.agree_memset le_rfl le_rfl).trans hag
  have hrun : psDynBufSubInit grow ok s cap = some (loc, ⟨H, ⟨⟨loc, loc, loc, cap⟩, 0, 0⟩, s1.top :: s1.masters⟩) := by
    simp only [psDynBufSubInit, ha, Option.bind_eq_bind, Option.some_bind, ne_eq, h0, not_false_eq_true, if_true,
      show s1.top.buf.end - cap = loc by omega]
    rw [hH]
    rfl
  refine ⟨loc, _, hrun, fun _ => ⟨⟨⟨⟨le_rfl, le_rfl, Nat.le_add_right _ _⟩, hsub, e.inv.chain⟩, rfl,
    List.forall_mem_cons.2 ⟨e.inv.top_clean, e.inv.masters_clean⟩, e.inv.alloc⟩, by simp [content], ?_,
    e.root, rfl⟩, fun _ => h0⟩
  show frame H ⟨loc, loc, loc, cap⟩ s1.top.buf :: frames H s1.top s1.masters = _
  rw [frames_congr e.inv.chain (hag'.mono (by omega) (by omega)), e.frames_eq]
  simp only [frame]
  rw [hag'.read_eq (Or.inl (by omega)), show loc - s1.top.buf.start = (content s.heap s.top.buf).length by omega,
    hpre, show s1.top.buf.end - (loc + cap) = 0 by omega]
  rfl

end Ops

theorem psDynBufSubInitAt_spec {s : DynState} {sub : DynBuf} {pos len : Nat} (hi : ChainInv s)
    (hw : pos + len < 2 ^ 64) :
    ∃ loc s', psDynBufSubInitAt s sub pos len = some (loc, s') ∧
      (loc ≠ 0 → ChainInv s' ∧ content s'.heap s'.top.buf = [] ∧
        frames s'.heap s'.top s'.masters = ((content s.heap s.top.buf).take pos,
          (content s.heap s.top.buf).drop (pos + len)) :: frames s.heap s.top s.masters ∧
        rootSize s' = rootSize s ∧ s'.top.buf.size = len) ∧
      (pos + len ≤ (content s.heap s.top.buf).length → loc ≠ 0) := by
  obtain ⟨h1, h2, h3⟩ := hi.chain.bufOk
  have hlen : (content s.heap s.top.buf).length = s.top.buf.end - s.top.buf.start := by simp [content]
  by_cases hfit : pos + len ≤ s.top.buf.end - s.top.buf.start
  swap
  · have hc : ¬(s.top.err = 0 ∧ sizeT (pos + len) ≤ s.top.buf.end - s.top.buf.start) := by
      rw [sizeT_of_lt hw]; exact fun h => hfit h.2
    exact ⟨0, _, if_neg hc, fun h => absurd rfl h, fun h => absurd (hlen ▸ h) hfit⟩
  have hc : s.top.err = 0 ∧ sizeT (pos + len) ≤ s.top.buf.end - s.top.buf.start :=
    ⟨hi.top_clean, by rw [sizeT_of_lt hw]; exact hfit⟩
  have hsub : SubOk ⟨⟨s.top.buf.start + pos, s.top.buf.start + pos, s.top.buf.start + pos, len⟩, 0, 0⟩ s.top :=
    ⟨rfl, by simp only; omega, by simp only; omega⟩
  obtain ⟨H, hH, hag, -⟩ := assertSubbuf_spec (h := s.heap.memset (s.top.buf.start + pos) 0x23 len)
    (show BufOk ⟨s.top.buf.start + pos, s.top.buf.start + pos, s.top.buf.start + pos, len⟩ from
      ⟨le_rfl, le_rfl, Nat.le_add_right _ _⟩) hsub
  have hag' : s.heap.Agree H (s.top.buf.start + pos) (s.top.buf.start + pos + len) :=
    (Heap.agree_memset le_rfl le_rfl).trans hag
  have hpos : s.top.buf.start + pos ≠ 0 := by have := hi.start_pos; omega
  refine ⟨s.top.buf.start + pos, ⟨H, ⟨⟨s.top.buf.start + pos, s.top.buf.start + pos, s.top.buf.start + pos, len⟩,
    0, 0⟩, s.top :: s.masters⟩, ?_, fun _ => ⟨⟨⟨⟨le_rfl, le_rfl, Nat.le_add_right _ _⟩, hsub, hi.chain⟩, rfl,
    List.forall_mem_cons.2 ⟨hi.top_clean, hi.masters_clean⟩, hi.alloc⟩, by simp [content], ?_, rfl, rfl⟩,
    fun _ => hpos⟩
  · simp only [psDynBufSubInitAt, if_pos hc, Option.bind_eq_bind, hH, Option.some_bind]
  · show frame H _ s.top.buf :: frames H s.top s.masters = _
    rw [frames_congr hi.chain (hag'.mono (by omega) (by omega))]
    simp only [frame, content]
    rw [hag'.read_eq (Or.inl (by omega)), hag'.read_eq (Or.inr le_rfl), Heap.take_read _ (by omega),
      Heap.drop_read _ (by omega), Nat.add_sub_cancel_left, Nat.add_assoc, Nat.sub_sub]

theorem psDynBufSubInitAt_inside {s s' : DynState} {sub : DynBuf} {pos len loc : Nat}
    (h : psDynBufSubInitAt s sub pos len = some (loc, s')) (h0 : loc ≠ 0) :
    pos + len ≤ s.top.buf.end - s.top.buf.start ∧ s'.top.buf.buf = s.top.buf.start + pos ∧
      s'.top.buf.size = len := by
  simp only [psDynBufSubInitAt] at h
  split_ifs at h with hc
  · obtain ⟨H, hH, h⟩ := Option.bind_eq_some.1 h
    rw [Option.some.injEq, Prod.mk.injEq] at h
    obtain ⟨rfl, rfl⟩ := h
    unfold assertSubbuf at hH
    split_ifs at hH with hs
    dsimp only at hs
    exact ⟨by omega, rfl, rfl⟩
  · rw [Option.some.injEq, Prod.mk.injEq] at h
    exact absurd h.1.symm h0

theorem psDynBufSubFinish_isSome {s : DynState} (hc : ChainOk s.top s.masters) (hm : s.masters ≠ []) :
    ∃ r, psDynBufSubFinish s = some r := by
  obtain ⟨heap, sub, ms⟩ := s
  cases ms with
  | nil => exact absurd rfl hm
  | cons db ms =>
    by_cases herr : sub.err = 0
    · simp only [psDynBufSubFinish]
      rw [if_neg (not_not.2 herr)]
      simp [assertSubbuf_of_ok hc.2.1]
    · exact ⟨_, if_pos herr⟩

theorem finish_moves {H1 H2 H3 : Heap} {p st f T E : Nat} (hst : p ≤ st) (hf : st + f ≤ p + T)
    (hE : p + T ≤ E) (h2 : H2 = if p ≠ st ∧ f > 0 then H1.memmove p st f else H1)
    (h3 : H3 = if E - (p + T) > 0 then H2.memmove (E - T + f - (E - (p + T))) (E - (E - (p + T)))
      (E - (p + T)) else H2) :
    H1.Agree H3 p E ∧ H3.read p (f + (E - (p + T))) = H1.read st f ++ H1.read (p + T) (E - (p + T)) := by
  have a12 : H1.Agree H2 p (p + f) := by
    subst h2; split_ifs
    · exact Heap.agree_memmove le_rfl le_rfl
    · exact Heap.Agree.refl _ _ _
  have r12 : H2.read p f = H1.read st f := by
    subst h2; split_ifs with h
    · exact Heap.memmove_read_self _ _ _ _
    · rcases not_and_or.1 h with h | h
      · rw [not_not.1 h]
      · rw [show f = 0 by omega]; rfl
  have a23 : H2.Agree H3 (p + f) E := by
    subst h3; split_ifs
    · exact Heap.agree_memmove (by omega) (by omega)
    · exact Heap.Agree.refl _ _ _
  have r23 : H3.read (p + f) (E - (p + T)) = H2.read (p + T) (E - (p + T)) := by
    subst h3; split_ifs with h
    · rw [show E - T + f - (E - (p + T)) = p + f by omega, show E - (E - (p + T)) = p + T by omega,
        Heap.memmove_read_self]
    · rw [show E - (p + T) = 0 by omega]; rfl
  refine ⟨(a12.mono le_rfl (by omega)).trans (a23.mono (by omega) le_rfl), ?_⟩
  rw [Heap.read_add, r23, a23.read_eq (Or.inl le_rfl), r12, a12.read_eq (Or.inr (by omega))]

theorem psDynBufSubFinish_spec {s : DynState} (hi : ChainInv s) (hm : s.masters ≠ []) :
    ∃ loc s', psDynBufSubFinish s = some (loc, s') ∧ loc ≠ 0 ∧ ChainInv s' ∧
      (∃ pre post, frames s.heap s.top s.masters = (pre, post) :: frames s'.heap s'.top s'.masters ∧
        content s'.heap s'.top.buf = pre ++ content s.heap s.top.buf ++ post) ∧ rootSize s' = rootSize s := by
  obtain ⟨heap, sub, ms⟩ := s
  cases ms with
  | nil => exact absurd rfl hm
  | cons db ms =>
  have hc : ChainOk sub (db :: ms) := hi.chain
  obtain ⟨⟨hb1, hb2, hb3⟩, ⟨hp, hs1, hs2⟩, hdb⟩ := hc
  obtain ⟨hd1, hd2, hd3⟩ := hdb.bufOk
  have herr : sub.err = 0 := hi.top_clean
  obtain ⟨H1, hH1, hag1, hc1⟩ := assertSubbuf_spec (h := heap) ⟨hb1, hb2, hb3⟩ ⟨hp, hs1, hs2⟩
  obtain ⟨hag, hread⟩ := @finish_moves H1 _ _ sub.buf.buf sub.buf.start (sub.buf.end - sub.buf.start)
    sub.buf.size db.buf.end hb1 (by omega) hs2 rfl rfl
  have hpos : sub.buf.buf ≠ 0 := Nat.pos_iff_ne_zero.1 (hi.chain.buf_pos hi.alloc)
  simp only [psDynBufSubFinish]
  rw [if_neg (not_not.2 herr)]
  simp only [Option.bind_eq_bind, hH1, Option.some_bind]
  refine ⟨_, _, rfl, hpos, ?_, ⟨heap.read db.buf.start (sub.buf.buf - db.buf.start),
    heap.read (sub.buf.buf + sub.buf.size) (db.buf.end - (sub.buf.buf + sub.buf.size)), ?_, ?_⟩, ?_⟩
  · exact ⟨hdb.with_region ⟨hd1, by simp only; omega, by simp only; omega⟩,
      hi.masters_clean db (List.mem_cons_self _ _), fun b hb => hi.masters_clean b (List.mem_cons_of_mem _ hb),
      by simpa using hi.alloc⟩
  · show frame heap sub.buf db.buf :: frames heap db ms = _
    dsimp only
    conv_rhs => rw [frames_with_region]
    rw [frames_congr hdb ((hag1.mono (by omega) (by omega)).trans (hag.mono (by omega) hd3))]
    rfl
  · dsimp only
    simp only [content] at hc1 ⊢
    rw [show db.buf.end - sub.buf.size + (sub.buf.end - sub.buf.start) - db.buf.start =
        (sub.buf.buf - db.buf.start) + ((sub.buf.end - sub.buf.start) + (db.buf.end - (sub.buf.buf + sub.buf.size)))
        by omega, Heap.read_add, Nat.add_sub_cancel' hs1, hread, hag.read_eq (Or.inl (by omega)),
      hag1.read_eq (Or.inl (by omega)), hc1, hag1.read_eq (Or.inr le_rfl), List.append_assoc]
  · simp [rootSize, rootOf]

section Tags

variable {grow : Nat} {ok : Bool}

theorem psDynBufBeginConstructedTag_spec {s : DynState} (hi : ChainInv s)
    (hw : rootSize s + growReq grow 0 20 < 2 ^ 64) :
    ∃ loc s', psDynBufBeginConstructedTag grow ok s = some (loc, s') ∧
      (loc ≠ 0 → ChainInv s' ∧ content s'.heap s'.top.buf = [] ∧
        frames s'.heap s'.top s'.masters = (content s.heap s.top.buf, []) :: frames s.heap s.top s.masters ∧
        rootSize s' ≤ rootSize s + growReq grow 0 20) ∧ (ok = true → loc ≠ 0) := by
  obtain ⟨loc, s1, hsi, hsucc, hok⟩ := @psDynBufSubInit_spec grow ok _ _ hi hw
  by_cases h0 : loc = 0
  · exact ⟨0, s1, by simp [psDynBufBeginConstructedTag, hsi, h0], fun h => absurd rfl h,
      fun hk => absurd h0 (hok hk)⟩
  obtain ⟨hi1, hc1, hf1, hr1, -⟩ := hsucc h0
  obtain ⟨s2, hrp, e⟩ := @psDynBufReservePrepend_spec _ 4 hi1
  refine ⟨loc, s2, by simp [psDynBufBeginConstructedTag, hsi, h0, hrp], fun _ => ⟨e.inv, ?_, ?_, ?_⟩,
    fun _ => h0⟩
  · rw [e.content_eq, hc1]; rfl
  · rw [e.frames_eq, hf1]
  · have := e.root; omega

theorem psDynBufEndConstructedTag_spec {s : DynState} {tag : UInt8} (hi : ChainInv s) (hm : s.masters ≠ [])
    (hw : rootSize s + growReq grow (lenOfTagAndLen (content s.heap s.top.buf).length) 0 < 2 ^ 64) :
    ∃ loc s', psDynBufEndConstructedTag grow ok s tag = some (loc, s') ∧
      (loc ≠ 0 → ChainInv s' ∧
        (∃ pre post, frames s.heap s.top s.masters = (pre, post) :: frames s'.heap s'.top s'.masters ∧
          content s'.heap s'.top.buf =
            pre ++ (tag :: outputLen (content s.heap s.top.buf).length ++ content s.heap s.top.buf) ++ post) ∧
        rootSize s' ≤ rootSize s + growReq grow (lenOfTagAndLen (content s.heap s.top.buf).length) 0) ∧
      (ok = true → loc ≠ 0) := by
  have hlen : s.top.buf.end - s.top.buf.start = (content s.heap s.top.buf).length := by simp [content]
  obtain ⟨t, s1, hp, hsucc, hok, hc1, hl1⟩ := @psDynBufPrependSize_spec grow ok _ _ hi hw
  have hm1 : s1.masters ≠ [] := fun h => hm (List.length_eq_zero.1 (hl1 ▸ h ▸ rfl))
  by_cases h0 : t = 0
  · obtain ⟨r, hr⟩ := psDynBufSubFinish_isSome hc1 hm1
    exact ⟨0, r.2, by simp [psDynBufEndConstructedTag, hlen, hp, h0, hr], fun h => absurd rfl h,
      fun hk => absurd h0 (hok hk)⟩
  obtain ⟨e, ht⟩ := hsucc h0
  have hbs : (tag :: outputLen (content s.heap s.top.buf).length).length =
      lenOfTagAndLen (content s.heap s.top.buf).length := by
    simpa [Nat.add_comm] using outputLen_length (content s.heap s.top.buf).length
  rw [← hbs] at e
  have e2 := e.write_start ht
  obtain ⟨loc3, s3, hf, -, hi3, ⟨pre, post, hfr, hct⟩, hr3⟩ :=
    psDynBufSubFinish_spec e2.inv (by simpa using hm1)
  refine ⟨t, s3, ?_, fun _ => ⟨hi3, ⟨pre, post, by rw [← e2.frames_eq, hfr], ?_⟩, ?_⟩, fun _ => h0⟩
  · have hw2 : (s1.heap.write t [tag]).write (t + 1) (outputLen (content s.heap s.top.buf).length) =
        s1.heap.write t (tag :: outputLen (content s.heap s.top.buf).length) := Heap.write_append _ t [tag] _
    simp [psDynBufEndConstructedTag, hlen, hp, h0, hw2, hf]
  · rw [hct, e2.content_eq, List.append_assoc]
  · rw [hr3, ← hbs]; exact e2.root

end Tags

end MatrixSsl
