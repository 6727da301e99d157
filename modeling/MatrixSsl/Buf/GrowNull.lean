import MatrixSsl.Buf.Wrap

/-!
# `psDynBufGrow` returning `NULL`

`psDynBufGrow` returns `NULL` when a buffer on the way to the root has an error
count, or when the allocator fails at the root. Before it recurses into the
master, `assert_subbuf` marks the sub-buffer's head room with `(` and its tail
room with `)`, and the debugging `memset`s mark them again with `{` and `}`;
after a `NULL` from the master the error count goes up and `assert_subbuf` runs
once more. None of this moves a buffer or touches the bytes of the buffer being
grown or of a master outside the sub-buffer's region (`psDynBufGrow_null`), but
the room of the sub-buffer lies inside its master's content, so the master's
content changes there (`grow_null_marks_sub_room`).
-/

namespace MatrixSsl

/-- The error counts after a `psDynBufGrow` that returns `NULL`: one more on
every buffer from the one grown up to the first with a count, where the walk
stops; one more on every buffer when none has one and the root's allocation
failed. -/
def bumpErrs : List DynBuf → List Int
  | [] => []
  | b :: bs => if b.err ≠ 0 then (b :: bs).map (·.err) else (b.err + 1) :: bumpErrs bs

/-- What a `psDynBufGrow` on `db`, with masters `ms` in memory `h`, that returns
`NULL` leaves in `s`: every region and pool, the content of `db` and every
frame, and the counts of `bumpErrs`. -/
structure GrowNull (h : Heap) (db : DynBuf) (ms : List DynBuf) (s : DynState) : Prop where
  regions : (s.top :: s.masters).map (fun b => (b.buf, b.pool)) = (db :: ms).map fun b => (b.buf, b.pool)
  content : content s.heap s.top.buf = content h db.buf
  frames : frames s.heap s.top s.masters = frames h db ms
  errs : (s.top :: s.masters).map (·.err) = bumpErrs (db :: ms)

theorem GrowNull.of_err {h : Heap} {db : DynBuf} {ms : List DynBuf} (herr : db.err ≠ 0) :
    GrowNull h db ms ⟨h, db, ms⟩ :=
  ⟨rfl, rfl, rfl, by simp [bumpErrs, herr]⟩

theorem GrowNull.err_ne {h : Heap} {db : DynBuf} {ms : List DynBuf} {s : DynState}
    (g : GrowNull h db ms s) : s.top.err ≠ 0 := by
  have e := congrArg List.head? g.errs
  by_cases h0 : db.err = 0
  · simp only [List.map_cons, List.head?_cons, bumpErrs, h0, ne_eq, not_true_eq_false, if_false,
      Option.some.injEq] at e
    rw [e]; decide
  · simp only [List.map_cons, List.head?_cons, bumpErrs, h0, ne_eq, not_false_eq_true, if_true,
      Option.some.injEq] at e
    rwa [e]

theorem GrowNull.top_buf {h : Heap} {db : DynBuf} {ms : List DynBuf} {s : DynState}
    (g : GrowNull h db ms s) : s.top.buf = db.buf := by
  have e := congrArg List.head? g.regions
  simp only [List.map_cons, List.head?_cons, Option.some.injEq, Prod.mk.injEq] at e
  exact e.1

theorem ChainOk.of_regions {ms : List DynBuf} :
    ∀ {db db' : DynBuf} {ms' : List DynBuf}, ChainOk db ms →
      (db' :: ms').map (fun b => (b.buf, b.pool)) = (db :: ms).map (fun b => (b.buf, b.pool)) →
      ChainOk db' ms' := by
  induction ms with
  | nil =>
    intro db db' ms' hc he
    simp only [List.map_cons, List.map_nil, List.cons.injEq, Prod.mk.injEq, List.map_eq_nil_iff] at he
    obtain ⟨⟨hb, -⟩, rfl⟩ := he
    show BufOk _
    rw [hb]; exact hc
  | cons m ms ih =>
    intro db db' ms' hc he
    cases ms' with
    | nil => simp at he
    | cons m' ms' =>
      simp only [List.map_cons, List.cons.injEq, Prod.mk.injEq] at he
      obtain ⟨⟨hb, hp⟩, ⟨hmb, hmp⟩, hrest⟩ := he
      obtain ⟨hbo, ⟨hsp, hs1, hs2⟩, hm⟩ := hc
      refine ⟨hb ▸ hbo, ⟨hp ▸ hsp, hb ▸ hmb ▸ hs1, hb ▸ hmb ▸ hs2⟩, ih hm ?_⟩
      simp only [List.map_cons, hmb, hmp, hrest]

theorem frame_of_agree {h h' : Heap} {sub db : DynBuf} (hs : SubOk sub db)
    (hg : h.Agree h' sub.buf.buf (sub.buf.buf + sub.buf.size)) :
    frame h' sub.buf db.buf = frame h sub.buf db.buf := by
  obtain ⟨-, h1, h2⟩ := hs
  simp only [frame]
  rw [hg.read_eq (Or.inl (by omega)), hg.read_eq (Or.inr le_rfl)]

theorem frame_of_content {h h' : Heap} {sub db : DynBuf} (hs : SubOk sub db)
    (he : content h db.buf = content h' db.buf) : frame h sub.buf db.buf = frame h' sub.buf db.buf := by
  obtain ⟨-, h1, h2⟩ := hs
  simp only [frame]
  rw [Heap.read_inner he le_rfl (by omega), Heap.read_inner he (by omega) (by omega)]

theorem content_of_content {h h' : Heap} {sub db : DynBuf} (hb : BufOk sub.buf) (hs : SubOk sub db)
    (he : content h db.buf = content h' db.buf) : content h sub.buf = content h' sub.buf := by
  obtain ⟨h1, h2, h3⟩ := hb
  obtain ⟨-, h4, h5⟩ := hs
  exact Heap.read_inner he (by omega) (by omega)

section Grow

variable {grow : Nat} {ok : Bool}

theorem psDynBufGrow_nil_null {h : Heap} {db : DynBuf} {head tail : Nat} {s : DynState}
    (herr : db.err = 0) (hg : psDynBufGrow grow ok h db [] head tail = some (0, s)) :
    s = ⟨h, { db with err := db.err + 1 }, []⟩ := by
  cases ok with
  | false =>
    simp only [psDynBufGrow, herr, ne_eq, not_true_eq_false, if_false, psBufInit, Heap.psMalloc,
      Bool.false_eq_true, if_true, Option.some.injEq, Prod.mk.injEq] at hg
    rw [herr]; exact hg.2.symm
  | true =>
    rw [psDynBufGrow_nil_alloc herr] at hg
    have hn := h.next_pos
    dsimp only at hg
    split_ifs at hg with h1 h2 <;> simp only [Option.some.injEq, Prod.mk.injEq, reduceCtorEq] at hg <;> omega

/-- Every `psDynBufGrow` that returns `NULL`, on a chain in order or on a
buffer with an error count, keeps the regions, the content of the buffer grown
and every frame, and raises the counts of `bumpErrs`. -/
theorem psDynBufGrow_null {ms : List DynBuf} : ∀ {h : Heap} {db : DynBuf} {head tail : Nat}
    {s : DynState}, db.err ≠ 0 ∨ ChainOk db ms →
      psDynBufGrow grow ok h db ms head tail = some (0, s) → GrowNull h db ms s := by
  induction ms with
  | nil =>
    intro h db head tail s _ hg
    by_cases herr : db.err = 0
    · rw [psDynBufGrow_nil_null herr hg]
      exact ⟨rfl, rfl, rfl, by simp [bumpErrs, herr]⟩
    · rw [psDynBufGrow_of_err herr] at hg
      cases hg
      exact GrowNull.of_err herr
  | cons m ms ih =>
    intro h db head tail s hc hg
    by_cases herr : db.err = 0
    swap
    · rw [psDynBufGrow_of_err herr] at hg
      cases hg
      exact GrowNull.of_err herr
    obtain ⟨hb, hs, hm⟩ := hc.resolve_left (not_not.2 herr)
    have hmb := hm.bufOk
    obtain ⟨h1, ha, hag1, hc1⟩ := assertSubbuf_spec (h := h) hb hs
    obtain ⟨hag2, hc2⟩ := @memset_room_spec db.buf hb (db.buf.start - db.buf.buf)
      (db.buf.buf + db.buf.size - db.buf.end) (by have := hb.1; omega) (by have := hb.2.2; omega) h1 0x7B 0x7D
    rw [psDynBufGrow.eq_2] at hg
    simp only [herr, ne_eq, not_true_eq_false, if_false, ha, Option.bind_eq_bind, Option.some_bind] at hg
    generalize (h1.memset db.buf.buf 0x7B (db.buf.start - db.buf.buf)).memset db.buf.end 0x7D
      (db.buf.buf + db.buf.size - db.buf.end) = H2 at hg hag2 hc2
    cases hgm : psDynBufGrow grow ok H2 m ms 0 (sizeT (roundHead grow head + roundTail grow tail)) with
    | none => rw [hgm] at hg; cases hg
    | some r =>
      obtain ⟨loc, g⟩ := r
      rw [hgm, Option.some_bind] at hg
      by_cases hloc : loc = 0
      swap
      · rw [if_neg hloc] at hg
        obtain ⟨_, -, e⟩ := Option.bind_eq_some.1 hg
        exact absurd (Prod.mk.inj (Option.some.inj e)).1 hloc
      subst hloc
      have G := ih (Or.inr hm) hgm
      have hgb := G.top_buf
      have hsub : SubOk ⟨db.buf, db.pool, 0 + 1⟩ g.top := ⟨hs.1, hgb ▸ hs.2.1, hgb ▸ hs.2.2⟩
      rw [if_pos rfl] at hg
      dsimp only at hg
      rw [assertSubbuf_of_ok hsub] at hg
      cases hg
      obtain ⟨hag3, hc3⟩ := @memset_room_spec db.buf hb (db.buf.start - db.buf.buf)
        (db.buf.buf + db.buf.size - db.buf.end) (by have := hb.1; omega) (by have := hb.2.2; omega)
        g.heap 0x28 0x29
      have hgc : content g.heap m.buf = content H2 m.buf := hgb ▸ G.content
      have hag : h.Agree H2 db.buf.buf (db.buf.buf + db.buf.size) := hag1.trans hag2
      have hin : m.buf.buf ≤ db.buf.buf ∧ db.buf.buf + db.buf.size ≤ m.buf.buf + m.buf.size := by
        obtain ⟨-, hs1, hs2⟩ := hs
        obtain ⟨hm1, hm2, hm3⟩ := hmb
        omega
      refine ⟨congrArg (List.cons (db.buf, db.pool)) G.regions, ?_, ?_, ?_⟩
      · show content _ db.buf = _
        rw [hc3, content_of_content hb hs hgc, hc2, hc1]
      · show frame _ db.buf g.top.buf :: frames _ g.top g.masters = frame h db.buf m.buf :: frames h m ms
        rw [hgb, frame_of_agree hs hag3, frame_of_content hs hgc, frame_of_agree hs hag,
          frames_congr (hm.of_regions G.regions) (hag3.mono (hgb ▸ hin.1) (hgb ▸ hin.2)), G.frames,
          frames_congr hm (hag.mono hin.1 hin.2)]
      · show (0 + 1) :: (g.top :: g.masters).map (·.err) = _
        rw [G.errs]
        simp [bumpErrs, herr]

theorem psBufAppendSize_null {b : PsBuf Nat} {sz : Nat} (hb : BufOk b) (hnull : b.buf = 0 → b.size = 0)
    (h : (psBufAppendSize b sz).1 = 0) : (psBufAppendSize b sz).2 = b := by
  obtain ⟨buf, start, e, size⟩ := b
  obtain ⟨h1, h2, h3⟩ := hb
  dsimp only at h1 h2 h3 hnull
  unfold psBufAppendSize at h ⊢
  split_ifs at h ⊢ with hfit
  · dsimp only at h hfit ⊢
    have := hnull (by omega)
    simp only [PsBuf.mk.injEq, true_and, and_true]
    omega
  · rfl

theorem psBufPrependSize_null {b : PsBuf Nat} {sz : Nat} (hb : BufOk b) (hnull : b.buf = 0 → b.size = 0)
    (h : (psBufPrependSize b sz).1 = 0) : (psBufPrependSize b sz).2 = b := by
  obtain ⟨buf, start, e, size⟩ := b
  obtain ⟨h1, h2, h3⟩ := hb
  dsimp only at h1 h2 h3 hnull
  unfold psBufPrependSize at h ⊢
  split_ifs at h ⊢ with hfit
  · dsimp only at h hfit ⊢
    have := hnull (by omega)
    simp only [PsBuf.mk.injEq, true_and, and_true]
    omega
  · rfl

theorem bind_then_null {x : Option (Nat × DynState)} {s' : DynState}
    {k : Nat × DynState → Option (Nat × DynState)} (hk : ∀ p r, p.1 ≠ 0 → k p = some r → r.1 ≠ 0)
    (h : (x.bind fun p => if p.1 = 0 then some (0, p.2) else k p) = some (0, s')) : x = some (0, s') := by
  obtain ⟨⟨g, s₁⟩, hx, hr⟩ := Option.bind_eq_some.1 h
  by_cases hg0 : g = 0
  · rw [if_pos hg0] at hr
    cases hr
    exact hg0 ▸ hx
  · rw [if_neg hg0] at hr
    exact absurd rfl (hk _ _ hg0 hr)

theorem grow_then_null {h : Heap} {db : DynBuf} {ms : List DynBuf} {head tail : Nat} {s' : DynState}
    {k : Nat × DynState → Option (Nat × DynState)} (hc : db.err ≠ 0 ∨ ChainOk db ms)
    (hk : ∀ x r, x.1 ≠ 0 → k x = some r → r.1 ≠ 0)
    (hg : (psDynBufGrow grow ok h db ms head tail).bind
      (fun x => if x.1 = 0 then some (0, x.2) else k x) = some (0, s')) : GrowNull h db ms s' :=
  psDynBufGrow_null hc (bind_then_null hk hg)

theorem retry_ne_null {c : Prop} [Decidable c] {x r : Nat × DynState} (hr : (if c then none else some x) = some r)
    (hx : ¬c → x.1 ≠ 0) : r.1 ≠ 0 := by
  split_ifs at hr with h0
  cases hr
  exact hx h0

theorem psDynBufAppendSize_null {s s' : DynState} {sz : Nat} (hb : BufOk s.top.buf)
    (hnull : s.top.buf.buf = 0 → s.top.buf.size = 0) (hc : s.top.err ≠ 0 ∨ ChainOk s.top s.masters)
    (h : psDynBufAppendSize grow ok s sz = some (0, s')) : GrowNull s.heap s.top s.masters s' := by
  unfold psDynBufAppendSize at h
  generalize hp : psBufAppendSize s.top.buf sz = p at h
  obtain ⟨loc, b⟩ := p
  by_cases hl : loc = 0
  swap
  · simp [hl] at h
  have hb' := psBufAppendSize_null hb hnull (by rw [hp]; exact hl)
  rw [hp] at hb'
  subst hl hb'
  simp only [ne_eq, not_true_eq_false, if_false, Option.bind_eq_bind] at h
  refine grow_then_null hc ?_ h
  exact fun _ _ _ hr => retry_ne_null hr id

theorem psDynBufPrependSize_null {s s' : DynState} {sz : Nat} (hb : BufOk s.top.buf)
    (hnull : s.top.buf.buf = 0 → s.top.buf.size = 0) (hc : s.top.err ≠ 0 ∨ ChainOk s.top s.masters)
    (h : psDynBufPrependSize grow ok s sz = some (0, s')) : GrowNull s.heap s.top s.masters s' := by
  unfold psDynBufPrependSize at h
  generalize hp : psBufPrependSize s.top.buf sz = p at h
  obtain ⟨loc, b⟩ := p
  by_cases hl : loc = 0
  swap
  · simp [hl] at h
  have hb' := psBufPrependSize_null hb hnull (by rw [hp]; exact hl)
  rw [hp] at hb'
  subst hl hb'
  simp only [ne_eq, not_true_eq_false, if_false, Option.bind_eq_bind] at h
  refine grow_then_null hc ?_ h
  exact fun _ _ _ hr => retry_ne_null hr id

theorem psDynBufAppendAsn1TagGen_null {s s' : DynState} {tag : UInt8} {bytes : List UInt8}
    (h : psDynBufAppendAsn1TagGen grow ok s tag bytes = some (0, s')) :
    psDynBufAppendSize grow ok s (sizeT (bytes.length + lenOfTagAndLen bytes.length)) = some (0, s') := by
  unfold psDynBufAppendAsn1TagGen at h
  simp only [Option.bind_eq_bind] at h
  refine bind_then_null ?_ h
  intro _ _ hp hr
  cases hr
  exact hp

theorem psDynBufSubInit_null {s s' : DynState} {cap : Nat}
    (h : psDynBufSubInit grow ok s cap = some (0, s')) :
    ∃ s₁, psDynBufAppendSize grow ok s cap = some (0, s₁) ∧
      s' = ⟨s₁.heap, ⟨⟨0, 0, 0, 0⟩, 0, 1⟩, { s₁.top with err := s₁.top.err + 1 } :: s₁.masters⟩ := by
  unfold psDynBufSubInit at h
  obtain ⟨⟨mem, s₁⟩, ha, hr⟩ := Option.bind_eq_some.1 h
  dsimp only at hr
  by_cases hm : mem = 0
  · subst hm
    rw [if_neg (not_not.2 rfl)] at hr
    cases hr
    exact ⟨s₁, ha, rfl⟩
  · rw [if_pos hm] at hr
    obtain ⟨_, -, e⟩ := Option.bind_eq_some.1 hr
    exact absurd (Prod.mk.inj (Option.some.inj e)).1 hm

/-- The innermost buffer of every chain a run reaches, failed sub-buffers
included: in order, with no room when at `NULL`, and the chain laid out unless
the buffer has an error count. -/
structure Shaped (s : DynState) : Prop where
  top : BufOk s.top.buf
  null : s.top.buf.buf = 0 → s.top.buf.size = 0
  chain : s.top.err ≠ 0 ∨ ChainOk s.top s.masters

theorem ChainInv.shaped {s : DynState} (hi : ChainInv s) : Shaped s :=
  ⟨hi.chain.bufOk, fun h => absurd h (hi.chain.buf_pos hi.alloc).ne', Or.inr hi.chain⟩

/-- Every `NULL` from `psDynBufGrow`, and from the operations that grow, on a
chain that is shaped: every buffer keeps its region and its pool, the buffer
operated on keeps its content, every master keeps its content outside the open
sub-buffer's region, and the counts go up as `bumpErrs` says, so that the
buffer operated on has a count afterwards. A failed `psDynBufSubInit` opens an
empty sub-buffer in error on top of that. -/
theorem grow_null_keeps_regions_and_frames :
    (∀ h db ms head tail s, db.err ≠ 0 ∨ ChainOk db ms →
      psDynBufGrow grow ok h db ms head tail = some (0, s) → GrowNull h db ms s ∧ s.top.err ≠ 0) ∧
    (∀ s s' sz, Shaped s → psDynBufAppendSize grow ok s sz = some (0, s') →
      GrowNull s.heap s.top s.masters s' ∧ s'.top.err ≠ 0) ∧
    (∀ s s' sz, Shaped s → psDynBufPrependSize grow ok s sz = some (0, s') →
      GrowNull s.heap s.top s.masters s' ∧ s'.top.err ≠ 0) ∧
    (∀ s s' tag bytes, Shaped s → psDynBufAppendAsn1TagGen grow ok s tag bytes = some (0, s') →
      GrowNull s.heap s.top s.masters s' ∧ s'.top.err ≠ 0) ∧
    (∀ s s' cap, Shaped s → psDynBufSubInit grow ok s cap = some (0, s') →
      ∃ s₁, GrowNull s.heap s.top s.masters s₁ ∧
        s' = ⟨s₁.heap, ⟨⟨0, 0, 0, 0⟩, 0, 1⟩, { s₁.top with err := s₁.top.err + 1 } :: s₁.masters⟩) := by
  have append : ∀ s s' sz, Shaped s → psDynBufAppendSize grow ok s sz = some (0, s') →
      GrowNull s.heap s.top s.masters s' := fun _ _ _ hs h => psDynBufAppendSize_null hs.top hs.null hs.chain h
  refine ⟨fun _ _ _ _ _ _ hc h => ?_, fun _ _ _ hs h => ?_, fun _ _ _ hs h => ?_,
    fun _ _ _ _ hs h => ?_, fun _ _ _ hs h => ?_⟩
  · have g := psDynBufGrow_null hc h; exact ⟨g, g.err_ne⟩
  · have g := append _ _ _ hs h; exact ⟨g, g.err_ne⟩
  · have g := psDynBufPrependSize_null hs.top hs.null hs.chain h; exact ⟨g, g.err_ne⟩
  · have g := append _ _ _ hs (psDynBufAppendAsn1TagGen_null h); exact ⟨g, g.err_ne⟩
  · obtain ⟨s₁, ha, rfl⟩ := psDynBufSubInit_null h
    exact ⟨s₁, append _ _ _ hs ha, rfl⟩

theorem grow_null_keeps_regions_and_frames_in_tag :
    ∃ s', psDynBufAppendSize 8 false ⟨⟨fun _ => 0, 30, by decide⟩, ⟨⟨1, 5, 5, 20⟩, 0, 0⟩,
        [⟨⟨1, 1, 21, 29⟩, 7, 0⟩]⟩ 100 = some (0, s') ∧
      GrowNull ⟨fun _ => 0, 30, by decide⟩ ⟨⟨1, 5, 5, 20⟩, 0, 0⟩ [⟨⟨1, 1, 21, 29⟩, 7, 0⟩] s' ∧
      s'.top.err ≠ 0 := by
  have hs : Shaped ⟨⟨fun _ => 0, 30, by decide⟩, ⟨⟨1, 5, 5, 20⟩, 0, 0⟩, [⟨⟨1, 1, 21, 29⟩, 7, 0⟩]⟩ :=
    ⟨⟨by decide, by decide, by decide⟩, by decide, Or.inr ⟨show BufOk _ from ⟨by decide, by decide, by decide⟩,
      ⟨rfl, by decide, by decide⟩, show BufOk _ from ⟨by decide, by decide, by decide⟩⟩⟩
  have e0 : (psDynBufAppendSize 8 false ⟨⟨fun _ => 0, 30, by decide⟩, ⟨⟨1, 5, 5, 20⟩, 0, 0⟩,
      [⟨⟨1, 1, 21, 29⟩, 7, 0⟩]⟩ 100).map Prod.fst = some 0 := rfl
  obtain ⟨⟨_, s'⟩, e, rfl⟩ := Option.map_eq_some'.1 e0
  exact ⟨s', e, (@grow_null_keeps_regions_and_frames 8 false).2.1 _ s' 100 hs e⟩

/-- Inside an open constructed tag, whose sub-buffer has four bytes of head room
and sixteen of tail room in the root's content, an append of `100` bytes with the
allocator failing returns `NULL`; the root keeps its region, but its content,
twenty bytes of `)` before, is now four bytes of `(` and sixteen of `)`. -/
theorem grow_null_marks_sub_room :
    ((dynRun 8 (psDynBufInit true ⟨fun _ => 0, 1, Nat.one_pos⟩ 7 29).2
        [(.beginConstructedTag, true)]).map fun s =>
          (s.masters.map (·.buf), s.masters.map fun m => content s.heap m.buf)) =
      some ([⟨1, 1, 21, 29⟩], [List.replicate 20 0x29]) ∧
    ((dynRun 8 (psDynBufInit true ⟨fun _ => 0, 1, Nat.one_pos⟩ 7 29).2
        [(.beginConstructedTag, true)]).bind fun s => dynStep 8 false s (.appendSize 100)).map
          (fun r => (r.1, r.2.masters.map (·.buf), r.2.masters.map fun m => content r.2.heap m.buf)) =
      some (0, [⟨1, 1, 21, 29⟩], [List.replicate 4 0x28 ++ List.replicate 16 0x29]) :=
  ⟨rfl, rfl⟩

end Grow
end MatrixSsl
