import MatrixSsl.Buf.Dyn

/-!
# The layout of a chain of dynamic buffers

`ChainOk` is what the code relies on: every buffer has `buf ≤ start ≤ end ≤
buf + size`, and every open sub-buffer has no pool and its whole region inside
its master's content, which is what `assert_subbuf` checks. Over it, a chain
means two things: the `content` of the innermost buffer, and for every master
its `frame`, the content before and after the region of the buffer inside it.

`psDynBufGrow_spec` is the specification of `psDynBufGrow`, by induction on the
chain: it never fails an `assert` while no `size_t` sum wraps, and when it
returns a location it has kept the chain in shape, the content and every frame,
and widened the head and tail room by the rounded amounts (`Grown`); the root
grows by their sum. When it returns `NULL` it has left every region as it was.
-/

namespace MatrixSsl

/-- `buf ≤ start ≤ end ≤ buf + size`. -/
def BufOk (b : PsBuf Nat) : Prop := b.buf ≤ b.start ∧ b.start ≤ b.end ∧ b.end ≤ b.buf + b.size

/-- What `assert_subbuf` checks of `sub` and its master `db`. -/
def SubOk (sub db : DynBuf) : Prop :=
  sub.pool = 0 ∧ db.buf.start ≤ sub.buf.buf ∧ sub.buf.buf + sub.buf.size ≤ db.buf.end

def ChainOk : DynBuf → List DynBuf → Prop
  | db, [] => BufOk db.buf
  | db, m :: ms => BufOk db.buf ∧ SubOk db m ∧ ChainOk m ms

/-- The root of a chain. -/
def rootOf : DynBuf → List DynBuf → DynBuf
  | db, [] => db
  | _, m :: ms => rootOf m ms

/-- The bytes in `[start, end)`. -/
def content (h : Heap) (b : PsBuf Nat) : List UInt8 := h.read b.start (b.end - b.start)

/-- The master's content before and after the region of `sub`. -/
def frame (h : Heap) (sub db : PsBuf Nat) : List UInt8 × List UInt8 :=
  (h.read db.start (sub.buf - db.start), h.read (sub.buf + sub.size) (db.end - (sub.buf + sub.size)))

def frames (h : Heap) : DynBuf → List DynBuf → List (List UInt8 × List UInt8)
  | _, [] => []
  | db, m :: ms => frame h db.buf m.buf :: frames h m ms

/-- The room `psDynBufGrow` adds. -/
def growReq (grow head tail : Nat) : Nat := roundHead grow head + roundTail grow tail

theorem sizeT_of_lt {n : Nat} (h : n < 2 ^ 64) : sizeT n = n := Nat.mod_eq_of_lt h

theorem le_roundHead (grow head : Nat) : head ≤ roundHead grow head := by
  unfold roundHead; split_ifs <;> omega

theorem le_roundTail (grow tail : Nat) : tail ≤ roundTail grow tail := by
  unfold roundTail; split_ifs <;> omega

theorem grow_le_roundTail (grow tail : Nat) : grow ≤ roundTail grow tail := by
  unfold roundTail; split_ifs <;> omega

@[simp] theorem roundHead_zero (grow : Nat) : roundHead grow 0 = 0 := by simp [roundHead]

theorem roundTail_of_ge {grow tail : Nat} (h : grow ≤ tail) : roundTail grow tail = tail := by
  simp [roundTail, Nat.not_lt.2 h]

theorem ChainOk.bufOk {db : DynBuf} {ms : List DynBuf} (h : ChainOk db ms) : BufOk db.buf := by
  cases ms with
  | nil => exact h
  | cons _ _ => exact h.1

theorem ChainOk.size_le_root {ms : List DynBuf} :
    ∀ {db : DynBuf}, ChainOk db ms → db.buf.size ≤ (rootOf db ms).buf.size := by
  induction ms with
  | nil => intro db _; exact le_refl _
  | cons m ms ih =>
    rintro db ⟨-, ⟨-, hs, he⟩, hm⟩
    have := ih hm
    have := hm.bufOk
    simp only [rootOf, BufOk] at *
    omega

theorem ChainOk.end_le_root {ms : List DynBuf} :
    ∀ {db : DynBuf}, ChainOk db ms →
      db.buf.buf + db.buf.size ≤ (rootOf db ms).buf.buf + (rootOf db ms).buf.size := by
  induction ms with
  | nil => intro db _; exact le_refl _
  | cons m ms ih =>
    rintro db ⟨-, ⟨-, -, he⟩, hm⟩
    have := ih hm
    have := hm.bufOk
    simp only [rootOf, BufOk] at *
    omega

@[simp] theorem frames_length (h : Heap) {ms : List DynBuf} : ∀ {db : DynBuf}, (frames h db ms).length = ms.length := by
  induction ms with
  | nil => intro _; rfl
  | cons m ms ih => intro _; simp [frames, ih]

theorem frames_congr {h h' : Heap} {ms : List DynBuf} :
    ∀ {db : DynBuf}, ChainOk db ms → h.Agree h' db.buf.buf (db.buf.buf + db.buf.size) →
      frames h' db ms = frames h db ms := by
  induction ms with
  | nil => intro _ _ _; rfl
  | cons m ms ih =>
    rintro db ⟨-, ⟨-, hs, he⟩, hm⟩ hg
    have hmok := hm.bufOk
    simp only [BufOk] at hmok
    simp only [frames, frame]
    rw [hg.read_eq (Or.inl (by omega)), hg.read_eq (Or.inr le_rfl),
      ih hm (hg.mono (by omega) (by omega))]

theorem memset_room_spec {b : PsBuf Nat} (hb : BufOk b) {n k : Nat} (hn : b.buf + n = b.start)
    (hk : b.end + k = b.buf + b.size) (h : Heap) (c c' : UInt8) :
    h.Agree ((h.memset b.buf c n).memset b.end c' k) b.buf (b.buf + b.size) ∧
      content ((h.memset b.buf c n).memset b.end c' k) b = content h b := by
  obtain ⟨h1, h2, h3⟩ := hb
  refine ⟨(Heap.agree_memset le_rfl (by omega)).trans (Heap.agree_memset (by omega) (by omega)), ?_⟩
  simp only [content]
  rw [Heap.memset_read_of_disjoint (Or.inl (by omega)), Heap.memset_read_of_disjoint (Or.inr (by omega))]

theorem assertSubbuf_of_ok {h : Heap} {sub db : DynBuf} (hs : SubOk sub db) :
    assertSubbuf h sub db = some ((h.memset sub.buf.buf 0x28 (sub.buf.start - sub.buf.buf)).memset
      sub.buf.end 0x29 (sub.buf.buf + sub.buf.size - sub.buf.end)) := by
  obtain ⟨hp, h1, h2⟩ := hs
  exact if_pos ⟨hp, h1, by omega, by omega, h2⟩

theorem assertSubbuf_spec {h : Heap} {sub db : DynBuf} (hb : BufOk sub.buf) (hs : SubOk sub db) :
    ∃ h', assertSubbuf h sub db = some h' ∧ h.Agree h' sub.buf.buf (sub.buf.buf + sub.buf.size) ∧
      content h' sub.buf = content h sub.buf :=
  ⟨_, assertSubbuf_of_ok hs, memset_room_spec hb (by have := hb.1; omega)
    (by have := hb.2.2; omega) h 0x28 0x29⟩

theorem ChainOk.with_region {db : DynBuf} {ms : List DynBuf} {st en : Nat} (h : ChainOk db ms)
    (hb : BufOk { db.buf with start := st, «end» := en }) :
    ChainOk { db with buf := { db.buf with start := st, «end» := en } } ms := by
  cases ms with
  | nil => exact hb
  | cons m ms => exact ⟨hb, h.2.1, h.2.2⟩

@[simp] theorem frames_with_region (h : Heap) (db : DynBuf) (ms : List DynBuf) (st en : Nat) :
    frames h { db with buf := { db.buf with start := st, «end» := en } } ms = frames h db ms := by
  cases ms <;> rfl

@[simp] theorem rootOf_with_region_size (db : DynBuf) (ms : List DynBuf) (st en : Nat) :
    (rootOf { db with buf := { db.buf with start := st, «end» := en } } ms).buf.size =
      (rootOf db ms).buf.size := by
  cases ms <;> rfl

@[simp] theorem rootOf_with_region_buf (db : DynBuf) (ms : List DynBuf) (st en : Nat) :
    (rootOf { db with buf := { db.buf with start := st, «end» := en } } ms).buf.buf =
      (rootOf db ms).buf.buf := by
  cases ms <;> rfl

/-- What a successful `psDynBufGrow` with `head` and `tail` on `db`, with masters
`ms` in memory `h`, leaves in `s`. -/
structure Grown (grow head tail : Nat) (h : Heap) (db : DynBuf) (ms : List DynBuf) (s : DynState) :
    Prop where
  chain : ChainOk s.top s.masters
  content : content s.heap s.top.buf = content h db.buf
  frames : frames s.heap s.top s.masters = frames h db ms
  headroom : s.top.buf.start - s.top.buf.buf = db.buf.start - db.buf.buf + roundHead grow head
  tailroom : s.top.buf.buf + s.top.buf.size - s.top.buf.end =
    db.buf.buf + db.buf.size - db.buf.end + roundTail grow tail
  filled : s.top.buf.end - s.top.buf.start = db.buf.end - db.buf.start
  counts : (s.top :: s.masters).map (fun b => (b.pool, b.err)) = (db :: ms).map fun b => (b.pool, b.err)
  root : (rootOf s.top s.masters).buf.size = (rootOf db ms).buf.size + growReq grow head tail
  alloc : 0 < (rootOf s.top s.masters).buf.buf

/-- What a `psDynBufGrow` that returns `NULL` leaves: the regions as they were,
and as many masters. -/
def GrowFailed (db : DynBuf) (ms : List DynBuf) (s : DynState) : Prop :=
  s.top.buf = db.buf ∧ s.top.pool = db.pool ∧ ChainOk s.top s.masters ∧ s.masters.length = ms.length

theorem psBufAppendSize_of_le {b : PsBuf Nat} {sz : Nat} (h : b.end + sz ≤ b.buf + b.size) :
    psBufAppendSize b sz = (b.end, { b with «end» := b.end + sz }) := if_pos h

theorem psBufReservePrepend_fresh {p n k : Nat} (hk : k ≤ n) :
    psBufReservePrepend ⟨p, p, p, n⟩ k = some ⟨p, p + k, p + k, n⟩ := by
  simp [psBufReservePrepend, hk]

section Grow

variable {grow : Nat} {ok : Bool}

theorem psDynBufGrow_of_err {h : Heap} {db : DynBuf} {ms : List DynBuf} {head tail : Nat}
    (herr : db.err ≠ 0) : psDynBufGrow grow ok h db ms head tail = some (0, ⟨h, db, ms⟩) := by
  cases ms <;> simp [psDynBufGrow, herr]

theorem psDynBufGrow_nil {h : Heap} {db : DynBuf} {head tail : Nat} (hb : BufOk db.buf)
    (herr : db.err = 0) (hwrap : db.buf.size + growReq grow head tail < 2 ^ 64) :
    psDynBufGrow grow ok h db [] head tail =
      if ok then
        let p := h.next
        let hd := roundHead grow head + (db.buf.start - db.buf.buf)
        let filled := db.buf.end - db.buf.start
        some (p + hd, ⟨(h.psMalloc true (db.buf.size + growReq grow head tail)).2.memcpy (p + hd)
          db.buf.start filled, { db with buf := ⟨p, p + hd, p + hd + filled,
            db.buf.size + growReq grow head tail⟩ }, []⟩)
      else some (0, ⟨h, { db with err := db.err + 1 }, []⟩) := by
  obtain ⟨h1, h2, h3⟩ := hb
  have hn := h.next_pos
  unfold growReq at hwrap ⊢
  have e1 : sizeT (roundHead grow head + (db.buf.start - db.buf.buf)) =
      roundHead grow head + (db.buf.start - db.buf.buf) := sizeT_of_lt (by omega)
  have e2 : sizeT (roundTail grow tail + (db.buf.buf + db.buf.size - db.buf.end)) =
      roundTail grow tail + (db.buf.buf + db.buf.size - db.buf.end) := sizeT_of_lt (by omega)
  have e3 : sizeT (roundHead grow head + (db.buf.start - db.buf.buf) + (db.buf.end - db.buf.start) +
      (roundTail grow tail + (db.buf.buf + db.buf.size - db.buf.end))) =
      db.buf.size + (roundHead grow head + roundTail grow tail) := sizeT_of_lt (by omega) |>.trans (by omega)
  cases ok with
  | false => simp [psDynBufGrow, herr, psBufInit, Heap.psMalloc]
  | true =>
    simp only [psDynBufGrow, herr, ne_eq, not_true_eq_false, if_false, e1, e2, e3, psBufInit,
      Heap.psMalloc, if_true]
    have hn' : h.next ≠ 0 := Nat.pos_iff_ne_zero.1 hn
    simp only [hn', not_false_eq_true, if_true, if_false, psBufReservePrepend_fresh (by omega : 
      roundHead grow head + (db.buf.start - db.buf.buf) ≤ db.buf.size + (roundHead grow head + roundTail grow tail)),
      Option.bind_eq_bind, Option.some_bind]
    rw [psBufAppendSize_of_le (by simp only; omega)]
    simp [hn']

theorem psDynBufGrow_nil_spec {h : Heap} {db : DynBuf} {head tail : Nat} (hb : BufOk db.buf)
    (hwrap : db.buf.size + growReq grow head tail < 2 ^ 64) :
    ∃ loc s, psDynBufGrow grow ok h db [] head tail = some (loc, s) ∧
      (loc = 0 → GrowFailed db [] s) ∧ (loc ≠ 0 → Grown grow head tail h db [] s) ∧
      (ok = true → db.err = 0 → loc ≠ 0) := by
  by_cases herr : db.err = 0
  · rw [psDynBufGrow_nil hb herr hwrap]
    have hn := h.next_pos
    cases ok with
    | false => exact ⟨_, _, rfl, fun _ => ⟨rfl, rfl, hb, rfl⟩, fun h => absurd rfl h, fun h => absurd h (by decide)⟩
    | true =>
      obtain ⟨h1, h2, h3⟩ := hb
      refine ⟨_, _, rfl, fun h0 => absurd h0 (by omega), fun _ => ⟨?_, ?_, rfl, ?_, ?_, ?_, rfl, rfl, hn⟩,
        fun _ _ => by omega⟩
      · simp only [ChainOk, BufOk]; unfold growReq; omega
      · simp only [content, Nat.add_sub_cancel_left, Heap.memcpy, Heap.memmove_read_self, Heap.psMalloc_read]
      · simp only; omega
      · simp only; unfold growReq; omega
      · simp only; omega
  · rw [psDynBufGrow_of_err herr]
    exact ⟨0, _, rfl, fun _ => ⟨rfl, rfl, hb, rfl⟩, fun h => absurd rfl h, fun _ h => absurd h herr⟩

theorem grown_of_sub_moves {h h2 G H4 H5 Hf : Heap} {db m M : DynBuf} {ms GS : List DynBuf}
    {head tail hr tr hd fl A ot : Nat} (hrh : roundHead grow head = hr) (hrt : roundTail grow tail = tr)
    (hhd : db.buf.start - db.buf.buf = hd) (hfl : db.buf.end - db.buf.start = fl)
    (hc : ChainOk db (m :: ms)) (herr : db.err = 0) (hag : h.Agree h2 db.buf.buf (db.buf.buf + db.buf.size))
    (hcont : content h2 db.buf = content h db.buf) (g : Grown grow 0 (hr + tr) h2 m ms ⟨G, M, GS⟩)
    (hA : M.buf.start + (db.buf.buf - m.buf.start) = A) (hot : m.buf.end - (db.buf.buf + db.buf.size) = ot)
    (h4agree : G.Agree H4 (A + db.buf.size) (M.buf.end + (hr + tr)))
    (h4post : H4.read (A + db.buf.size + (hr + tr)) ot = G.read (A + db.buf.size) ot)
    (h5agree : H4.Agree H5 A (A + db.buf.size + (hr + tr)))
    (h5cont : H5.read (A + hd + hr) fl = H4.read (A + hd) fl)
    (hfagree : H5.Agree Hf A (A + (db.buf.size + (hr + tr))))
    (hfcont : content Hf ⟨A, A + hd + hr, A + hd + hr + fl, db.buf.size + (hr + tr)⟩ =
      content H5 ⟨A, A + hd + hr, A + hd + hr + fl, db.buf.size + (hr + tr)⟩) :
    Grown grow head tail h db (m :: ms) ⟨Hf, ⟨⟨A, A + hd + hr, A + hd + hr + fl, db.buf.size + (hr + tr)⟩,
      db.pool, 0⟩, ⟨⟨M.buf.buf, M.buf.start, M.buf.end + (hr + tr), M.buf.size⟩, M.pool, M.err⟩ :: GS⟩ := by
  obtain ⟨⟨hb1, hb2, hb3⟩, ⟨hp, hs1, hs2⟩, hm⟩ := hc
  obtain ⟨gchain, gcont, gframes, -, gtail, gfilled, gcounts, groot, galloc⟩ := g
  have hgt : roundTail grow (hr + tr) = hr + tr :=
    roundTail_of_ge (by have := grow_le_roundTail grow tail; omega)
  simp only [growReq, roundHead_zero, hgt, Nat.zero_add] at gtail groot
  dsimp only at gchain gcont gframes gtail gfilled gcounts groot
  obtain ⟨hm1, hm2, hm3⟩ := hm.bufOk
  obtain ⟨hM1, hM2, hM3⟩ := gchain.bufOk
  have hstart : db.buf.start = db.buf.buf + hd := hhd ▸ (Nat.add_sub_cancel' hb1).symm
  have hend : db.buf.end = db.buf.start + fl := hfl ▸ (Nat.add_sub_cancel' hb2).symm
  have hA' : M.buf.start + db.buf.buf = A + m.buf.start := by rw [← hA, Nat.add_assoc, Nat.sub_add_cancel hs1]
  have hot' : m.buf.end = db.buf.buf + db.buf.size + ot := hot ▸ (Nat.add_sub_cancel' hs2).symm
  clear hhd hfl hA
  -- the master's content moved from `m` in `h2` to `M` in `G`
  have hwin : ∀ i k, i + k ≤ m.buf.end - m.buf.start →
      G.read (M.buf.start + i) k = h2.read (m.buf.start + i) k := fun i k hik =>
    Heap.read_window (by simpa only [content, gfilled] using gcont) hik
  have hMend : M.buf.end + m.buf.start = m.buf.end + M.buf.start := by omega
  have hroom : M.buf.end + (hr + tr) ≤ M.buf.buf + M.buf.size := by omega
  clear gtail gfilled
  have hGf : G.Agree Hf A (M.buf.end + (hr + tr)) :=
    (h4agree.mono (by omega) le_rfl).trans ((h5agree.mono le_rfl (by omega)).trans
      (hfagree.mono le_rfl (by omega)))
  refine ⟨⟨⟨by simp only; omega, by simp only; omega, by simp only; omega⟩, ⟨hp, by simp only; omega,
      by simp only; omega⟩, gchain.with_region ⟨hM1, by simp only; omega, by simp only; omega⟩⟩, ?_, ?_, by simp only; omega,
    by simp only; omega, by simp only; omega, ?_, ?_, by rwa [show rootOf _ (_ :: GS) = rootOf _ GS from rfl,
      rootOf_with_region_buf]⟩
  · refine hfcont.trans ?_
    calc content H5 _ = H5.read (A + hd + hr) fl := by simp only [content, Nat.add_sub_cancel_left]
      _ = G.read (M.buf.start + (db.buf.buf - m.buf.start + hd)) fl := by
        rw [h5cont, h4agree.read_eq (Or.inl (by omega)), show A + hd = M.buf.start + (db.buf.buf - m.buf.start + hd)
          by omega]
      _ = content h db.buf := by
        rw [hwin _ _ (by omega), ← hcont, content, show m.buf.start + (db.buf.buf - m.buf.start + hd) = db.buf.start
          by omega, show db.buf.end - db.buf.start = fl by omega]
  · show frame _ _ _ :: frames _ _ _ = frame _ _ _ :: frames _ _ _
    congr 1
    · refine Prod.ext ?_ ?_
      · show Heap.read _ M.buf.start (A - M.buf.start) = h.read m.buf.start (db.buf.buf - m.buf.start)
        rw [hfagree.read_eq (Or.inl (by omega)), h5agree.read_eq (Or.inl (by omega)),
          h4agree.read_eq (Or.inl (by omega)), show A - M.buf.start = 0 + (db.buf.buf - m.buf.start) by omega,
          ← Nat.add_zero M.buf.start, hwin _ _ (by omega), Nat.add_zero, Nat.zero_add,
          hag.read_eq (Or.inl (by omega))]
      · show Heap.read _ (A + (db.buf.size + (hr + tr))) (M.buf.end + (hr + tr) - (A + (db.buf.size + (hr + tr)))) =
          h.read (db.buf.buf + db.buf.size) (m.buf.end - (db.buf.buf + db.buf.size))
        rw [hfagree.read_eq (Or.inr (by omega)), h5agree.read_eq (Or.inr (by omega)),
          show M.buf.end + (hr + tr) - (A + (db.buf.size + (hr + tr))) = ot by omega, ← Nat.add_assoc, h4post,
          show A + db.buf.size = M.buf.start + (db.buf.buf - m.buf.start + db.buf.size) by omega,
          hwin _ _ (by omega), hot, hag.read_eq (Or.inr (by omega))]
        congr 1
        omega
    · rw [frames_with_region, frames_congr gchain (hGf.mono (by omega) hroom), gframes,
        frames_congr hm (hag.mono (by omega) (by omega))]
  · simp only [List.map_cons, herr] at gcounts ⊢
    rw [gcounts]
  · rw [show rootOf _ (_ :: GS) = rootOf _ GS from rfl, rootOf_with_region_size, groot]
    simp only [rootOf, growReq]
    omega

theorem psDynBufGrow_spec {ms : List DynBuf} : ∀ {h : Heap} {db : DynBuf} {head tail : Nat},
    ChainOk db ms → (rootOf db ms).buf.size + growReq grow head tail < 2 ^ 64 →
    ∃ loc s, psDynBufGrow grow ok h db ms head tail = some (loc, s) ∧
      (loc = 0 → GrowFailed db ms s) ∧ (loc ≠ 0 → Grown grow head tail h db ms s) ∧
      (ok = true → (∀ b ∈ db :: ms, b.err = 0) → loc ≠ 0) := by
  induction ms with
  | nil =>
    intro h db head tail hc hwrap
    obtain ⟨loc, s, hs, hf, hg, hok⟩ := @psDynBufGrow_nil_spec grow ok h db head tail hc hwrap
    exact ⟨loc, s, hs, hf, hg, fun hk hall => hok hk (hall db (List.mem_singleton_self _))⟩
  | cons m ms ih =>
    intro h db head tail hc hwrap
    obtain ⟨hb, hs, hm⟩ := hc
    by_cases herr : db.err = 0
    swap
    · rw [psDynBufGrow_of_err herr]
      exact ⟨0, _, rfl, fun _ => ⟨rfl, rfl, ⟨hb, hs, hm⟩, rfl⟩, fun h => absurd rfl h,
        fun _ hall => absurd (hall db (List.mem_cons_self _ _)) herr⟩
    have hsz := hm.size_le_root
    have hmb := hm.bufOk
    obtain ⟨hb1, hb2, hb3⟩ := hb
    obtain ⟨hp, hs1, hs2⟩ := hs
    have hR : roundHead grow head + roundTail grow tail < 2 ^ 64 := by unfold growReq at hwrap; omega
    have hreq : growReq grow 0 (sizeT (roundHead grow head + roundTail grow tail)) =
        roundHead grow head + roundTail grow tail := by
      rw [sizeT_of_lt hR, growReq, roundHead_zero, Nat.zero_add, roundTail_of_ge]
      have := grow_le_roundTail grow tail
      omega
    obtain ⟨h1, ha, hag1, hc1⟩ := assertSubbuf_spec (h := h) ⟨hb1, hb2, hb3⟩ ⟨hp, hs1, hs2⟩
    obtain ⟨hag2, hc2⟩ := @memset_room_spec db.buf ⟨hb1, hb2, hb3⟩ (db.buf.start - db.buf.buf)
      (db.buf.buf + db.buf.size - db.buf.end) (by omega) (by omega) h1 0x7B 0x7D
    obtain ⟨loc, g, hg, hfail, hgrown, hsucc⟩ := @ih
      ((h1.memset db.buf.buf 0x7B (db.buf.start - db.buf.buf)).memset db.buf.end 0x7D
        (db.buf.buf + db.buf.size - db.buf.end)) m 0 (sizeT (roundHead grow head + roundTail grow tail)) hm
      (by rw [hreq]; simp only [rootOf] at hwrap; unfold growReq at hwrap; exact hwrap)
    rw [psDynBufGrow.eq_2]
    simp only [herr, ne_eq, not_true_eq_false, if_false, ha, Option.bind_eq_bind, Option.some_bind, hg]
    by_cases hloc : loc = 0
    · obtain ⟨hgb, hgp, hgc, hgl⟩ := hfail hloc
      have hsub : SubOk ⟨db.buf, db.pool, 0 + 1⟩ g.top := ⟨hp, hgb ▸ hs1, hgb ▸ hs2⟩
      rw [if_pos hloc, assertSubbuf_of_ok hsub]
      exact ⟨0, _, rfl, fun _ => ⟨rfl, rfl, ⟨⟨hb1, hb2, hb3⟩, hsub, hgc⟩, congrArg (· + 1) hgl⟩, fun h => absurd rfl h,
        fun hk hall => absurd hloc (hsucc hk fun b hb => hall b (List.mem_cons_of_mem _ hb))⟩
    obtain ⟨G, M, GS⟩ := g
    have hgr := hgrown hloc
    rw [sizeT_of_lt hR] at hgr
    have hfilled := hgr.filled
    obtain ⟨hM1, hM2, hM3⟩ := hgr.chain.bufOk
    dsimp only at hfilled hM1 hM2 hM3
    simp only [rootOf, growReq] at hwrap
    simp only [sizeT_of_lt hR]
    rw [if_neg hloc]
    obtain ⟨hm1, hm2, hm3⟩ := hmb
    have hH : sizeT (roundHead grow head + (db.buf.start - db.buf.buf)) =
        roundHead grow head + (db.buf.start - db.buf.buf) := sizeT_of_lt (by omega)
    have hT : sizeT (roundTail grow tail + (db.buf.buf + db.buf.size - db.buf.end)) =
        roundTail grow tail + (db.buf.buf + db.buf.size - db.buf.end) := sizeT_of_lt (by omega)
    have hS : sizeT (roundHead grow head + (db.buf.start - db.buf.buf) + (db.buf.end - db.buf.start) +
        (db.buf.buf + db.buf.size - db.buf.end) + roundTail grow tail) =
        db.buf.size + (roundHead grow head + roundTail grow tail) := (sizeT_of_lt (by omega)).trans (by omega)
    rw [hH, hT, hS]
    clear hH hT hS hreq hR hg hfail hgrown ha hsucc ih
    generalize hrh : roundHead grow head = hr at *
    generalize hrt : roundTail grow tail = tr at *
    generalize hA : M.buf.start + (db.buf.buf - m.buf.start) = A
    have hMend : A + db.buf.size + (m.buf.end - (db.buf.buf + db.buf.size)) = M.buf.end := by omega
    have hsub : SubOk ⟨⟨A, A + (db.buf.start - db.buf.buf) + hr,
        A + (db.buf.start - db.buf.buf) + hr + (db.buf.end - db.buf.start), db.buf.size + (hr + tr)⟩,
        db.pool, 0⟩ ⟨⟨M.buf.buf, M.buf.start, M.buf.end + (hr + tr), M.buf.size⟩, M.pool, M.err⟩ :=
      ⟨hp, by simp only; omega, by simp only; omega⟩
    rw [assertSubbuf_of_ok hsub, Option.some_bind]
    refine ⟨loc, _, rfl, fun h => absurd h hloc, fun _ => ?_, fun _ _ => hloc⟩
    dsimp only
    generalize hot : m.buf.end - (db.buf.buf + db.buf.size) = ot at *
    generalize hhd : db.buf.start - db.buf.buf = hd
    generalize hfl : db.buf.end - db.buf.start = fl
    generalize hH4 : (if ¬ot = 0 then G.memmove (M.buf.end + (hr + tr) - ot)
      (M.buf.end + (hr + tr) - ot - hr - tr) ot else G) = H4
    have h4agree : G.Agree H4 (A + db.buf.size) (M.buf.end + (hr + tr)) := by
      subst hH4
      split_ifs
      · exact Heap.Agree.refl _ _ _
      · exact Heap.agree_memmove (by omega) (by omega)
    have h4post : H4.read (A + db.buf.size + (hr + tr)) ot = G.read (A + db.buf.size) ot := by
      subst hH4
      split_ifs with h0
      · rw [h0]
        rfl
      · rw [show A + db.buf.size + (hr + tr) = M.buf.end + (hr + tr) - ot by omega, Heap.memmove_read_self]
        congr 1
        omega
    generalize hH5 : (if hr > 0 then H4.memmove (A + hd + hr) (A + hd + hr - hr) fl else H4) = H5
    have h5agree : H4.Agree H5 A (A + db.buf.size + (hr + tr)) := by
      subst hH5
      split_ifs
      · exact Heap.agree_memmove (by omega) (by omega)
      · exact Heap.Agree.refl _ _ _
    have h5cont : H5.read (A + hd + hr) fl = H4.read (A + hd) fl := by
      subst hH5
      split_ifs with h0
      · rw [Heap.memmove_read_self, Nat.add_sub_cancel]
      · rw [show hr = 0 by omega, Nat.add_zero]
    have hBok : BufOk ⟨A, A + hd + hr, A + hd + hr + fl, db.buf.size + (hr + tr)⟩ :=
      ⟨by simp only; omega, by simp only; omega, by simp only; omega⟩
    obtain ⟨hag6, hc6⟩ := @memset_room_spec _ hBok (hr + hd)
      (tr + (db.buf.buf + db.buf.size - db.buf.end)) (by simp only; omega) (by simp only; omega) H5 60 62
    obtain ⟨hag7, hc7⟩ := @memset_room_spec _ hBok _ _ (Nat.add_sub_cancel' hBok.1)
      (Nat.add_sub_cancel' hBok.2.2) ((H5.memset A 60 (hr + hd)).memset (A + hd + hr + fl) 62
        (tr + (db.buf.buf + db.buf.size - db.buf.end))) 40 41
    exact grown_of_sub_moves hrh hrt hhd hfl ⟨⟨hb1, hb2, hb3⟩, ⟨hp, hs1, hs2⟩, hm⟩ herr (hag1.trans hag2)
      (hc2.trans hc1) hgr hA hot h4agree h4post h5agree h5cont (hag6.trans hag7) (hc7.trans hc6)

end Grow

end MatrixSsl
