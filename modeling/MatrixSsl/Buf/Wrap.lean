import MatrixSsl.Buf.DynOps

/-!
# Sums that wrap

The model adds addresses in `Nat`. The code compares pointer sums, which a
64-bit machine takes modulo `2^64`: `psBufAppendSize` checks `loc + sz <= bufend`
and `psBufPrependSize` checks `buf->buf + sz <= buf->start`. `psBufAppendSize64`
and `psBufPrependSize64` are the same functions on the machine, and they are the
model's as long as the sums stay below `2^64` (`psBufAppendSize64_eq`,
`psBufPrependSize64_eq`). Past it, a request within `2^64` of `end` (of `buf`)
passes the wrapped check, so `psDynBufAppendSize` returns at once a location
with the buffer's new end before it, and `psDynBufPrependSize` a start after the
old one (`psDynBufAppendSize_pointer_sum_wraps`).

`psDynBufSubInitAt` adds the offset and the length it is asked for in `size_t`:
the wrapped sum passes the bounds check, and only the `assert` in
`assert_subbuf` stops the sub-buffer from reaching outside its master
(`psDynBufSubInitAt_sum_wraps`).
-/

namespace MatrixSsl

theorem sizeT_wrap {n : Nat} (h1 : 2 ^ 64 ≤ n) (h2 : n < 2 ^ 65) : sizeT n = n - 2 ^ 64 := by
  unfold sizeT
  rw [Nat.mod_eq_sub_mod h1, Nat.mod_eq_of_lt (by omega)]

section Root

variable {grow : Nat}

theorem psDynBufGrow_nil_alloc {h : Heap} {db : DynBuf} {head tail : Nat} (herr : db.err = 0) :
    psDynBufGrow grow true h db [] head tail =
      let H := sizeT (roundHead grow head + (db.buf.start - db.buf.buf))
      let T := sizeT (roundTail grow tail + (db.buf.buf + db.buf.size - db.buf.end))
      let N := sizeT (H + (db.buf.end - db.buf.start) + T)
      let st := if h.next + H ≤ h.next + N then h.next + H else h.next
      if st + (db.buf.end - db.buf.start) ≤ h.next + N then
        some (st, ⟨(h.psMalloc true N).2.memcpy st db.buf.start (db.buf.end - db.buf.start),
          { db with buf := ⟨h.next, st, st + (db.buf.end - db.buf.start), N⟩ }, []⟩)
      else none := by
  obtain ⟨b, pool, err⟩ := db
  dsimp only at herr
  subst herr
  have hn : h.next ≠ 0 := Nat.pos_iff_ne_zero.1 h.next_pos
  simp only [psDynBufGrow, ne_eq, not_true_eq_false, if_false, psBufInit, Heap.psMalloc, if_true, hn,
    not_false_eq_true, psBufReservePrepend, Option.bind_eq_bind, Option.some_bind, psBufAppendSize]
  split_ifs <;> simp only [Option.some_bind] <;> split_ifs <;> first | rfl | omega

end Root

/-- `psBufAppendSize` on the machine: `loc + sz`, `bufend` and the new `end` are
taken modulo `2^64`. -/
def psBufAppendSize64 (b : PsBuf Nat) (sz : Nat) : Nat × PsBuf Nat :=
  if sizeT (b.end + sz) ≤ sizeT (b.buf + b.size) then (b.end, { b with «end» := sizeT (b.end + sz) })
  else (0, b)

/-- `psBufPrependSize` on the machine: `buf->buf + sz` and the new `start` are
taken modulo `2^64` (`sz` is a `size_t`). -/
def psBufPrependSize64 (b : PsBuf Nat) (sz : Nat) : Nat × PsBuf Nat :=
  if b.buf ≤ b.start ∧ sizeT (b.buf + sz) ≤ b.start then
    (sizeT (b.start + (2 ^ 64 - sz)), { b with start := sizeT (b.start + (2 ^ 64 - sz)) })
  else (0, b)

theorem psBufAppendSize64_eq {b : PsBuf Nat} {sz : Nat} (hb : b.buf + b.size < 2 ^ 64)
    (he : b.end + sz < 2 ^ 64) : psBufAppendSize64 b sz = psBufAppendSize b sz := by
  simp only [psBufAppendSize64, psBufAppendSize, sizeT_of_lt hb, sizeT_of_lt he]

theorem psBufPrependSize64_eq {b : PsBuf Nat} {sz : Nat} (hs : b.start < 2 ^ 64)
    (hb : b.buf + sz < 2 ^ 64) : psBufPrependSize64 b sz = psBufPrependSize b sz := by
  unfold psBufPrependSize64 psBufPrependSize
  rw [sizeT_of_lt hb]
  split_ifs with h
  · rw [show sizeT (b.start + (2 ^ 64 - sz)) = b.start - sz from
      (sizeT_wrap (by omega) (by omega)).trans (by omega)]
  · rfl

section Ops

variable (grow : Nat) (ok : Bool)

/-- `psDynBufAppendSize` with its `psBufAppendSize` calls on the machine. -/
def psDynBufAppendSize64 (s : DynState) (sz : Nat) : Option (Nat × DynState) :=
  let (loc, b) := psBufAppendSize64 s.top.buf sz
  let s := { s with top := { s.top with buf := b } }
  if loc ≠ 0 then some (loc, s) else do
  let (g, s) ← psDynBufGrow grow ok s.heap s.top s.masters 0 sz
  if g = 0 then some (0, s) else
  let (loc, b) := psBufAppendSize64 s.top.buf sz
  if loc = 0 then none else some (loc, { s with top := { s.top with buf := b } })

/-- `psDynBufPrependSize` with its `psBufPrependSize` calls on the machine. -/
def psDynBufPrependSize64 (s : DynState) (sz : Nat) : Option (Nat × DynState) :=
  let (loc, b) := psBufPrependSize64 s.top.buf sz
  let s := { s with top := { s.top with buf := b } }
  if loc ≠ 0 then some (loc, s) else do
  let (g, s) ← psDynBufGrow grow ok s.heap s.top s.masters sz 0
  if g = 0 then some (0, s) else
  let (loc, b) := psBufPrependSize64 s.top.buf sz
  if loc = 0 then none else some (loc, { s with top := { s.top with buf := b } })

end Ops

section Machine

variable {grow : Nat} {ok : Bool}

/-- On every buffer in order whose block ends below `2^64`, root or sub-buffer,
with or without error, and every `size_t` count `sz`: an append that takes
`end + sz` past `2^64` passes the machine's check, so `psDynBufAppendSize`
returns at once the old end, and the buffer's new end `end + sz - 2^64` lies
before that location, and before `start` when the content and the request come
to less than `2^64`; a prepend of more than `start` bytes that takes
`buf + sz` past `2^64` returns a new start after the old one. -/
theorem psDynBufAppendSize_pointer_sum_wraps {s : DynState} {sz : Nat} (hb : BufOk s.top.buf)
    (hpos : 0 < s.top.buf.buf) (hmem : s.top.buf.buf + s.top.buf.size < 2 ^ 64) (hsz : sz < 2 ^ 64) :
    (2 ^ 64 ≤ s.top.buf.end + sz →
      psDynBufAppendSize64 grow ok s sz = some (s.top.buf.end,
        { s with top := { s.top with buf := { s.top.buf with «end» := s.top.buf.end + sz - 2 ^ 64 } } }) ∧
      s.top.buf.end + sz - 2 ^ 64 < s.top.buf.end ∧
      (s.top.buf.end - s.top.buf.start + sz < 2 ^ 64 → s.top.buf.end + sz - 2 ^ 64 < s.top.buf.start)) ∧
    (s.top.buf.start < sz → 2 ^ 64 ≤ s.top.buf.buf + sz →
      psDynBufPrependSize64 grow ok s sz = some (s.top.buf.start + 2 ^ 64 - sz,
        { s with top := { s.top with buf := { s.top.buf with start := s.top.buf.start + 2 ^ 64 - sz } } }) ∧
      s.top.buf.start < s.top.buf.start + 2 ^ 64 - sz) := by
  obtain ⟨h1, h2, h3⟩ := hb
  refine ⟨fun hwrap => ⟨?_, by omega, fun _ => by omega⟩, fun hlt hwrap => ⟨?_, by omega⟩⟩
  · have hw : sizeT (s.top.buf.end + sz) = s.top.buf.end + sz - 2 ^ 64 := sizeT_wrap hwrap (by omega)
    have hfit : s.top.buf.end + sz - 2 ^ 64 ≤ s.top.buf.buf + s.top.buf.size := by omega
    have hne : s.top.buf.end ≠ 0 := by omega
    simp only [psDynBufAppendSize64, psBufAppendSize64, hw, sizeT_of_lt hmem, if_pos hfit, ne_eq, hne,
      not_false_eq_true, if_true]
  · have hfit : s.top.buf.buf ≤ s.top.buf.start ∧ sizeT (s.top.buf.buf + sz) ≤ s.top.buf.start :=
      ⟨h1, by rw [sizeT_wrap hwrap (by omega)]; omega⟩
    have hst : sizeT (s.top.buf.start + (2 ^ 64 - sz)) = s.top.buf.start + 2 ^ 64 - sz :=
      (sizeT_of_lt (by omega)).trans (by omega)
    have hne : s.top.buf.start + 2 ^ 64 - sz ≠ 0 := by omega
    simp only [psDynBufPrependSize64, psBufPrependSize64, if_pos hfit, hst, ne_eq, hne, not_false_eq_true,
      if_true]

theorem psDynBufAppendSize_pointer_sum_wraps_at_max :
    psDynBufAppendSize64 8 true ⟨⟨fun _ => 0, 17, by decide⟩, ⟨⟨1, 5, 5, 16⟩, 7, 0⟩, []⟩ (2 ^ 64 - 1) =
        some (5, ⟨⟨fun _ => 0, 17, by decide⟩, ⟨⟨1, 5, 4, 16⟩, 7, 0⟩, []⟩) ∧ 4 < 5 ∧
      psDynBufPrependSize64 8 true ⟨⟨fun _ => 0, 17, by decide⟩, ⟨⟨1, 5, 5, 16⟩, 7, 0⟩, []⟩ (2 ^ 64 - 1) =
        some (6, ⟨⟨fun _ => 0, 17, by decide⟩, ⟨⟨1, 6, 5, 16⟩, 7, 0⟩, []⟩) := by
  have h := @psDynBufAppendSize_pointer_sum_wraps 8 true ⟨⟨fun _ => 0, 17, by decide⟩, ⟨⟨1, 5, 5, 16⟩, 7, 0⟩, []⟩
    (2 ^ 64 - 1) ⟨by decide, by decide, by decide⟩ (by decide) (by decide) (by decide)
  exact ⟨(h.1 (by decide)).1, by decide, (h.2 (by decide) (by decide)).1⟩

end Machine

/-- On every buffer whose content is shorter than `2^64` bytes, with `at` and
`length` each a `size_t`: when `at + length` wraps to at most the content's
length, the bounds check of `psDynBufSubInitAt` passes and the `assert` in
`assert_subbuf` fails (`none`); a sub-buffer it does return lies inside the
content, `at + length` bytes of it in exact arithmetic. -/
theorem psDynBufSubInitAt_sum_wraps {s : DynState} {sub : DynBuf} {pos len : Nat}
    (hcontent : s.top.buf.end - s.top.buf.start < 2 ^ 64) (hpos : pos < 2 ^ 64) (hlen : len < 2 ^ 64) :
    (s.top.err = 0 → 2 ^ 64 ≤ pos + len → pos + len - 2 ^ 64 ≤ s.top.buf.end - s.top.buf.start →
      psDynBufSubInitAt s sub pos len = none) ∧
    (∀ loc s', psDynBufSubInitAt s sub pos len = some (loc, s') → loc ≠ 0 →
      pos + len ≤ s.top.buf.end - s.top.buf.start ∧ s'.top.buf.buf = s.top.buf.start + pos ∧
        s'.top.buf.size = len) := by
  refine ⟨fun herr hwrap hfit => ?_, fun _ _ h h0 => psDynBufSubInitAt_inside h h0⟩
  have hc : s.top.err = 0 ∧ sizeT (pos + len) ≤ s.top.buf.end - s.top.buf.start :=
    ⟨herr, by rw [sizeT_wrap hwrap (by omega)]; exact hfit⟩
  simp only [psDynBufSubInitAt, if_pos hc, assertSubbuf, Option.bind_eq_bind]
  rw [if_neg fun h => by obtain ⟨-, -, -, -, h⟩ := h; omega, Option.none_bind]

theorem psDynBufSubInitAt_sum_wraps_at_max :
    psDynBufSubInitAt ⟨⟨fun _ => 0, 17, by decide⟩, ⟨⟨1, 1, 1, 16⟩, 7, 0⟩, []⟩ ⟨⟨0, 0, 0, 0⟩, 0, 0⟩
      (2 ^ 64 - 1) 1 = none :=
  (psDynBufSubInitAt_sum_wraps (by decide) (by decide) (by decide)).1 rfl (by decide) (by decide)

end MatrixSsl
