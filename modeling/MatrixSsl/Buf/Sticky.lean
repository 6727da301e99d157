import MatrixSsl.Buf.DynOps
import MatrixSsl.Buf.Parse

/-!
# What the error counts stop

`psDynBufGrow` returns `NULL` at once on a buffer with a non-zero error count,
`psDynBufSubInitAt` refuses to open a sub-buffer on one, and `psDynBufDetach`
returns `NULL`. The fast paths of the writes do not look at the count: on every
buffer in error, a write that fits in the room it has succeeds as if there were
no error, and the parse operations never read the count
(`sticky_error_fast_paths`). Only a write that needs `psDynBufGrow` is stopped,
and a failed build ends in a `NULL` from `psDynBufDetach`.

The count is an `int` that `psDynBufSubFinish` adds to the master's, and
`psDynBufSubInitAt` only increments the count a sub-buffer struct held before:
from a struct holding a negative count, a failed `psDynBufSubInitAt` and its
`psDynBufSubFinish` bring the root's count back to `0`
(`subInitAt_prior_error_clears_root`).
-/

namespace MatrixSsl

section Dyn

variable {grow : Nat} {ok : Bool}

theorem psDynBufAppendSize_of_err {s : DynState} {sz : Nat} (herr : s.top.err ≠ 0)
    (hfull : s.top.buf.buf + s.top.buf.size < s.top.buf.end + sz) :
    psDynBufAppendSize grow ok s sz = some (0, s) := by
  simp [psDynBufAppendSize, psBufAppendSize, Nat.not_le.2 hfull, psDynBufGrow_of_err herr]

theorem psDynBufPrependSize_of_err {s : DynState} {sz : Nat} (herr : s.top.err ≠ 0)
    (hfull : ¬(s.top.buf.buf ≤ s.top.buf.start ∧ s.top.buf.buf + sz ≤ s.top.buf.start)) :
    psDynBufPrependSize grow ok s sz = some (0, s) := by
  simp only [psDynBufPrependSize, psBufPrependSize, if_neg hfull]
  simp [psDynBufGrow_of_err herr]

theorem psDynBufDetach_of_err {h : Heap} {db : DynBuf} (herr : db.err ≠ 0) :
    psDynBufDetach ok h db = (0, 0, h) := by
  simp [psDynBufDetach, herr]

theorem psDynBufAppendAsn1TagGen_of_fit {s : DynState} {tag : UInt8} {bytes : List UInt8}
    (hfit : s.top.buf.end + (bytes.length + lenOfTagAndLen bytes.length) ≤ s.top.buf.buf + s.top.buf.size)
    (hmem : s.top.buf.buf + s.top.buf.size < 2 ^ 64) (hpos : s.top.buf.end ≠ 0) :
    ∃ s', psDynBufAppendAsn1TagGen grow ok s tag bytes = some (s.top.buf.end, s') := by
  have hn : sizeT (bytes.length + lenOfTagAndLen bytes.length) = bytes.length + lenOfTagAndLen bytes.length :=
    sizeT_of_lt (by omega)
  exact ⟨_, by simp only [psDynBufAppendAsn1TagGen, hn, psDynBufAppendSize_of_fit hfit hpos, Option.bind_eq_bind,
    Option.some_bind, if_neg hpos]; rfl⟩

theorem psDynBufAppendUtf8_of_fit {s : DynState} {chr : Int} (hch : (chr % 2 ^ 32).toNat ≤ 0x1FFFF)
    (hfit : s.top.buf.end + (utf8Bytes (chr % 2 ^ 32).toNat).length ≤ s.top.buf.buf + s.top.buf.size)
    (hpos : s.top.buf.end ≠ 0) :
    ∃ s', psDynBufAppendUtf8 grow ok s chr = some (s.top.buf.end, s') := by
  exact ⟨_, by simp only [psDynBufAppendUtf8, gt_iff_lt, if_neg (Nat.not_lt.2 hch),
    psDynBufAppendSize_of_fit hfit hpos, Option.bind_eq_bind, Option.some_bind, if_neg hpos]; rfl⟩

theorem psDynBufSubInit_of_fit {s : DynState} {cap : Nat} (hb : BufOk s.top.buf)
    (hfit : s.top.buf.end + cap ≤ s.top.buf.buf + s.top.buf.size) (hpos : s.top.buf.end ≠ 0) :
    ∃ s', psDynBufSubInit grow ok s cap = some (s.top.buf.end, s') := by
  have hs : SubOk ⟨⟨s.top.buf.end, s.top.buf.end, s.top.buf.end, cap⟩, 0, 0⟩
      { s.top with buf := { s.top.buf with «end» := s.top.buf.end + cap } } := ⟨rfl, hb.2.1, le_rfl⟩
  exact ⟨_, by simp only [psDynBufSubInit, psDynBufAppendSize_of_fit hfit hpos, Option.bind_eq_bind,
    Option.some_bind, ne_eq, hpos, not_false_eq_true, if_true, Nat.add_sub_cancel, assertSubbuf_of_ok hs]; rfl⟩

theorem psDynBufEndConstructedTag_of_fit {s : DynState} {tag : UInt8} (herr : s.top.err ≠ 0)
    (hm : s.masters ≠ []) (hb : s.top.buf.buf ≤ s.top.buf.start) (hpos : 0 < s.top.buf.buf)
    (hfit : s.top.buf.buf + lenOfTagAndLen (s.top.buf.end - s.top.buf.start) ≤ s.top.buf.start) :
    ∃ s', psDynBufEndConstructedTag grow ok s tag =
      some (s.top.buf.start - lenOfTagAndLen (s.top.buf.end - s.top.buf.start), s') := by
  obtain ⟨heap, top, ms⟩ := s
  obtain _ | ⟨db, ms⟩ := ms
  · exact absurd rfl hm
  have hne : top.buf.start - lenOfTagAndLen (top.buf.end - top.buf.start) ≠ 0 := by
    dsimp only at hb hpos hfit; omega
  exact ⟨_, by simp only [psDynBufEndConstructedTag, psDynBufPrependSize_of_fit hb hfit hne, Option.bind_eq_bind,
    Option.some_bind, ne_eq, hne, not_false_eq_true, if_true, psDynBufSubFinish, herr]; rfl⟩

/-- On every buffer in error, in order and with its block below `2^64`: an
append, a prepend, a TLV, a code point up to `0x1FFFF`, a sub-buffer and the
close of a constructed tag that fit in the room the buffer has all succeed,
returning the location they would return without the error; only a request that
does not fit gets `NULL` and changes nothing, as `psDynBufSubInitAt` always does,
and `psDynBufDetach` returns `NULL`. The parse operations return the same lengths
whatever the count. -/
theorem sticky_error_fast_paths {s : DynState} (herr : s.top.err ≠ 0) (hb : BufOk s.top.buf)
    (hpos : 0 < s.top.buf.buf) (hmem : s.top.buf.buf + s.top.buf.size < 2 ^ 64) :
    (∀ sz, s.top.buf.end + sz ≤ s.top.buf.buf + s.top.buf.size →
      psDynBufAppendSize grow ok s sz = some (s.top.buf.end,
        { s with top := { s.top with buf := { s.top.buf with «end» := s.top.buf.end + sz } } })) ∧
    (∀ sz, s.top.buf.buf + sz ≤ s.top.buf.start →
      psDynBufPrependSize grow ok s sz = some (s.top.buf.start - sz,
        { s with top := { s.top with buf := { s.top.buf with start := s.top.buf.start - sz } } })) ∧
    (∀ tag bytes,
      s.top.buf.end + (bytes.length + lenOfTagAndLen bytes.length) ≤ s.top.buf.buf + s.top.buf.size →
      ∃ s', psDynBufAppendAsn1TagGen grow ok s tag bytes = some (s.top.buf.end, s')) ∧
    (∀ chr, (chr % 2 ^ 32).toNat ≤ 0x1FFFF →
      s.top.buf.end + (utf8Bytes (chr % 2 ^ 32).toNat).length ≤ s.top.buf.buf + s.top.buf.size →
      ∃ s', psDynBufAppendUtf8 grow ok s chr = some (s.top.buf.end, s')) ∧
    (∀ cap, s.top.buf.end + cap ≤ s.top.buf.buf + s.top.buf.size →
      ∃ s', psDynBufSubInit grow ok s cap = some (s.top.buf.end, s')) ∧
    (∀ tag, s.masters ≠ [] →
      s.top.buf.buf + lenOfTagAndLen (s.top.buf.end - s.top.buf.start) ≤ s.top.buf.start →
      ∃ s', psDynBufEndConstructedTag grow ok s tag =
        some (s.top.buf.start - lenOfTagAndLen (s.top.buf.end - s.top.buf.start), s')) ∧
    (∀ sz, s.top.buf.end + sz < 2 ^ 64 → s.top.buf.buf + s.top.buf.size < s.top.buf.end + sz →
      psDynBufAppendSize grow ok s sz = some (0, s)) ∧
    (∀ sz, s.top.buf.buf + sz < 2 ^ 64 → s.top.buf.start < s.top.buf.buf + sz →
      psDynBufPrependSize grow ok s sz = some (0, s)) ∧
    (∀ sub pos len, (psDynBufSubInitAt s sub pos len).map Prod.fst = some 0) ∧
    (psDynBufDetach ok s.heap s.top).1 = 0 ∧
    ∀ (m : Mem) (pb : PsParseBuf) (tag : UInt8) (e : Int),
      (psParseBufTryReadTagSub m { pb with err := e } tag).map Prod.fst =
          (psParseBufTryReadTagSub m pb tag).map Prod.fst ∧
        (psParseBufReadTagSub m { pb with err := e } tag).map Prod.fst =
          (psParseBufReadTagSub m pb tag).map Prod.fst ∧
        (psParseBufReadTagRef m { pb with err := e } tag).map Prod.fst =
          (psParseBufReadTagRef m pb tag).map Prod.fst ∧
        (psParseBufTrySkipTag m { pb with err := e } tag).map Prod.fst =
          (psParseBufTrySkipTag m pb tag).map Prod.fst := by
  obtain ⟨h1, h2, h3⟩ := hb
  have hend : s.top.buf.end ≠ 0 := by omega
  refine ⟨fun sz h => psDynBufAppendSize_of_fit h hend,
    fun sz h => psDynBufPrependSize_of_fit h1 h (by omega),
    fun tag bytes h => psDynBufAppendAsn1TagGen_of_fit h hmem hend,
    fun chr hch h => psDynBufAppendUtf8_of_fit hch h hend,
    fun cap h => psDynBufSubInit_of_fit ⟨h1, h2, h3⟩ h hend,
    fun tag hm h => psDynBufEndConstructedTag_of_fit herr hm h1 hpos h,
    fun sz _ h => psDynBufAppendSize_of_err herr h,
    fun sz _ h => psDynBufPrependSize_of_err herr (fun h' => by omega),
    fun sub pos len => by simp [psDynBufSubInitAt, herr],
    by rw [psDynBufDetach_of_err herr], fun m pb tag e => ?_⟩
  have htry : psParseBufTryReadTagSub m { pb with err := e } tag = psParseBufTryReadTagSub m pb tag := rfl
  refine ⟨by rw [htry], ?_, ?_, ?_⟩
  all_goals
    simp only [psParseBufReadTagRef, psParseBufReadTagSub, psParseBufTrySkipTag, htry]
    rcases psParseBufTryReadTagSub m pb tag with _ | ⟨n, c⟩
    · rfl
    · by_cases hn : n = 0 <;> simp [hn]

theorem sticky_error_fast_paths_root :
    psDynBufAppendSize 8 true ⟨⟨fun _ => 0, 9, by decide⟩, ⟨⟨1, 1, 1, 8⟩, 7, 1⟩, []⟩ 4 =
        some (1, ⟨⟨fun _ => 0, 9, by decide⟩, ⟨⟨1, 1, 5, 8⟩, 7, 1⟩, []⟩) ∧
      (psParseBufTryReadTagSub (Mem.ofList [0x30, 0x00]) ⟨⟨0, 0, 2, 2⟩, 1⟩ 0x30).map Prod.fst =
        (psParseBufTryReadTagSub (Mem.ofList [0x30, 0x00]) ⟨⟨0, 0, 2, 2⟩, 0⟩ 0x30).map Prod.fst := by
  have h := @sticky_error_fast_paths 8 true ⟨⟨fun _ => 0, 9, by decide⟩, ⟨⟨1, 1, 1, 8⟩, 7, 1⟩, []⟩
    (by decide) ⟨by decide, by decide, by decide⟩ (by decide) (by decide)
  exact ⟨h.1 4 (by decide), (h.2.2.2.2.2.2.2.2.2.2 (Mem.ofList [0x30, 0x00]) ⟨⟨0, 0, 2, 2⟩, 0⟩ 0x30 1).1⟩

/-- From a sub-buffer struct that held the count `-2`, a failed
`psDynBufSubInitAt` on an empty root sets the root's count to `1` and the
sub-buffer's to `-1`; `psDynBufSubFinish` adds them, and `psDynBufDetach` on the
root returns a block. -/
theorem subInitAt_prior_error_clears_root :
    (dynRun 8 (psDynBufInit true ⟨fun _ => 0, 1, Nat.one_pos⟩ 7 16).2
        [(.subInitAt ⟨⟨0, 0, 0, 0⟩, 0, -2⟩ 0 1, true)]).map
        (fun s => (s.top.err, s.masters.map (·.err))) = some (-1, [1]) ∧
      (dynRun 8 (psDynBufInit true ⟨fun _ => 0, 1, Nat.one_pos⟩ 7 16).2
        [(.subInitAt ⟨⟨0, 0, 0, 0⟩, 0, -2⟩ 0 1, true), (.subFinish, true)]).map
        (fun s => (s.top.err, (psDynBufDetach true s.heap s.top).1)) = some (0, 17) := by
  refine ⟨rfl, rfl⟩

end Dyn

end MatrixSsl
