import MatrixSsl.Buf.TagLen
import MatrixSsl.Buf.Heap

/-!
# Parse buffers

A parse buffer reads read-only input through a `psBuf_t` view. Opening a tag
(`psParseBufTryReadTagSub`, `psParseBufReadTagSub`) makes a child over the tag's
content and leaves the parent where it is; `psParseBufFinish` then moves the
parent past the whole tag, or only counts an error, and `psParseBufCancel` does
neither. `ParseState` keeps the open buffers, innermost first, each ancestor
with the length that opening the buffer above it returned, and `parseStep`
applies one operation to the innermost buffer.

`ParseInv` holds along every run from `psParseBufFromStaticData`: every buffer
keeps `buf ≤ start ≤ end` with its unread bytes inside the input, and an
error-free child still ends exactly where its opening said. From it every
operation is defined (no read leaves the input) and does what `StepSpec` lists,
and `psParseBufCopyAll` on the innermost buffer reports the length of its
unread bytes and copies exactly those (`copyAll_size_then_copy`).
-/

namespace MatrixSsl

/-- A torn-down `psBuf_t`: `NULL` pointers and size zero. -/
def PsBuf.null : PsBuf Nat := ⟨0, 0, 0, 0⟩

/-- The status and the buffer; `len` is ignored when `data` is `NULL`. -/
def psParseBufFromStaticData (data len : Nat) : Rc × PsParseBuf :=
  let len := if data = 0 then 0 else len
  let rc : Rc := if data = 0 then .psArgFail else .psSuccess
  (rc, ⟨⟨data, data, data + len, len⟩, if rc = .psSuccess then 0 else 1⟩)

/-- Modelled from the spec: `psParseCanRead` is defined in a header that is not
part of the repository; it holds when at least `n` bytes remain. -/
def psParseCanRead (pb : PsParseBuf) (n : Nat) : Bool := n ≤ pb.buf.end - pb.buf.start

/-- The length returned and the child set up through `content`. -/
def psParseBufTryReadTagSub (m : Mem) (pb : PsParseBuf) (tag : UInt8) :
    Option (Nat × PsParseBuf) := do
  let (len, hdr) ← psParseBufGetTagLen m pb tag
  if len = 0 then pure (0, ⟨PsBuf.null, 1⟩) else
  let hdrlen := hdr.getD 0
  let s := pb.buf.start + hdrlen
  pure (len, ⟨⟨s, s, s + (len - hdrlen), len - hdrlen⟩, 0⟩)

/-- The length, the parent and the child; on failure the child aliases the
parent's view. -/
def psParseBufReadTagSub (m : Mem) (pb : PsParseBuf) (tag : UInt8) :
    Option (Nat × PsParseBuf × PsParseBuf) := do
  let (len, content) ← psParseBufTryReadTagSub m pb tag
  if len = 0 then pure (0, { pb with err := pb.err + 1 }, { content with buf := pb.buf })
  else pure (len, pb, content)

/-- `psParseBufFinish` on a child whose master is `master`: the status and the
master afterwards (the child itself is torn down). -/
def psParseBufFinish (pb master : PsParseBuf) : Rc × PsParseBuf :=
  let master := if pb.err ≠ 0 then { master with err := master.err + 1 }
    else { master with buf := { master.buf with start := pb.buf.buf + pb.buf.size } }
  (if pb.err = 0 then .psSuccess else .psFailure, master)

/-- The length, the parse buffer, and the view stored through `ref` on success. -/
def psParseBufReadTagRef (m : Mem) (pb : PsParseBuf) (tag : UInt8) :
    Option (Nat × PsParseBuf × Option (PsBuf Nat)) := do
  let (len, pb, content) ← psParseBufReadTagSub m pb tag
  if len ≠ 0 then
    pure (len, { pb with buf := { pb.buf with start := pb.buf.start + len } }, some content.buf)
  else pure (0, pb, none)

def psParseBufTrySkipTag (m : Mem) (pb : PsParseBuf) (tag : UInt8) :
    Option (Nat × PsParseBuf) := do
  let (sz, sub) ← psParseBufTryReadTagSub m pb tag
  pure (sz, if sz ≠ 0 then (psParseBufFinish sub pb).2 else pb)

def psParseBufSkipTag (m : Mem) (pb : PsParseBuf) (tag : UInt8) :
    Option (Nat × PsParseBuf) := do
  let (sz, pb, sub) ← psParseBufReadTagSub m pb tag
  pure (sz, if sz ≠ 0 then (psParseBufFinish sub pb).2 else pb)

def psParseBufTrySkipBytes (m : Mem) (pb : PsParseBuf) (bytes : List UInt8) :
    Option (Nat × PsParseBuf) := do
  let numbytes := bytes.length
  let same ← (if psParseCanRead pb numbytes then
      (readBytes m numbytes pb.buf.start).map (· == bytes) else pure false)
  let skipBytes := if same then numbytes else 0
  pure (skipBytes, { pb with buf := { pb.buf with start := pb.buf.start + skipBytes } })

def psParseBufSkipBytes (m : Mem) (pb : PsParseBuf) (bytes : List UInt8) :
    Option (Nat × PsParseBuf) := do
  let (sz, pb) ← psParseBufTrySkipBytes m pb bytes
  pure (sz, if sz = 0 then { pb with err := pb.err + 1 } else pb)

/-- `psParseBufCopyAll`: the status, what it leaves in `*targetlen`, and the
memory `target` points into. The unread bytes are read from `m`; a `target` of
`0` is the probe with no target. -/
def psParseBufCopyAll (m : Mem) (h : Heap) (pb : PsParseBuf) (target targetlen : Nat) :
    Option (Rc × Nat × Heap) :=
  let len := pb.buf.end - pb.buf.start
  if pb.err ≠ 0 then some (.psFailure, targetlen, h)
  else if target = 0 then some (.psOutputLength, len, h)
  else if len > targetlen then some (.psOutputLength, len, h)
  else (readBytes m len pb.buf.start).map fun bs => (.psSuccess, targetlen, h.write target bs)

/-- The open parse buffers: the innermost, and its ancestors innermost first, each
with the length returned when the buffer above it was opened. -/
structure ParseState where
  top : PsParseBuf
  up : List (Nat × PsParseBuf)

inductive ParseOp where
  | tryReadTagSub (tag : UInt8)
  | readTagSub (tag : UInt8)
  | finish
  | cancel
  | readTagRef (tag : UInt8)
  | trySkipTag (tag : UInt8)
  | skipTag (tag : UInt8)
  | trySkipBytes (bytes : List UInt8)
  | skipBytes (bytes : List UInt8)

/-- One operation on the innermost buffer, with the length it returns; for
`psParseBufFinish` its status, `0` for `PS_SUCCESS` and `1` for `PS_FAILURE`, and
`0` for `psParseBufCancel`, which returns nothing. Finishing or cancelling needs
an open child. -/
def parseStep (m : Mem) (s : ParseState) : ParseOp → Option (Nat × ParseState)
  | .tryReadTagSub tag => do
    let (n, c) ← psParseBufTryReadTagSub m s.top tag
    pure (n, ⟨c, (n, s.top) :: s.up⟩)
  | .readTagSub tag => do
    let (n, p, c) ← psParseBufReadTagSub m s.top tag
    pure (n, ⟨c, (n, p) :: s.up⟩)
  | .finish => match s.up with
    | [] => none
    | (_, p) :: up =>
      let (rc, p) := psParseBufFinish s.top p
      pure (if rc = .psSuccess then 0 else 1, ⟨p, up⟩)
  | .cancel => match s.up with
    | [] => none
    | (_, p) :: up => pure (0, ⟨p, up⟩)
  | .readTagRef tag => do
    let (n, p, _) ← psParseBufReadTagRef m s.top tag
    pure (n, { s with top := p })
  | .trySkipTag tag => do
    let (n, p) ← psParseBufTrySkipTag m s.top tag
    pure (n, { s with top := p })
  | .skipTag tag => do
    let (n, p) ← psParseBufSkipTag m s.top tag
    pure (n, { s with top := p })
  | .trySkipBytes bytes => do
    let (n, p) ← psParseBufTrySkipBytes m s.top bytes
    pure (n, { s with top := p })
  | .skipBytes bytes => do
    let (n, p) ← psParseBufSkipBytes m s.top bytes
    pure (n, { s with top := p })

def parseRun (m : Mem) : ParseState → List ParseOp → Option ParseState
  | s, [] => some s
  | s, op :: ops => do
    let (_, s) ← parseStep m s op
    parseRun m s ops

/-- The state right after `psParseBufFromStaticData`. -/
def parseInit (data len : Nat) : ParseState := ⟨(psParseBufFromStaticData data len).2, []⟩

/-- Finishing or cancelling needs an open child. -/
def Applicable (s : ParseState) : ParseOp → Prop
  | .finish | .cancel => s.up ≠ []
  | _ => True

/-- The innermost buffer after an operation on it: the cursor moved on by the
returned length and no further than the end, the error count not lower. -/
def Advance (pb : PsParseBuf) (n : Nat) (pb' : PsParseBuf) : Prop :=
  pb'.buf = { pb.buf with start := pb.buf.start + n } ∧ pb.buf.start + n ≤ pb.buf.end ∧
    pb.err ≤ pb'.err

/-- Opening a child of `p` that returned `n`: the parent's view is unchanged; an
opened child lies in the parent's unread span and ends `n` bytes after its
cursor; a failed one is empty or aliases that span, and is in error. -/
def OpenSpec (p : PsParseBuf) (n : Nat) (p' c : PsParseBuf) : Prop :=
  p'.buf = p.buf ∧ p.err ≤ p'.err ∧
    (0 < n → c.err = 0 ∧ p.buf.start ≤ c.buf.start ∧ c.buf.end ≤ p.buf.end ∧
      c.buf.buf + c.buf.size = p.buf.start + n) ∧
    (n = 0 → 0 < c.err ∧
      (c.buf.start = c.buf.end ∨ (c.buf.start = p.buf.start ∧ c.buf.end = p.buf.end)))

/-- Finishing the child `c` of `p` opened with length `n`: an error-free child
moves the parent exactly `n` bytes on; a child in error raises the parent's count
by one and leaves its cursor. -/
def FinishSpec (c : PsParseBuf) (n : Nat) (p p' : PsParseBuf) : Prop :=
  (c.err = 0 → p'.buf = { p.buf with start := p.buf.start + n } ∧ p.buf.start + n ≤ p.buf.end ∧
      p'.err = p.err) ∧
    (c.err ≠ 0 → p'.buf = p.buf ∧ p'.err = p.err + 1)

def StepSpec (s : ParseState) : ParseOp → Nat × ParseState → Prop
  | .tryReadTagSub _, (n, s') | .readTagSub _, (n, s') =>
    ∃ p', s'.up = (n, p') :: s.up ∧ OpenSpec s.top n p' s'.top
  | .finish, (_, s') => ∃ n p, s.up = (n, p) :: s'.up ∧ FinishSpec s.top n p s'.top
  | .cancel, (_, s') => ∃ n, s.up = (n, s'.top) :: s'.up
  | _, (n, s') => s'.up = s.up ∧ Advance s.top n s'.top

/-- Cursors in order, a non-negative error count, and unread bytes inside the
input `[a, a + len)`. -/
def ParseBufOk (a len : Nat) (pb : PsParseBuf) : Prop :=
  pb.buf.buf ≤ pb.buf.start ∧ pb.buf.start ≤ pb.buf.end ∧ 0 ≤ pb.err ∧
    (pb.buf.start < pb.buf.end → a ≤ pb.buf.start ∧ pb.buf.end ≤ a + len)

/-- A child opened from `p` with length `n`: while it is error-free it ends where
finishing it puts `p`'s cursor, inside `p`. -/
def ChildOf (c : PsParseBuf) (n : Nat) (p : PsParseBuf) : Prop :=
  c.err = 0 → c.buf.buf + c.buf.size = p.buf.start + n ∧ p.buf.start + n ≤ p.buf.end

def ParseChainOk (a len : Nat) : PsParseBuf → List (Nat × PsParseBuf) → Prop
  | c, [] => ParseBufOk a len c
  | c, (n, p) :: up => ParseBufOk a len c ∧ ChildOf c n p ∧ ParseChainOk a len p up

def ParseInv (a len : Nat) (s : ParseState) : Prop := ParseChainOk a len s.top s.up

section Steps

variable {m : Mem} {a : Nat} {bs : List UInt8} {pb : PsParseBuf}

theorem getTagLen_of_ok (hm : Holds m a bs) (hpb : ParseBufOk a bs.length pb) (tag : UInt8) :
    ∃ n hdr, psParseBufGetTagLen m pb tag = some (n, hdr) ∧
      (n = 0 ∧ hdr = none ∨ ∃ h, hdr = some h ∧ 2 ≤ h ∧ h ≤ n ∧ pb.buf.start + n ≤ pb.buf.end) := by
  obtain ⟨-, hse, -, hin⟩ := hpb
  rcases Nat.lt_or_ge pb.buf.start pb.buf.end with hlt | hge
  · obtain ⟨ha, hb⟩ := hin hlt
    obtain ⟨hw, hlen⟩ := hm.window (s := pb.buf.start) (n := pb.buf.end - pb.buf.start) ha
      (by omega)
    have hcode := @psParseBufGetTagLen_eq_tagLenSpec m pb tag _ hw hlen.symm
    rcases tagLenSpec_cases tag ((bs.drop (pb.buf.start - a)).take (pb.buf.end - pb.buf.start))
      with h0 | ⟨L, -, -, hfit, hspec⟩
    · exact ⟨0, none, hcode.trans (congrArg some h0), .inl ⟨rfl, rfl⟩⟩
    · rw [hlen] at hfit
      exact ⟨_, _, hcode.trans (congrArg some hspec),
        .inr ⟨_, rfl, two_le_lenOfTagAndLen L, by omega, by omega⟩⟩
  · refine ⟨0, none, ?_, .inl ⟨rfl, rfl⟩⟩
    simp [psParseBufGetTagLen, show pb.buf.end - pb.buf.start = 0 by omega]

theorem tryReadTagSub_spec (hm : Holds m a bs) (hpb : ParseBufOk a bs.length pb) (tag : UInt8) :
    ∃ n c, psParseBufTryReadTagSub m pb tag = some (n, c) ∧ OpenSpec pb n pb c ∧
      ParseBufOk a bs.length c ∧ ChildOf c n pb := by
  obtain ⟨n, hdr, hget, h0 | ⟨h, rfl, h2, hn, hfit⟩⟩ := getTagLen_of_ok hm hpb tag
  · obtain ⟨rfl, rfl⟩ := h0
    refine ⟨0, ⟨PsBuf.null, 1⟩, by simp [psParseBufTryReadTagSub, hget], ?_, ?_, ?_⟩
    · simp [OpenSpec, PsBuf.null]
    · simp [ParseBufOk, PsBuf.null]
    · simp [ChildOf]
  · obtain ⟨hbs, hse, -, hin⟩ := hpb
    refine ⟨n, _, by simp [psParseBufTryReadTagSub, hget, show n ≠ 0 by omega]; rfl, ?_, ?_, ?_⟩
    · refine ⟨rfl, le_refl _, fun _ => ⟨rfl, by dsimp only; omega, by dsimp only; omega,
        by dsimp only; omega⟩, fun h => by omega⟩
    · refine ⟨le_refl _, by dsimp only; omega, le_refl _, fun hlt => ?_⟩
      obtain ⟨ha, hb⟩ := hin (by dsimp only at hlt; omega)
      dsimp only
      omega
    · intro _
      dsimp only
      omega

theorem readTagSub_spec (hm : Holds m a bs) (hpb : ParseBufOk a bs.length pb) (tag : UInt8) :
    ∃ n p' c, psParseBufReadTagSub m pb tag = some (n, p', c) ∧ OpenSpec pb n p' c ∧
      ParseBufOk a bs.length p' ∧ ParseBufOk a bs.length c ∧ ChildOf c n p' := by
  obtain ⟨n, c, htry, ⟨-, -, hpos, hzero⟩, hc, hchild⟩ := tryReadTagSub_spec hm hpb tag
  by_cases hn : n = 0
  · subst hn
    have herr := (hzero rfl).1
    obtain ⟨hbs, hse, he, hin⟩ := hpb
    refine ⟨0, { pb with err := pb.err + 1 }, { c with buf := pb.buf },
      by simp [psParseBufReadTagSub, htry],
      ⟨rfl, by dsimp only; omega, by omega, fun _ => ⟨herr, .inr ⟨rfl, rfl⟩⟩⟩,
      ⟨hbs, hse, by dsimp only; omega, hin⟩, ⟨hbs, hse, herr.le, hin⟩, fun h => absurd h herr.ne'⟩
  · exact ⟨n, pb, c, by simp [psParseBufReadTagSub, htry, hn], ⟨rfl, le_refl _, hpos, by omega⟩,
      hpb, hc, hchild⟩

theorem Advance.zero {pb : PsParseBuf} (h : pb.buf.start ≤ pb.buf.end) : Advance pb 0 pb :=
  ⟨rfl, h, le_refl _⟩

theorem Advance.trans {p q r : PsParseBuf} {n k : Nat} (hpq : Advance p n q) (hqr : Advance q k r) :
    Advance p (n + k) r := by
  obtain ⟨hq, hn, he⟩ := hpq
  obtain ⟨hr, hk, he'⟩ := hqr
  rw [hq] at hr hk
  exact ⟨by rw [hr, Nat.add_assoc], by dsimp only at hk; omega, le_trans he he'⟩

theorem Advance.err_succ {p q : PsParseBuf} {n : Nat} (h : Advance p n q) :
    Advance p n { q with err := q.err + 1 } :=
  ⟨h.1, h.2.1, by dsimp only; linarith [h.2.2]⟩

theorem OpenSpec.advance_zero {p p' c : PsParseBuf} {n : Nat} (h : OpenSpec p n p' c)
    (hp : p.buf.start ≤ p.buf.end) : Advance p 0 p' :=
  ⟨h.1, hp, h.2.1⟩

theorem ParseBufOk.advance {len : Nat} {p q : PsParseBuf} {n : Nat} (h : ParseBufOk a len p)
    (hadv : Advance p n q) : ParseBufOk a len q := by
  obtain ⟨hbs, hse, he, hin⟩ := h
  obtain ⟨hq, hn, hle⟩ := hadv
  simp only [ParseBufOk, hq]
  refine ⟨by omega, hn, by omega, fun hlt => ?_⟩
  obtain ⟨ha, hb⟩ := hin (by omega)
  omega

theorem ChildOf.of_err_le {c c' p : PsParseBuf} {n : Nat} (h : ChildOf c n p)
    (hb : c'.buf.buf = c.buf.buf) (hs : c'.buf.size = c.buf.size) (he : c.err ≤ c'.err)
    (h0 : 0 ≤ c.err) : ChildOf c' n p := fun h' => hb ▸ hs ▸ h (by omega)

theorem ParseChainOk.ok {len : Nat} {c : PsParseBuf} {up : List (Nat × PsParseBuf)}
    (h : ParseChainOk a len c up) : ParseBufOk a len c := by
  cases up with
  | nil => exact h
  | cons _ _ => exact h.1

theorem ParseChainOk.advance {len : Nat} {c c' : PsParseBuf} {up : List (Nat × PsParseBuf)} {n : Nat}
    (h : ParseChainOk a len c up) (hadv : Advance c n c') : ParseChainOk a len c' up := by
  have hok := h.ok.advance hadv
  have hb : c'.buf.buf = c.buf.buf := by rw [hadv.1]
  have hs : c'.buf.size = c.buf.size := by rw [hadv.1]
  match up, h with
  | [], _ => exact hok
  | _ :: _, ⟨hc, hch, hrest⟩ => exact ⟨hok, hch.of_err_le hb hs hadv.2.2 hc.2.2.1, hrest⟩

theorem finish_advance {c p : PsParseBuf} {n : Nat} (hc : ChildOf c n p) (he : c.err = 0) :
    Advance p n (psParseBufFinish c p).2 := by
  obtain ⟨hend, hle⟩ := hc he
  exact ⟨by simp [psParseBufFinish, he, hend], hle, by simp [psParseBufFinish, he]⟩

theorem finish_chain {len : Nat} {c p : PsParseBuf} {n : Nat} {up : List (Nat × PsParseBuf)}
    (hc : ChildOf c n p) (hp : ParseChainOk a len p up) :
    FinishSpec c n p (psParseBufFinish c p).2 ∧ ParseChainOk a len (psParseBufFinish c p).2 up := by
  by_cases he : c.err = 0
  · have hadv := finish_advance hc he
    exact ⟨⟨fun _ => ⟨hadv.1, hadv.2.1, by simp [psParseBufFinish, he]⟩, fun h => absurd he h⟩,
      hp.advance hadv⟩
  · have hadv : Advance p 0 (psParseBufFinish c p).2 := by
      simpa [psParseBufFinish, he] using (Advance.zero hp.ok.2.1).err_succ
    exact ⟨⟨fun h => absurd h he, fun _ => by simp [psParseBufFinish, he]⟩, hp.advance hadv⟩

theorem readTagRef_spec (hm : Holds m a bs) (hpb : ParseBufOk a bs.length pb) (tag : UInt8) :
    ∃ n p' ref, psParseBufReadTagRef m pb tag = some (n, p', ref) ∧ Advance pb n p' := by
  obtain ⟨n, p', c, h, hopen, -, -, hch⟩ := readTagSub_spec hm hpb tag
  have hp' := hopen.advance_zero hpb.2.1
  by_cases hn : n = 0
  · subst hn
    exact ⟨0, p', none, by simp [psParseBufReadTagRef, h], hp'⟩
  · have hle := (hch (hopen.2.2.1 (Nat.pos_of_ne_zero hn)).1).2
    have hmove : Advance p' n { p' with buf := { p'.buf with start := p'.buf.start + n } } :=
      ⟨rfl, hle, le_refl _⟩
    exact ⟨n, _, _, by simp [psParseBufReadTagRef, h, hn]; exact ⟨rfl, rfl⟩,
      by simpa using hp'.trans hmove⟩

theorem trySkipTag_spec (hm : Holds m a bs) (hpb : ParseBufOk a bs.length pb) (tag : UInt8) :
    ∃ n p', psParseBufTrySkipTag m pb tag = some (n, p') ∧ Advance pb n p' := by
  obtain ⟨n, c, h, hopen, -, hch⟩ := tryReadTagSub_spec hm hpb tag
  by_cases hn : n = 0
  · subst hn
    exact ⟨0, pb, by simp [psParseBufTrySkipTag, h], .zero hpb.2.1⟩
  · exact ⟨n, _, by simp [psParseBufTrySkipTag, h, hn],
      finish_advance hch (hopen.2.2.1 (Nat.pos_of_ne_zero hn)).1⟩

theorem skipTag_spec (hm : Holds m a bs) (hpb : ParseBufOk a bs.length pb) (tag : UInt8) :
    ∃ n p', psParseBufSkipTag m pb tag = some (n, p') ∧ Advance pb n p' := by
  obtain ⟨n, p', c, h, hopen, -, -, hch⟩ := readTagSub_spec hm hpb tag
  have hp' := hopen.advance_zero hpb.2.1
  by_cases hn : n = 0
  · subst hn
    exact ⟨0, p', by simp [psParseBufSkipTag, h], hp'⟩
  · exact ⟨n, _, by simp [psParseBufSkipTag, h, hn]; rfl,
      by simpa using hp'.trans (finish_advance hch (hopen.2.2.1 (Nat.pos_of_ne_zero hn)).1)⟩

theorem readBytes_of_ok (hm : Holds m a bs) (hpb : ParseBufOk a bs.length pb) {k : Nat}
    (hk : k ≤ pb.buf.end - pb.buf.start) : ∃ ys, readBytes m k pb.buf.start = some ys := by
  rcases Nat.eq_zero_or_pos k with rfl | hpos
  · exact ⟨[], rfl⟩
  · obtain ⟨ha, hb⟩ := hpb.2.2.2 (by omega)
    obtain ⟨hw, hlen⟩ := hm.window (s := pb.buf.start) (n := k) ha (by omega)
    have := readBytes_eq hw
    rw [hlen] at this
    exact ⟨_, this⟩

theorem trySkipBytes_spec (hm : Holds m a bs) (hpb : ParseBufOk a bs.length pb)
    (bytes : List UInt8) :
    ∃ n p', psParseBufTrySkipBytes m pb bytes = some (n, p') ∧ Advance pb n p' := by
  by_cases hcan : bytes.length ≤ pb.buf.end - pb.buf.start
  · obtain ⟨ys, hys⟩ := readBytes_of_ok hm hpb hcan
    simp only [psParseBufTrySkipBytes, psParseCanRead, hcan, decide_True, if_true, hys,
      Option.map_some', Option.bind_eq_bind, Option.some_bind, Option.pure_def]
    have hse := hpb.2.1
    exact ⟨_, _, rfl, rfl, by split <;> omega, le_refl _⟩
  · exact ⟨0, pb, by simp [psParseBufTrySkipBytes, psParseCanRead, hcan], .zero hpb.2.1⟩

theorem skipBytes_spec (hm : Holds m a bs) (hpb : ParseBufOk a bs.length pb)
    (bytes : List UInt8) :
    ∃ n p', psParseBufSkipBytes m pb bytes = some (n, p') ∧ Advance pb n p' := by
  obtain ⟨n, p', h, hadv⟩ := trySkipBytes_spec hm hpb bytes
  refine ⟨n, _, by simp [psParseBufSkipBytes, h]; rfl, ?_⟩
  split_ifs
  · exact hadv.err_succ
  · exact hadv

/-- One step from a state in the invariant: every applicable operation is defined,
does what `StepSpec` says, and keeps the invariant. -/
theorem parseStep_spec (hm : Holds m a bs) {s : ParseState} (hs : ParseInv a bs.length s)
    {op : ParseOp} (hop : Applicable s op) :
    ∃ r, parseStep m s op = some r ∧ StepSpec s op r ∧ ParseInv a bs.length r.2 := by
  obtain ⟨top, up⟩ := s
  have htop : ParseBufOk a bs.length top := ParseChainOk.ok hs
  cases op with
  | tryReadTagSub tag =>
    obtain ⟨n, c, h, hopen, hc, hch⟩ := tryReadTagSub_spec hm htop tag
    exact ⟨(n, ⟨c, (n, top) :: up⟩), by simp [parseStep, h], ⟨_, rfl, hopen⟩, hc, hch, hs⟩
  | readTagSub tag =>
    obtain ⟨n, p', c, h, hopen, -, hc, hch⟩ := readTagSub_spec hm htop tag
    exact ⟨(n, ⟨c, (n, p') :: up⟩), by simp [parseStep, h], ⟨_, rfl, hopen⟩, hc, hch,
      ParseChainOk.advance hs (hopen.advance_zero htop.2.1)⟩
  | finish =>
    match up, hs, hop with
    | [], _, hop => exact absurd rfl hop
    | (n, p) :: up, hs, _ =>
      obtain ⟨-, hch, hrest⟩ := hs
      obtain ⟨hfin, hchain⟩ := finish_chain hch hrest
      exact ⟨_, rfl, ⟨n, p, rfl, hfin⟩, hchain⟩
  | cancel =>
    match up, hs, hop with
    | [], _, hop => exact absurd rfl hop
    | (n, p) :: up, hs, _ => exact ⟨_, rfl, ⟨n, rfl⟩, hs.2.2⟩
  | readTagRef tag =>
    obtain ⟨n, p', _, h, hadv⟩ := readTagRef_spec hm htop tag
    exact ⟨(n, ⟨p', up⟩), by simp [parseStep, h], ⟨rfl, hadv⟩, ParseChainOk.advance hs hadv⟩
  | trySkipTag tag =>
    obtain ⟨n, p', h, hadv⟩ := trySkipTag_spec hm htop tag
    exact ⟨(n, ⟨p', up⟩), by simp [parseStep, h], ⟨rfl, hadv⟩, ParseChainOk.advance hs hadv⟩
  | skipTag tag =>
    obtain ⟨n, p', h, hadv⟩ := skipTag_spec hm htop tag
    exact ⟨(n, ⟨p', up⟩), by simp [parseStep, h], ⟨rfl, hadv⟩, ParseChainOk.advance hs hadv⟩
  | trySkipBytes bytes =>
    obtain ⟨n, p', h, hadv⟩ := trySkipBytes_spec hm htop bytes
    exact ⟨(n, ⟨p', up⟩), by simp [parseStep, h], ⟨rfl, hadv⟩, ParseChainOk.advance hs hadv⟩
  | skipBytes bytes =>
    obtain ⟨n, p', h, hadv⟩ := skipBytes_spec hm htop bytes
    exact ⟨(n, ⟨p', up⟩), by simp [parseStep, h], ⟨rfl, hadv⟩, ParseChainOk.advance hs hadv⟩

theorem applicable_of_parseStep {s : ParseState} {op : ParseOp} {r : Nat × ParseState}
    (h : parseStep m s op = some r) : Applicable s op := by
  cases op <;> try trivial
  all_goals
    intro hup
    simp [parseStep, hup] at h

theorem parseRun_inv (hm : Holds m a bs) {ops : List ParseOp} :
    ∀ {s s' : ParseState}, ParseInv a bs.length s → parseRun m s ops = some s' →
      ParseInv a bs.length s' := by
  induction ops with
  | nil =>
    rintro s s' hs ⟨⟩
    exact hs
  | cons op ops ih =>
    intro s s' hs h
    obtain ⟨⟨n, r⟩, hr, hrun⟩ := Option.bind_eq_some.1 h
    obtain ⟨r', hr', -, hinv⟩ := parseStep_spec hm hs (applicable_of_parseStep hr)
    rw [hr] at hr'
    cases hr'
    exact ih hinv hrun

end Steps

theorem parseInit_inv (data len : Nat) : ParseInv data len (parseInit data len) := by
  by_cases h : data = 0 <;>
    simp [parseInit, psParseBufFromStaticData, ParseInv, ParseChainOk, ParseBufOk, PsBuf.null, h]

/-- Along every run of parse operations over an input wrapped by
`psParseBufFromStaticData`, every open buffer keeps `buf ≤ start ≤ end` with its
unread bytes inside the input, and every next operation is defined (it reads
nothing outside the input) and does what `StepSpec` says: a child opens inside its
parent's unread span, or empty or over that span and in error; finishing moves the
parent by exactly the length the child was opened with, or raises its count by
one; cancelling gives the parent back unchanged; reads and skips move the cursor
on by the length they return and never past the end; no count goes down. -/
theorem parse_runs_keep_cursors {m : Mem} {data : Nat} {bs : List UInt8} {ops : List ParseOp}
    {s : ParseState} (hm : Holds m data bs)
    (hrun : parseRun m (parseInit data bs.length) ops = some s) :
    ParseInv data bs.length s ∧
      ∀ op, Applicable s op → ∃ r, parseStep m s op = some r ∧ StepSpec s op r := by
  have hs := parseRun_inv hm (parseInit_inv data bs.length) hrun
  refine ⟨hs, fun op hop => ?_⟩
  obtain ⟨r, hr, hspec, -⟩ := parseStep_spec hm hs hop
  exact ⟨r, hr, hspec⟩

theorem parse_runs_keep_cursors_sequence :
    ParseInv 1 2 ⟨⟨⟨1, 3, 3, 2⟩, 0⟩, []⟩ ∧
      ∀ op, Applicable ⟨⟨⟨1, 3, 3, 2⟩, 0⟩, []⟩ op →
        ∃ r, parseStep (Mem.ofList [0, 0x30, 0x00]) ⟨⟨⟨1, 3, 3, 2⟩, 0⟩, []⟩ op = some r ∧
          StepSpec ⟨⟨⟨1, 3, 3, 2⟩, 0⟩, []⟩ op r :=
  @parse_runs_keep_cursors (Mem.ofList [0, 0x30, 0x00]) 1 [0x30, 0x00] [.readTagSub 0x30, .finish] _
    (by simpa using (holds_ofList [0, 0x30, 0x00]).drop 1) rfl

/-- The unread bytes of `pb` within the input `bs` held from `a`. -/
def unread (a : Nat) (bs : List UInt8) (pb : PsParseBuf) : List UInt8 :=
  (bs.drop (pb.buf.start - a)).take (pb.buf.end - pb.buf.start)

theorem readBytes_unread {m : Mem} {a : Nat} {bs : List UInt8} {pb : PsParseBuf} (hm : Holds m a bs)
    (hpb : ParseBufOk a bs.length pb) :
    readBytes m (pb.buf.end - pb.buf.start) pb.buf.start = some (unread a bs pb) ∧
      (unread a bs pb).length = pb.buf.end - pb.buf.start := by
  rcases Nat.lt_or_ge pb.buf.start pb.buf.end with hlt | hge
  · obtain ⟨ha, hb⟩ := hpb.2.2.2 hlt
    obtain ⟨hw, hlen⟩ := hm.window (s := pb.buf.start) (n := pb.buf.end - pb.buf.start) ha (by omega)
    have := readBytes_eq hw
    rw [hlen] at this
    exact ⟨this, hlen⟩
  · simp [unread, show pb.buf.end - pb.buf.start = 0 by omega, readBytes]

/-- Along every run of parse operations over an input wrapped by
`psParseBufFromStaticData`, `psParseBufCopyAll` on the innermost buffer: in
error, fails and changes nothing; otherwise the probe with no target and a call
with a target too small both report the number of unread bytes and change
nothing, and a call with a target large enough copies exactly the unread bytes
there, changes no other byte, and leaves `*targetlen` as it was. -/
theorem copyAll_size_then_copy {m : Mem} {data : Nat} {bs : List UInt8} {ops : List ParseOp}
    {s : ParseState} (hm : Holds m data bs) (hrun : parseRun m (parseInit data bs.length) ops = some s)
    (h : Heap) :
    (s.top.err ≠ 0 → ∀ target cap, psParseBufCopyAll m h s.top target cap = some (.psFailure, cap, h)) ∧
    (s.top.err = 0 →
      (∀ cap, psParseBufCopyAll m h s.top 0 cap =
        some (.psOutputLength, s.top.buf.end - s.top.buf.start, h)) ∧
      (∀ target cap, target ≠ 0 → cap < s.top.buf.end - s.top.buf.start →
        psParseBufCopyAll m h s.top target cap = some (.psOutputLength, s.top.buf.end - s.top.buf.start, h)) ∧
      (∀ target cap, target ≠ 0 → s.top.buf.end - s.top.buf.start ≤ cap →
        ∃ h', psParseBufCopyAll m h s.top target cap = some (.psSuccess, cap, h') ∧
          h'.read target (s.top.buf.end - s.top.buf.start) = unread data bs s.top ∧
          h.Agree h' target (target + (s.top.buf.end - s.top.buf.start)))) := by
  obtain ⟨hread, hlen⟩ := readBytes_unread hm (parseRun_inv hm (parseInit_inv data bs.length) hrun).ok
  refine ⟨fun herr target cap => by simp [psParseBufCopyAll, herr], fun herr =>
    ⟨fun cap => by simp [psParseBufCopyAll, herr], fun target cap ht hcap => ?_,
      fun target cap ht hcap => ?_⟩⟩
  · simp [psParseBufCopyAll, herr, ht, hcap]
  · refine ⟨h.write target (unread data bs s.top), by simp [psParseBufCopyAll, herr, ht, Nat.not_lt.2 hcap, hread],
      ?_, ?_⟩
    · simpa [hlen] using Heap.read_write_self h target (unread data bs s.top)
    · exact Heap.agree_write le_rfl (by rw [hlen])

theorem copyAll_size_then_copy_octets :
    let m := Mem.ofList [0, 0x04, 0x02, 0xAB, 0xCD]
    let h : Heap := ⟨fun _ => 0, 1, Nat.one_pos⟩
    ∃ s, parseRun m (parseInit 1 4) [.readTagSub 0x04] = some s ∧
      (s.top.err ≠ 0 → ∀ target cap, psParseBufCopyAll m h s.top target cap = some (.psFailure, cap, h)) ∧
      (s.top.err = 0 →
        (∀ cap, psParseBufCopyAll m h s.top 0 cap = some (.psOutputLength, s.top.buf.end - s.top.buf.start, h)) ∧
        (∀ target cap, target ≠ 0 → cap < s.top.buf.end - s.top.buf.start →
          psParseBufCopyAll m h s.top target cap = some (.psOutputLength, s.top.buf.end - s.top.buf.start, h)) ∧
        (∀ target cap, target ≠ 0 → s.top.buf.end - s.top.buf.start ≤ cap →
          ∃ h', psParseBufCopyAll m h s.top target cap = some (.psSuccess, cap, h') ∧
            h'.read target (s.top.buf.end - s.top.buf.start) = unread 1 [0x04, 0x02, 0xAB, 0xCD] s.top ∧
            h.Agree h' target (target + (s.top.buf.end - s.top.buf.start)))) :=
  ⟨_, rfl, @copyAll_size_then_copy (Mem.ofList [0, 0x04, 0x02, 0xAB, 0xCD]) 1 [0x04, 0x02, 0xAB, 0xCD]
    [.readTagSub 0x04] _ (by simpa using (holds_ofList [0, 0x04, 0x02, 0xAB, 0xCD]).drop 1) rfl _⟩

end MatrixSsl
