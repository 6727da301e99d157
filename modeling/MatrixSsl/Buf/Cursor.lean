import MatrixSsl.Buf.Descend

/-!
# Parse buffers as cursors over bytes

What a parse buffer is for: a cursor over the bytes it has not read yet, with an
error count. `cursorStep` says what each operation does on that view alone, on
byte lists and with no pointer in sight: opening a tag gives a child over exactly
the content that follows the header `tagLenSpec` reads, finishing an error-free
child drops the whole tag from its parent, and a skip drops the bytes it matched.

`ParseState.view` reads every open buffer of the code as such a cursor, and
`parseStep_refines` shows that the code's pointer arithmetic computes exactly the
cursor step on every state of `ParseInv`; `parse_runs_are_cursor_runs` carries
this along every run from `psParseBufFromStaticData`.
-/

namespace MatrixSsl

/-- What a parse buffer stands for: the bytes it has not read yet, and its error
count. -/
structure Cursor where
  rest : List UInt8
  err : Int
  deriving DecidableEq, Repr

/-- The open cursors, innermost first, each ancestor with the length its child
was opened with. -/
structure CursorState where
  top : Cursor
  up : List (Nat × Cursor)
  deriving DecidableEq, Repr

namespace Cursor

def skip (c : Cursor) (n : Nat) : Cursor := ⟨c.rest.drop n, c.err⟩

def fail (c : Cursor) : Cursor := ⟨c.rest, c.err + 1⟩

/-- The child over the tag at the front of `u`: the content that follows the header
`tagLenSpec` reads, or nothing and in error when there is no such tag. -/
def child (tag : UInt8) (u : List UInt8) : Cursor :=
  let (len, hdr) := tagLenSpec tag u
  if len = 0 then ⟨[], 1⟩ else ⟨(u.drop (hdr.getD 0)).take (len - hdr.getD 0), 0⟩

end Cursor

/-- How far a literal skip moves: over all of `bytes` when the unread bytes start
with them. -/
def matchLen (bytes u : List UInt8) : Nat := if bytes.isPrefixOf u then bytes.length else 0

/-- One operation on the innermost cursor, with the length it returns (for a
finish, `1` when the child is in error). A failed
`psParseBufReadTagSub` opens a child in error over all of its parent's bytes and
counts an error in the parent as well. -/
def cursorStep (s : CursorState) : ParseOp → Option (Nat × CursorState)
  | .tryReadTagSub tag =>
    let n := (tagLenSpec tag s.top.rest).1
    some (n, ⟨Cursor.child tag s.top.rest, (n, s.top) :: s.up⟩)
  | .readTagSub tag =>
    let n := (tagLenSpec tag s.top.rest).1
    if n = 0 then some (0, ⟨⟨s.top.rest, 1⟩, (0, s.top.fail) :: s.up⟩)
    else some (n, ⟨Cursor.child tag s.top.rest, (n, s.top) :: s.up⟩)
  | .finish => match s.up with
    | [] => none
    | (n, p) :: up => some (if s.top.err = 0 then 0 else 1, ⟨if s.top.err = 0 then p.skip n else p.fail, up⟩)
  | .cancel => match s.up with
    | [] => none
    | (_, p) :: up => some (0, ⟨p, up⟩)
  | .readTagRef tag | .skipTag tag =>
    let n := (tagLenSpec tag s.top.rest).1
    some (n, ⟨if n = 0 then s.top.fail else s.top.skip n, s.up⟩)
  | .trySkipTag tag =>
    let n := (tagLenSpec tag s.top.rest).1
    some (n, ⟨s.top.skip n, s.up⟩)
  | .trySkipBytes bytes =>
    let n := matchLen bytes s.top.rest
    some (n, ⟨s.top.skip n, s.up⟩)
  | .skipBytes bytes =>
    let n := matchLen bytes s.top.rest
    some (n, ⟨if n = 0 then s.top.fail else s.top.skip n, s.up⟩)

def cursorRun : CursorState → List ParseOp → Option CursorState
  | s, [] => some s
  | s, op :: ops => do
    let (_, s) ← cursorStep s op
    cursorRun s ops

/-- A parse buffer as a cursor over the input `bs` held from `a`. -/
def PsParseBuf.cursor (a : Nat) (bs : List UInt8) (pb : PsParseBuf) : Cursor :=
  ⟨unread a bs pb, pb.err⟩

def ParseState.view (a : Nat) (bs : List UInt8) (s : ParseState) : CursorState :=
  ⟨s.top.cursor a bs, s.up.map fun e => (e.1, e.2.cursor a bs)⟩

@[simp] theorem PsParseBuf.cursor_rest (a : Nat) (bs : List UInt8) (pb : PsParseBuf) :
    (pb.cursor a bs).rest = unread a bs pb := rfl

@[simp] theorem PsParseBuf.cursor_err (a : Nat) (bs : List UInt8) (pb : PsParseBuf) :
    (pb.cursor a bs).err = pb.err := rfl

@[simp] theorem PsParseBuf.cursor_mk (a : Nat) (bs : List UInt8) (b : PsBuf Nat) (e : Int) :
    (⟨b, e⟩ : PsParseBuf).cursor a bs = ⟨unread a bs ⟨b, e⟩, e⟩ := rfl

@[simp] theorem Cursor.skip_zero (c : Cursor) : c.skip 0 = c := rfl

@[simp] theorem PsParseBuf.advance_zero (pb : PsParseBuf) : pb.advance 0 = pb := by
  simp [PsParseBuf.advance]

@[simp] theorem PsParseBuf.advance_fold (pb : PsParseBuf) (n : Nat) :
    ({ pb with buf := { pb.buf with start := pb.buf.start + n } } : PsParseBuf) = pb.advance n := rfl

theorem Cursor.child_err_of_ne {tag : UInt8} {u : List UInt8} (h : (tagLenSpec tag u).1 ≠ 0) :
    (Cursor.child tag u).err = 0 := by
  simp [Cursor.child, h]

theorem Cursor.child_err_of_eq {tag : UInt8} {u : List UInt8} (h : (tagLenSpec tag u).1 = 0) :
    (Cursor.child tag u).err = 1 := by
  simp [Cursor.child, h]

theorem isPrefixOf_eq_take_beq (bytes u : List UInt8) :
    (u.take bytes.length == bytes) = bytes.isPrefixOf u := by
  rw [Bool.eq_iff_iff, beq_iff_eq, List.isPrefixOf_iff_prefix, List.prefix_iff_eq_take, eq_comm]

theorem matchLen_le (bytes u : List UInt8) : matchLen bytes u ≤ u.length := by
  unfold matchLen
  split_ifs with h
  · exact (List.isPrefixOf_iff_prefix.1 h).length_le
  · exact Nat.zero_le _

section View

variable {m : Mem} {a : Nat} {bs : List UInt8} {pb : PsParseBuf}

theorem holds_unread (hm : Holds m a bs) (hpb : ParseBufOk a bs.length pb) :
    Holds m pb.buf.start (unread a bs pb) ∧ (unread a bs pb).length = pb.buf.end - pb.buf.start := by
  rcases Nat.lt_or_ge pb.buf.start pb.buf.end with hlt | hge
  · obtain ⟨ha, hb⟩ := hpb.2.2.2 hlt
    exact hm.window ha (by omega)
  · simp [unread, show pb.buf.end - pb.buf.start = 0 by omega]

theorem unread_advance (hpb : ParseBufOk a bs.length pb) {n : Nat}
    (hn : pb.buf.start + n ≤ pb.buf.end) : unread a bs (pb.advance n) = (unread a bs pb).drop n := by
  rcases Nat.eq_zero_or_pos n with rfl | hpos
  · simp
  · have ha := (hpb.2.2.2 (by omega)).1
    simp only [unread, PsParseBuf.advance, List.drop_take, List.drop_drop]
    rw [show pb.buf.start + n - a = pb.buf.start - a + n by omega, Nat.sub_sub]

@[simp] theorem unread_buf (pb : PsParseBuf) (e : Int) : unread a bs ⟨pb.buf, e⟩ = unread a bs pb := rfl

theorem cursor_advance (hpb : ParseBufOk a bs.length pb) {n : Nat} (hn : pb.buf.start + n ≤ pb.buf.end) :
    (pb.advance n).cursor a bs = (pb.cursor a bs).skip n := by
  simp only [PsParseBuf.cursor, Cursor.skip, unread_advance hpb hn]
  rfl

theorem tryReadTagSub_view (hm : Holds m a bs) (hpb : ParseBufOk a bs.length pb) (tag : UInt8) :
    ∃ c, psParseBufTryReadTagSub m pb tag = some ((tagLenSpec tag (unread a bs pb)).1, c) ∧
      c.cursor a bs = Cursor.child tag (unread a bs pb) ∧
      ChildOf c (tagLenSpec tag (unread a bs pb)).1 pb := by
  have hget := @psParseBufGetTagLen_eq_tagLenSpec m pb tag _ (holds_unread hm hpb).1
    (holds_unread hm hpb).2.symm
  rcases tagLenSpec_cases tag (unread a bs pb) with h0 | ⟨L, -, -, hfit, hspec⟩
  · refine ⟨⟨PsBuf.null, 1⟩, by simp [psParseBufTryReadTagSub, hget, h0], ?_, by simp [ChildOf]⟩
    simp only [PsParseBuf.cursor, Cursor.child, h0, if_true]
    simp [unread, PsBuf.null]
  · have h2 := two_le_lenOfTagAndLen L
    have hlen := (holds_unread hm hpb).2
    have ha := (hpb.2.2.2 (by omega)).1
    have hN : lenOfTagAndLen L + L ≠ 0 := by omega
    let s := pb.buf.start + lenOfTagAndLen L
    refine ⟨⟨⟨s, s, s + L, L⟩, 0⟩, by simp [psParseBufTryReadTagSub, hget, hspec, hN, s], ?_,
      fun _ => by simp only [hspec, s]; omega⟩
    simp only [PsParseBuf.cursor, Cursor.child, hspec, if_neg hN, Option.getD_some]
    simp only [unread, s, List.drop_take, List.drop_drop, List.take_take]
    rw [show pb.buf.start + lenOfTagAndLen L - a = pb.buf.start - a + lenOfTagAndLen L by omega,
      min_eq_left (by omega)]
    simp only [Nat.add_sub_cancel_left]

theorem trySkipBytes_view (hm : Holds m a bs) (hpb : ParseBufOk a bs.length pb) (bytes : List UInt8) :
    psParseBufTrySkipBytes m pb bytes =
      some (matchLen bytes (unread a bs pb), pb.advance (matchLen bytes (unread a bs pb))) := by
  obtain ⟨hu, hlen⟩ := holds_unread hm hpb
  by_cases hk : bytes.length ≤ pb.buf.end - pb.buf.start
  · have hread : readBytes m bytes.length pb.buf.start = some ((unread a bs pb).take bytes.length) := by
      simpa [hlen, hk] using readBytes_eq (hu.take bytes.length)
    simp [psParseBufTrySkipBytes, psParseCanRead, hk, hread, ← isPrefixOf_eq_take_beq, matchLen]
  · have : bytes.isPrefixOf (unread a bs pb) = false := by
      rw [Bool.eq_false_iff]
      exact fun h => hk (hlen ▸ (List.isPrefixOf_iff_prefix.1 h).length_le)
    simp [psParseBufTrySkipBytes, psParseCanRead, hk, matchLen, this]

/-- One step of the code is one step of the cursor machine: on every state in the
invariant, an operation is defined exactly when the cursor step is, returns the
same length, and leaves the buffers whose cursors are what the cursor step gives. -/
theorem parseStep_refines (hm : Holds m a bs) {s : ParseState} (hs : ParseInv a bs.length s)
    (op : ParseOp) :
    (parseStep m s op).map (fun r => (r.1, r.2.view a bs)) = cursorStep (s.view a bs) op := by
  obtain ⟨top, up⟩ := s
  have htop : ParseBufOk a bs.length top := ParseChainOk.ok hs
  cases op with
  | tryReadTagSub tag =>
    obtain ⟨c, h, hc, -⟩ := tryReadTagSub_view hm htop tag
    simp [parseStep, cursorStep, h, ParseState.view, hc]
  | readTagSub tag =>
    obtain ⟨c, h, hc, -⟩ := tryReadTagSub_view hm htop tag
    by_cases hn : (tagLenSpec tag (unread a bs top)).1 = 0
    · have he : c.err = 1 := by rw [← Cursor.child_err_of_eq hn, ← hc]; rfl
      simp [parseStep, cursorStep, psParseBufReadTagSub, h, hn, ParseState.view, he, Cursor.fail]
    · simp [parseStep, cursorStep, psParseBufReadTagSub, h, hn, ParseState.view, hc]
  | finish =>
    match up, hs with
    | [], _ => rfl
    | (n, p) :: up, ⟨_, hch, hrest⟩ =>
      by_cases he : top.err = 0
      · obtain ⟨hend, hle⟩ := hch he
        simp [parseStep, cursorStep, ParseState.view, psParseBufFinish, he, hend,
          cursor_advance hrest.ok hle]
      · simp [parseStep, cursorStep, psParseBufFinish, ParseState.view, he, Cursor.fail]
  | cancel => cases up <;> rfl
  | readTagRef tag =>
    obtain ⟨c, h, hc, hch⟩ := tryReadTagSub_view hm htop tag
    by_cases hn : (tagLenSpec tag (unread a bs top)).1 = 0
    · simp [parseStep, cursorStep, psParseBufReadTagRef, psParseBufReadTagSub, h, hn, ParseState.view, Cursor.fail]
    · have he : c.err = 0 := by rw [← Cursor.child_err_of_ne hn, ← hc]; rfl
      simp [parseStep, cursorStep, psParseBufReadTagRef, psParseBufReadTagSub, h, hn, ParseState.view,
        cursor_advance htop (hch he).2]
  | trySkipTag tag =>
    obtain ⟨c, h, hc, hch⟩ := tryReadTagSub_view hm htop tag
    by_cases hn : (tagLenSpec tag (unread a bs top)).1 = 0
    · simp [parseStep, cursorStep, psParseBufTrySkipTag, h, hn, ParseState.view]
    · have he : c.err = 0 := by rw [← Cursor.child_err_of_ne hn, ← hc]; rfl
      simp [parseStep, cursorStep, psParseBufTrySkipTag, psParseBufFinish, h, hn, ParseState.view, he,
        (hch he).1, cursor_advance htop (hch he).2]
  | skipTag tag =>
    obtain ⟨c, h, hc, hch⟩ := tryReadTagSub_view hm htop tag
    by_cases hn : (tagLenSpec tag (unread a bs top)).1 = 0
    · simp [parseStep, cursorStep, psParseBufSkipTag, psParseBufReadTagSub, h, hn, ParseState.view, Cursor.fail]
    · have he : c.err = 0 := by rw [← Cursor.child_err_of_ne hn, ← hc]; rfl
      simp [parseStep, cursorStep, psParseBufSkipTag, psParseBufReadTagSub, psParseBufFinish, h, hn,
        ParseState.view, he, (hch he).1, cursor_advance htop (hch he).2]
  | trySkipBytes bytes =>
    have hle := matchLen_le bytes (unread a bs top)
    rw [(holds_unread hm htop).2] at hle
    have hse := htop.2.1
    simp [parseStep, cursorStep, trySkipBytes_view hm htop, ParseState.view,
      cursor_advance htop (show top.buf.start + matchLen bytes (unread a bs top) ≤ top.buf.end by omega)]
  | skipBytes bytes =>
    have hle := matchLen_le bytes (unread a bs top)
    rw [(holds_unread hm htop).2] at hle
    have hse := htop.2.1
    by_cases hn : matchLen bytes (unread a bs top) = 0
    · simp [parseStep, cursorStep, psParseBufSkipBytes, trySkipBytes_view hm htop, ParseState.view, hn, Cursor.fail]
    · simp [parseStep, cursorStep, psParseBufSkipBytes, trySkipBytes_view hm htop, ParseState.view, hn,
        cursor_advance htop (show top.buf.start + matchLen bytes (unread a bs top) ≤ top.buf.end by omega)]

theorem parseRun_refines (hm : Holds m a bs) {ops : List ParseOp} :
    ∀ {s : ParseState}, ParseInv a bs.length s →
      (parseRun m s ops).map (ParseState.view a bs) = cursorRun (s.view a bs) ops := by
  induction ops with
  | nil => intro s _; rfl
  | cons op ops ih =>
    intro s hs
    have hstep := parseStep_refines hm hs op
    cases h : parseStep m s op with
    | none =>
      rw [h] at hstep
      simp [parseRun, cursorRun, h, ← hstep]
    | some r =>
      obtain ⟨r', hr', -, hinv⟩ := parseStep_spec hm hs (applicable_of_parseStep h)
      rw [h] at hr' hstep
      cases hr'
      simp [parseRun, cursorRun, h, ← hstep, ih hinv]

end View

/-- Over an input held at a non-null address and wrapped by
`psParseBufFromStaticData`, every run of parse operations is a run of the cursor
machine started on the whole input: the code's run is defined exactly when the
cursor machine's is, and then every open buffer's unread bytes and error count
are the ones of the cursor at the same depth. -/
theorem parse_runs_are_cursor_runs {m : Mem} {data : Nat} {bs : List UInt8} (hm : Holds m data bs)
    (hd : data ≠ 0) (ops : List ParseOp) :
    (parseRun m (parseInit data bs.length) ops).map (ParseState.view data bs) =
      cursorRun ⟨⟨bs, 0⟩, []⟩ ops := by
  rw [parseRun_refines hm (parseInit_inv data bs.length), parseInit_of_ne_zero _ hd]
  simp [ParseState.view, unread]

theorem parse_runs_are_cursor_runs_sequence :
    (parseRun (Mem.ofList [0, 0x30, 3, 2, 1, 5]) (parseInit 1 5) [.readTagSub 0x30, .readTagRef 2, .finish]).map
        (ParseState.view 1 [0x30, 3, 2, 1, 5]) =
      cursorRun ⟨⟨[0x30, 3, 2, 1, 5], 0⟩, []⟩ [.readTagSub 0x30, .readTagRef 2, .finish] :=
  parse_runs_are_cursor_runs (by simpa using (holds_ofList [0, 0x30, 3, 2, 1, 5]).drop 1) one_ne_zero _

example : cursorRun ⟨⟨[0x30, 3, 2, 1, 5], 0⟩, []⟩ [.readTagSub 0x30, .readTagRef 2, .finish] =
    some ⟨⟨[], 0⟩, []⟩ := by decide

end MatrixSsl
