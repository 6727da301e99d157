import MatrixSsl.Buf.Heap
import MatrixSsl.Buf.DerLen

/-!
# Dynamic buffers

The write side of `psbuf.c`. A `psDynBuf_t` owns a `psBuf_t` region
`[buf, buf + size)` with its content in `[start, end)`, head room before it and
tail room after it. A sub-buffer has no pool and lives inside its master's
content; growing it grows the master (recursively, up to the root, which
reallocates) and shifts the master's bytes after it. `psDynBufSubFinish` folds
the sub-buffer back: its content replaces its region in the master.

The open buffers form a chain: `DynState` holds the memory, the innermost open
buffer `top`, which every operation writes to, and its masters innermost first;
the last one is the root. The `master` pointers of the C structs are this order.
`size_t` sums wrap at `2^64` (`sizeT`); pointer sums are added in `Nat`, which is
the machine's sum while it stays below `2^64` (`psBufAppendSize64_eq`).
An `assert` that fails, or a use of a `NULL` master, leaves no result (`none`).
Each operation that may allocate takes the allocator's answer `ok`. The debug
`memset`s of `assert_subbuf` and `psDynBufGrow` are part of the model: they
write into the head and tail room of sub-buffers.
-/

namespace MatrixSsl

/-- A `size_t` sum. -/
def sizeT (n : Nat) : Nat := n % 2 ^ 64

/-- `psDynBuf_t` without its `master` link: the buffer, the pool (`NULL` is `0`)
and the error count. -/
structure DynBuf where
  buf : PsBuf Nat
  pool : Nat
  err : Int
  deriving DecidableEq, Repr

/-- The open buffers: `top` is written to, `masters` are its masters innermost
first, the last being the root. -/
structure DynState where
  heap : Heap
  top : DynBuf
  masters : List DynBuf

def psBufInit (h : Heap) (ok : Bool) (capacity : Nat) : Heap × PsBuf Nat :=
  let (p, h) := h.psMalloc ok capacity
  (h, ⟨p, p, p, if p ≠ 0 then capacity else 0⟩)

/-- The location of the `sz` new bytes (`NULL` when they do not fit) and the buffer. -/
def psBufAppendSize (b : PsBuf Nat) (sz : Nat) : Nat × PsBuf Nat :=
  if b.end + sz ≤ b.buf + b.size then (b.end, { b with «end» := b.end + sz }) else (0, b)

def psBufReservePrepend (b : PsBuf Nat) (sz : Nat) : Option (PsBuf Nat) :=
  if b.start ≠ b.end then none
  else if b.end + sz ≤ b.buf + b.size then some { b with start := b.start + sz, «end» := b.end + sz }
  else some b

def psBufPrependSize (b : PsBuf Nat) (sz : Nat) : Nat × PsBuf Nat :=
  if b.buf ≤ b.start ∧ b.buf + sz ≤ b.start then (b.start - sz, { b with start := b.start - sz })
  else (0, b)

/-- `assert_subbuf` on `sub` with master `db`: no pool, and the whole region
inside the master's content; then it marks the head room with `(` and the tail
room with `)`. -/
def assertSubbuf (h : Heap) (sub db : DynBuf) : Option Heap :=
  if sub.pool = 0 ∧ db.buf.start ≤ sub.buf.buf ∧ sub.buf.buf ≤ db.buf.end ∧
      db.buf.start ≤ sub.buf.buf + sub.buf.size ∧ sub.buf.buf + sub.buf.size ≤ db.buf.end then
    some ((h.memset sub.buf.buf 0x28 (sub.buf.start - sub.buf.buf)).memset sub.buf.end 0x29
      (sub.buf.buf + sub.buf.size - sub.buf.end))
  else none

/-- The head room `psDynBufGrow` asks for: at least `PS_DYNBUF_GROW` (`grow`)
unless none. -/
def roundHead (grow head_sz : Nat) : Nat := if head_sz ≠ 0 ∧ head_sz < grow then grow else head_sz

/-- The tail room `psDynBufGrow` asks for: at least `PS_DYNBUF_GROW`. -/
def roundTail (grow tail_sz : Nat) : Nat := if tail_sz < grow then grow else tail_sz

/-- `psDynBufGrow` on `db` with masters `ms`: the location it returns (`NULL` is
`0`) and the chain afterwards. `grow` is `PS_DYNBUF_GROW`, defined in a header
that is not part of the repository. -/
def psDynBufGrow (grow : Nat) (ok : Bool) :
    Heap → DynBuf → List DynBuf → Nat → Nat → Option (Nat × DynState)
  | h, db, [], head_sz, tail_sz =>
    let headroom := db.buf.start - db.buf.buf
    let tailroom := db.buf.buf + db.buf.size - db.buf.end
    let filled := db.buf.end - db.buf.start
    if db.err ≠ 0 then some (0, ⟨h, db, []⟩) else
    let head_sz := sizeT (roundHead grow head_sz + headroom)
    let tail_sz := sizeT (roundTail grow tail_sz + tailroom)
    let (h, new) := psBufInit h ok (sizeT (head_sz + filled + tail_sz))
    if new.buf = 0 then some (0, ⟨h, { db with err := db.err + 1 }, []⟩) else do
    let new ← psBufReservePrepend new head_sz
    let (loc, new) := psBufAppendSize new filled
    if loc = 0 then none else
    some (loc, ⟨h.memcpy loc db.buf.start filled, { db with buf := new }, []⟩)
  | h, db, master :: ms, head_sz, tail_sz => do
    let headroom := db.buf.start - db.buf.buf
    let tailroom := db.buf.buf + db.buf.size - db.buf.end
    let filled := db.buf.end - db.buf.start
    if db.err ≠ 0 then some (0, ⟨h, db, master :: ms⟩) else
    let head_sz := roundHead grow head_sz
    let tail_sz := roundTail grow tail_sz
    let offset := db.buf.buf - master.buf.start
    let offset_tail := master.buf.end - (db.buf.buf + db.buf.size)
    let h ← assertSubbuf h db master
    let h := (h.memset db.buf.buf 0x7B headroom).memset db.buf.end 0x7D tailroom
    let (loc, g) ← psDynBufGrow grow ok h master ms 0 (sizeT (head_sz + tail_sz))
    if loc = 0 then
      let db := { db with err := db.err + 1 }
      let h ← assertSubbuf g.heap db g.top
      some (0, ⟨h, db, g.top :: g.masters⟩)
    else
    let master := { g.top with buf := { g.top.buf with «end» := g.top.buf.end + sizeT (head_sz + tail_sz) } }
    let h := if offset_tail ≠ 0 then
        g.heap.memmove (master.buf.end - offset_tail) (master.buf.end - offset_tail - head_sz - tail_sz)
          offset_tail
      else g.heap
    let b := master.buf.start + offset
    let start := b + headroom + head_sz
    let h := if head_sz > 0 then h.memmove start (start - head_sz) filled else h
    let db := { db with buf := ⟨b, start, start + filled, sizeT (head_sz + headroom + filled + tailroom + tail_sz)⟩ }
    let h := (h.memset b 0x3C (sizeT (head_sz + headroom))).memset db.buf.end 0x3E (sizeT (tail_sz + tailroom))
    let h ← assertSubbuf h db master
    some (loc, ⟨h, db, master :: g.masters⟩)

section Ops

variable (grow : Nat) (ok : Bool)

def psDynBufInit (h : Heap) (pool capacity : Nat) : Nat × DynState :=
  let (h, b) := psBufInit h ok capacity
  (b.buf, ⟨h, ⟨b, pool, if b.buf = 0 then 1 else 0⟩, []⟩)

def psDynBufAppendSize (s : DynState) (sz : Nat) : Option (Nat × DynState) :=
  let (loc, b) := psBufAppendSize s.top.buf sz
  let s := { s with top := { s.top with buf := b } }
  if loc ≠ 0 then some (loc, s) else do
  let (g, s) ← psDynBufGrow grow ok s.heap s.top s.masters 0 sz
  if g = 0 then some (0, s) else
  let (loc, b) := psBufAppendSize s.top.buf sz
  if loc = 0 then none else some (loc, { s with top := { s.top with buf := b } })

def psDynBufPrependSize (s : DynState) (sz : Nat) : Option (Nat × DynState) :=
  let (loc, b) := psBufPrependSize s.top.buf sz
  let s := { s with top := { s.top with buf := b } }
  if loc ≠ 0 then some (loc, s) else do
  let (g, s) ← psDynBufGrow grow ok s.heap s.top s.masters sz 0
  if g = 0 then some (0, s) else
  let (loc, b) := psBufPrependSize s.top.buf sz
  if loc = 0 then none else some (loc, { s with top := { s.top with buf := b } })

def psDynBufReservePrepend (s : DynState) (sz : Nat) : Option DynState :=
  if s.top.buf.start = s.top.buf.end then do
    let b ← psBufReservePrepend s.top.buf sz
    some { s with top := { s.top with buf := b } }
  else some s

/-- The bytes `psDynBufAppendUtf8` stores for a code point up to `0x1FFFF`. -/
def utf8Bytes (ch : Nat) : List UInt8 :=
  if ch < 128 then [ch.toUInt8]
  else if ch ≤ 0x7FF then [(0xC0 ||| ch >>> 6).toUInt8, (0x80 ||| ch &&& 63).toUInt8]
  else if ch ≤ 0xFFFF then
    [(0xE0 ||| ch >>> 12).toUInt8, (0x80 ||| (ch >>> 6) &&& 63).toUInt8, (0x80 ||| ch &&& 63).toUInt8]
  else
    [(0xF0 ||| ch >>> 18).toUInt8, (0x80 ||| (ch >>> 12) &&& 63).toUInt8,
      (0x80 ||| (ch >>> 6) &&& 63).toUInt8, (0x80 ||| ch &&& 63).toUInt8]

def psDynBufAppendUtf8 (s : DynState) (chr : Int) : Option (Nat × DynState) :=
  let ch := (chr % 2 ^ 32).toNat
  if ch > 0x1FFFF then some (0, { s with top := { s.top with err := s.top.err + 1 } }) else do
  let (enc, s) ← psDynBufAppendSize grow ok s (utf8Bytes ch).length
  if enc = 0 then some (0, s) else some (enc, { s with heap := s.heap.write enc (utf8Bytes ch) })

def psDynBufAppendAsn1TagGen (s : DynState) (tag : UInt8) (bytes : List UInt8) :
    Option (Nat × DynState) := do
  let len := bytes.length
  let extralen := lenOfTagAndLen len
  let (target, s) ← psDynBufAppendSize grow ok s (sizeT (len + extralen))
  if target = 0 then some (0, s) else
  let h := ((s.heap.write target [tag]).write (target + 1) (outputLen len)).write (target + extralen) bytes
  some (target, { s with heap := h })

/-- Opens a sub-buffer over `capacity` new bytes of `top`; on failure the
sub-buffer is still opened, empty and in error. -/
def psDynBufSubInit (s : DynState) (capacity : Nat) : Option (Nat × DynState) := do
  let (mem, s) ← psDynBufAppendSize grow ok s capacity
  if mem ≠ 0 then do
    let b := s.top.buf.end - capacity
    let sub : DynBuf := ⟨⟨b, b, b, capacity⟩, 0, 0⟩
    let h ← assertSubbuf (s.heap.memset b 0x23 capacity) sub s.top
    some (mem, ⟨h, sub, s.top :: s.masters⟩)
  else some (0, ⟨s.heap, ⟨⟨0, 0, 0, 0⟩, 0, 1⟩, { s.top with err := s.top.err + 1 } :: s.masters⟩)

end Ops

/-- Opens a sub-buffer over `length` bytes of `top`'s content from `at`. `sub` is
what the struct held before: on failure its error count is only incremented. -/
def psDynBufSubInitAt (s : DynState) (sub : DynBuf) («at» length : Nat) : Option (Nat × DynState) :=
  let db := s.top
  let len := db.buf.end - db.buf.start
  if db.err = 0 ∧ sizeT («at» + length) ≤ len then do
    let b := db.buf.start + «at»
    let sub : DynBuf := ⟨⟨b, b, b, length⟩, 0, 0⟩
    let h ← assertSubbuf (s.heap.memset b 0x23 length) sub db
    some (b, ⟨h, sub, db :: s.masters⟩)
  else some (0, ⟨s.heap, ⟨⟨0, 0, 0, 0⟩, 0, sub.err + 1⟩, { db with err := db.err + 1 } :: s.masters⟩)

/-- Closes `top` into its master: an error count is added to the master's;
otherwise the content moves to the front of the region, the master's bytes after
the region follow it, and the master's end moves back by the unused room. -/
def psDynBufSubFinish (s : DynState) : Option (Nat × DynState) :=
  match s.masters with
  | [] => none
  | db :: ms =>
    let sub := s.top
    if sub.err ≠ 0 then some (0, ⟨s.heap, { db with err := db.err + sub.err }, ms⟩) else do
    let total := sub.buf.size
    let filled := sub.buf.end - sub.buf.start
    let offset_tail := db.buf.end - (sub.buf.buf + sub.buf.size)
    let h ← assertSubbuf s.heap sub db
    let h := if sub.buf.buf ≠ sub.buf.start ∧ filled > 0 then h.memmove sub.buf.buf sub.buf.start filled
      else h
    let h := if offset_tail > 0 then
        h.memmove (db.buf.end - total + filled - offset_tail) (db.buf.end - offset_tail) offset_tail
      else h
    some (sub.buf.buf, ⟨h, { db with buf := { db.buf with «end» := db.buf.end - total + filled } }, ms⟩)

section Tags

variable (grow : Nat) (ok : Bool)

def psDynBufBeginConstructedTag (s : DynState) : Option (Nat × DynState) := do
  let (target, s) ← psDynBufSubInit grow ok s 20
  if target ≠ 0 then do
    let s ← psDynBufReservePrepend s 4
    some (target, s)
  else some (0, s)

def psDynBufEndConstructedTag (s : DynState) (tag : UInt8) : Option (Nat × DynState) := do
  let len := s.top.buf.end - s.top.buf.start
  let extralen := lenOfTagAndLen len
  let (target, s) ← psDynBufPrependSize grow ok s extralen
  let s := if target ≠ 0 then { s with heap := (s.heap.write target [tag]).write (target + 1) (outputLen len) }
    else s
  let (_, s) ← psDynBufSubFinish s
  some (target, s)

end Tags

/-- `psDynBufDetach` on the root: the new block and its length (`NULL` and `0`
on failure), and the memory. -/
def psDynBufDetach (ok : Bool) (h : Heap) (db : DynBuf) : Nat × Nat × Heap :=
  if db.err ≠ 0 then (0, 0, h) else
  let len := db.buf.end - db.buf.start
  let (p, h) := h.psMalloc ok (if len ≠ 0 then len else 1)
  if p ≠ 0 then (p, len, h.memcpy p db.buf.start len) else (0, 0, h)

inductive DynOp where
  | appendSize (sz : Nat)
  | prependSize (sz : Nat)
  | reservePrepend (sz : Nat)
  | appendUtf8 (chr : Int)
  | appendAsn1TagGen (tag : UInt8) (bytes : List UInt8)
  | subInit (capacity : Nat)
  | subInitAt (sub : DynBuf) («at» length : Nat)
  | subFinish
  | beginConstructedTag
  | endConstructedTag (tag : UInt8)

/-- One operation on `top`, with the allocator's answer `ok`, and what it returns. -/
def dynStep (grow : Nat) (ok : Bool) (s : DynState) : DynOp → Option (Nat × DynState)
  | .appendSize sz => psDynBufAppendSize grow ok s sz
  | .prependSize sz => psDynBufPrependSize grow ok s sz
  | .reservePrepend sz => (psDynBufReservePrepend s sz).map fun s => (0, s)
  | .appendUtf8 chr => psDynBufAppendUtf8 grow ok s chr
  | .appendAsn1TagGen tag bytes => psDynBufAppendAsn1TagGen grow ok s tag bytes
  | .subInit capacity => psDynBufSubInit grow ok s capacity
  | .subInitAt sub «at» length => psDynBufSubInitAt s sub «at» length
  | .subFinish => psDynBufSubFinish s
  | .beginConstructedTag => psDynBufBeginConstructedTag grow ok s
  | .endConstructedTag tag => psDynBufEndConstructedTag grow ok s tag

def dynRun (grow : Nat) : DynState → List (DynOp × Bool) → Option DynState
  | s, [] => some s
  | s, (op, ok) :: ops => do
    let (_, s) ← dynStep grow ok s op
    dynRun grow s ops

end MatrixSsl
