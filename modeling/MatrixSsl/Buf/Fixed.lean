import MatrixSsl.Buf.Parse
import MatrixSsl.Buf.DynInv

/-!
# Fixed buffers: bytes in, hex out

`psBufFromData` copies external bytes into a block of its own, and
`psBufAsHex` writes the unread bytes of a buffer as lowercase hex digits, two
per byte, into a new block of `2 * len + 1` bytes: each `sprintf` of `"%02x"`
stores its two digits and a NUL, which the next one overwrites.
`psBufFromData_copies` says what the copy holds and which status each failure
reports; `psBufAsHex_decodes` that the string, up to its NUL, reads back
(`hexDecode`) as exactly the buffer's unread bytes.
-/

namespace MatrixSsl

/-- `psBufFromData`: the status, the buffer and the memory. The external bytes
are read from `m`; with `data` `NULL` or the allocator failing the buffer is
left torn down. -/
def psBufFromData (h : Heap) (ok : Bool) (m : Mem) (data len : Nat) : Option (Rc × PsBuf Nat × Heap) :=
  if data = 0 then some (.psMemFail, PsBuf.null, h) else
  let (new, h) := h.psMalloc ok (if len ≠ 0 then len else 1)
  if new = 0 then some (.psMemFail, PsBuf.null, h) else
  (readBytes m len data).map fun bs => (.psSuccess, ⟨new, new, new + len, len⟩, h.write new bs)

/-- The digit `"%x"` writes for `d < 16`: `0`–`9`, then `a`–`f`. -/
def hexDigit (d : Nat) : UInt8 := if d < 10 then 0x30 + d.toUInt8 else 0x57 + d.toUInt8

/-- The two digits `"%02x"` writes for a byte, high half first. -/
def hexPair (b : UInt8) : List UInt8 := [hexDigit (b.toNat / 16), hexDigit (b.toNat % 16)]

/-- `sprintf(target, "%02x", b)`: the two digits and the terminating NUL. -/
def sprintfHex (h : Heap) (target : Nat) (b : UInt8) : Heap := h.write target (hexPair b ++ [0])

/-- The loop of `psBufAsHex` from index `i`, `n` bytes to go; each byte is read
from the memory as the loop finds it. -/
def asHexLoop (hexstr start : Nat) : Nat → Nat → Heap → Heap
  | _, 0, h => h
  | i, n + 1, h => asHexLoop hexstr start (i + 1) n (sprintfHex h (hexstr + i * 2) (h.mem (start + i)))

/-- `psBufAsHex`: the string (`NULL` when the allocator fails) and the memory. -/
def psBufAsHex (h : Heap) (ok : Bool) (buf : PsBuf Nat) : Nat × Heap :=
  let len := buf.end - buf.start
  let (hexstr, h) := h.psMalloc ok (sizeT (len * 2 + 1))
  if hexstr = 0 then (0, h) else
  (hexstr, asHexLoop hexstr buf.start 0 len (h.write hexstr [0]))

/-- For every readable external data: `psBufFromData` reports `PS_MEM_FAIL`
(not `PS_ARG_FAIL`) for `NULL` data and for a failed allocation, leaving the
buffer torn down and the memory unchanged; otherwise it returns a buffer over a
new block of at least one byte that holds exactly the data, and changes no
byte outside the block. -/
theorem psBufFromData_copies (h : Heap) (ok : Bool) {m : Mem} {data : Nat} {bs : List UInt8}
    (hm : Holds m data bs) :
    psBufFromData h ok m 0 bs.length = some (.psMemFail, PsBuf.null, h) ∧
      (data ≠ 0 → psBufFromData h false m data bs.length = some (.psMemFail, PsBuf.null, h)) ∧
      (data ≠ 0 → ∃ h', psBufFromData h true m data bs.length =
          some (.psSuccess, ⟨h.next, h.next, h.next + bs.length, bs.length⟩, h') ∧
        content h' ⟨h.next, h.next, h.next + bs.length, bs.length⟩ = bs ∧
        h.Agree h' h.next (h.next + bs.length) ∧ h'.next = h.next + max bs.length 1) := by
  have hn : h.next ≠ 0 := Nat.pos_iff_ne_zero.1 h.next_pos
  refine ⟨by simp [psBufFromData], fun hd => by simp [psBufFromData, hd, Heap.psMalloc], fun hd => ?_⟩
  refine ⟨_, by simp [psBufFromData, hd, Heap.psMalloc, hn, readBytes_eq hm]; rfl, ?_, ?_, ?_⟩
  · simpa [content] using Heap.read_write_self _ h.next bs
  · exact fun x hx => Heap.write_mem_of_out hx
  · cases bs <;> simp [Heap.psMalloc]

/-- The value of a lowercase hex digit. -/
def hexValue (c : UInt8) : Option Nat :=
  if 0x30 ≤ c ∧ c ≤ 0x39 then some (c.toNat - 0x30)
  else if 0x61 ≤ c ∧ c ≤ 0x66 then some (c.toNat - 0x57) else none

/-- Reading a string of hex digits two at a time. -/
def hexDecode : List UInt8 → Option (List UInt8)
  | [] => some []
  | hi :: lo :: rest => do
    let a ← hexValue hi
    let b ← hexValue lo
    let bs ← hexDecode rest
    some ((a * 16 + b).toUInt8 :: bs)
  | [_] => none

theorem hexValue_hexDigit : ∀ d, d < 16 → hexValue (hexDigit d) = some d := by decide

theorem hexDigit_ne_zero : ∀ d, d < 16 → hexDigit d ≠ 0 := by decide

theorem hexDecode_hexPair (b : UInt8) (rest : List UInt8) :
    hexDecode (hexPair b ++ rest) = (hexDecode rest).map (b :: ·) := by
  have hb := b.toNat_lt
  have hhi := hexValue_hexDigit (b.toNat / 16) (by omega)
  have hlo := hexValue_hexDigit (b.toNat % 16) (by omega)
  have hbyte : (b.toNat / 16 * 16 + b.toNat % 16).toUInt8 = b := by
    rw [uint8_eq_iff_toNat, toUInt8_toNat]
    omega
  cases hd : hexDecode rest <;> simp [hexPair, hexDecode, hhi, hlo, hbyte, hd]

theorem hexDecode_flatMap (bs : List UInt8) : hexDecode (bs.flatMap hexPair) = some bs ∧ 0 ∉ bs.flatMap hexPair := by
  induction bs with
  | nil => exact ⟨rfl, List.not_mem_nil _⟩
  | cons b bs ih =>
    have hb := b.toNat_lt
    refine ⟨by rw [List.flatMap_cons, hexDecode_hexPair, ih.1]; rfl, ?_⟩
    simp only [List.flatMap_cons, List.mem_append, hexPair, List.mem_cons, List.mem_singleton, ih.2,
      List.not_mem_nil, or_false]
    rintro (h | h) <;> exact hexDigit_ne_zero _ (by omega) h.symm

@[simp] theorem length_flatMap_hexPair (bs : List UInt8) : (bs.flatMap hexPair).length = bs.length * 2 := by
  induction bs with
  | nil => rfl
  | cons b bs ih => simp [hexPair, ih]; omega

/-- The loop of `psBufAsHex` over a source below the string: each round stores
the digits of one more source byte and a NUL after them, and nothing outside the
string changes. -/
theorem asHexLoop_spec {h₀ : Heap} {hexstr start len : Nat} (hsrc : start + len ≤ hexstr) :
    ∀ n i (h : Heap), i + n = len → h₀.Agree h hexstr (hexstr + (len * 2 + 1)) →
      h.read hexstr (i * 2 + 1) = (h₀.read start i).flatMap hexPair ++ [0] →
      h₀.Agree (asHexLoop hexstr start i n h) hexstr (hexstr + (len * 2 + 1)) ∧
        (asHexLoop hexstr start i n h).read hexstr (len * 2 + 1) = (h₀.read start len).flatMap hexPair ++ [0]
  | 0, i, h, hi, hag, hr => by
    rw [Nat.add_zero] at hi
    subst hi
    exact ⟨hag, hr⟩
  | n + 1, i, h, hi, hag, hr => by
    have hb : h.mem (start + i) = h₀.mem (start + i) := hag _ (.inl (by omega))
    have hP : h.read hexstr (i * 2) = (h₀.read start i).flatMap hexPair := by
      have := congrArg (List.take (i * 2)) hr
      rwa [Heap.take_read _ (by omega), List.take_left' (by rw [length_flatMap_hexPair, Heap.read_length])] at this
    refine asHexLoop_spec hsrc n (i + 1) _ (by omega)
      (hag.trans (Heap.agree_write (by omega) (by simp [hexPair]; omega))) ?_
    have hlen : (i + 1) * 2 + 1 = i * 2 + (hexPair (h.mem (start + i)) ++ [0]).length := by
      simp [hexPair]; omega
    rw [sprintfHex, hlen, Heap.read_write_after, hP, hb, Heap.read_add]
    simp [Heap.read, List.flatMap_append]

/-- For every buffer whose bytes lie below the allocator's next block, with the
string's size `2 * len + 1` a `size_t`: when the allocator fails `psBufAsHex`
returns `NULL` and changes nothing; otherwise the string it returns holds, up to
its first NUL at offset `2 * len`, digits that read back as exactly the buffer's
unread bytes, and no byte outside the string changes. -/
theorem psBufAsHex_decodes (h : Heap) (buf : PsBuf Nat) (hse : buf.start ≤ buf.end) (hsrc : buf.end ≤ h.next)
    (hwrap : (buf.end - buf.start) * 2 + 1 < 2 ^ 64) :
    psBufAsHex h false buf = (0, h) ∧
      let s := psBufAsHex h true buf
      s.1 = h.next ∧ hexDecode (s.2.read s.1 ((buf.end - buf.start) * 2)) = some (content h buf) ∧
        0 ∉ s.2.read s.1 ((buf.end - buf.start) * 2) ∧ s.2.mem (s.1 + (buf.end - buf.start) * 2) = 0 ∧
        h.Agree s.2 s.1 (s.1 + ((buf.end - buf.start) * 2 + 1)) := by
  refine ⟨by simp [psBufAsHex, Heap.psMalloc], ?_⟩
  intro s
  have hn : h.next ≠ 0 := Nat.pos_iff_ne_zero.1 h.next_pos
  have hs : s = (h.next, asHexLoop h.next buf.start 0 (buf.end - buf.start)
      ((h.psMalloc true ((buf.end - buf.start) * 2 + 1)).2.write h.next [0])) := by
    simp [s, psBufAsHex, Heap.psMalloc, sizeT_of_lt hwrap, hn]
  rw [hs]
  obtain ⟨hag, hread⟩ := @asHexLoop_spec h h.next buf.start (buf.end - buf.start) (by omega)
    (buf.end - buf.start) 0 ((h.psMalloc true ((buf.end - buf.start) * 2 + 1)).2.write h.next [0]) (by omega)
    (fun x hx => Heap.write_mem_of_out (by simp only [List.length_singleton]; omega))
    (by simpa using Heap.read_write_self (h.psMalloc true ((buf.end - buf.start) * 2 + 1)).2 h.next [0])
  rw [Heap.read_add] at hread
  obtain ⟨hdigits, hnul⟩ := List.append_inj hread (by rw [Heap.read_length, length_flatMap_hexPair, Heap.read_length])
  obtain ⟨hdec, hno⟩ := hexDecode_flatMap (content h buf)
  refine ⟨rfl, by rw [hdigits]; exact hdec, by rw [hdigits]; exact hno, ?_, hag⟩
  simpa [Heap.read] using hnul

theorem psBufAsHex_decodes_two_bytes :
    let h : Heap := ⟨fun a => if a = 1 then 0xAB else 0x0F, 5, by decide⟩
    psBufAsHex h false ⟨1, 1, 3, 2⟩ = (0, h) ∧
      let s := psBufAsHex h true ⟨1, 1, 3, 2⟩
      s.1 = h.next ∧ hexDecode (s.2.read s.1 4) = some (content h ⟨1, 1, 3, 2⟩) ∧ 0 ∉ s.2.read s.1 4 ∧
        s.2.mem (s.1 + 4) = 0 ∧ h.Agree s.2 s.1 (s.1 + 5) :=
  psBufAsHex_decodes _ ⟨1, 1, 3, 2⟩ (by decide) (by decide) (by decide)

end MatrixSsl
