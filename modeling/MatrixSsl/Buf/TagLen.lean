import MatrixSsl.Buf.DerLen

/-!
# `psParseBufGetTagLen`

A parse buffer views read-only memory through a `psBuf_t` of addresses.
`psParseBufGetTagLen` reads the tag and length header at the cursor without
consuming it; it accepts exactly a tag byte followed by the minimal length field
`output_len` writes, for a content length of at most `2^30` that fits in what is
left, and it reads nothing at or beyond the end of the buffer.
-/

namespace MatrixSsl

/-- `psParseBuf_t` without its pool, which only decides whether teardown releases
memory: the view and the sticky error count. -/
structure PsParseBuf where
  buf : PsBuf Nat
  err : Int
  deriving DecidableEq, Repr

/-- `PS_PARSE_MAXIMUM_TAG_CONTENT`. -/
def psParseMaximumTagContent : Nat := 0x40000000

/-- The `while (lenlen)` loop: `lenlen` bytes from `pos`, shifted in one by one. -/
def readLenBytes (m : Mem) : Nat → Nat → Nat → Option Nat
  | 0, _, acc => some acc
  | lenlen + 1, pos, acc => do
    let b ← m pos
    readLenBytes m lenlen (pos + 1) ((acc <<< 8) + b.toNat)

/-- The end of `psParseBufGetTagLen`, from the `while (lenlen)` loop on: the
content length, the 1 GiB ceiling and the bound against the `bytes` left. -/
def tagLenTail (m : Mem) (ptr bytes lenAt lenlen lenHdr : Nat) : Option (Nat × Option Nat) := do
  let lenContent ← readLenBytes m lenlen (ptr + lenAt) 0
  if lenContent > psParseMaximumTagContent then some (0, none) else
  if lenContent + lenHdr > bytes then some (0, none) else
  some (lenContent + lenHdr, some lenHdr)

/-- The result and the header length stored through `hdrLen_p`, which is written
only on success. -/
def psParseBufGetTagLen (m : Mem) (pb : PsParseBuf) (tag : UInt8) : Option (Nat × Option Nat) :=
  let ptr := pb.buf.start
  let bytes := pb.buf.end - pb.buf.start
  let zero : Option (Nat × Option Nat) := some (0, none)
  let finish := tagLenTail m ptr bytes
  if bytes < 2 then zero else do
  let tagMatches ← (if tag ≠ 0 then (m ptr).map (· == tag) else pure true)
  if !tagMatches then zero else do
  let lenlen ← m (ptr + 1)
  if 0x80 ≤ lenlen.toNat then
    if bytes < 0x83 then zero else do
    let short81 ← (if lenlen = 0x81 then (m (ptr + 2)).map fun b => decide (b.toNat < 0x80)
      else pure false)
    if short81 then zero else do
    let zero82 ← (if lenlen = 0x82 then (m (ptr + 2)).map (· == 0) else pure false)
    if zero82 then zero else do
    let zero83 ← (if lenlen = 0x83 then (m (ptr + 2)).map (· == 0) else pure false)
    if zero83 then zero else do
    let zero84 ← (if lenlen = 0x84 then (m (ptr + 2)).map (· == 0) else pure false)
    if zero84 then zero else
    if lenlen = 0x80 ∨ 0x84 < lenlen.toNat then zero else
    finish 2 (lenlen.toNat - 0x80) (2 + (lenlen.toNat - 0x80))
  else finish 1 1 2

def psParseBufCanGetTag (m : Mem) (pb : PsParseBuf) (tag : UInt8) : Option Bool :=
  (psParseBufGetTagLen m pb tag).map (0 < ·.1)

/-- What `tagLenTail` yields for the content length `len`. -/
def tagLenResult (bytes lenHdr len : Nat) : Nat × Option Nat :=
  if len ≤ psParseMaximumTagContent ∧ len + lenHdr ≤ bytes then (len + lenHdr, some lenHdr)
  else (0, none)

/-- The result after a tag byte that passed, from the strict reading of the length
field of `n` bytes: the header is the tag byte and the field. -/
def tagLenOfField (bytes : Nat) : Option (Nat × Nat) → Nat × Option Nat
  | some (n, len) => tagLenResult bytes (n + 1) len
  | none => (0, none)

/-- `psParseBufGetTagLen` as a function of the bytes from `start` to `end` alone. -/
def tagLenSpec (tag : UInt8) : List UInt8 → Nat × Option Nat
  | [] => (0, none)
  | b :: xs => if tag ≠ 0 ∧ b ≠ tag then (0, none) else tagLenOfField (xs.length + 1) (derLenField xs)

/-- The header the spec describes: a tag byte (the expected one when `tag ≠ 0`),
then byte for byte the length field `output_len` writes for `len`. -/
def TagLenHead (tag : UInt8) (bs : List UInt8) (len : Nat) : Prop :=
  ∃ b rest, bs = b :: (outputLen len ++ rest) ∧ (tag ≠ 0 → b = tag)

theorem readLenBytes_eq {m : Mem} {a : Nat} {xs : List UInt8} (hm : Holds m a xs) :
    ∀ (k acc : Nat), k ≤ xs.length →
      readLenBytes m k a acc = some (xs.take k |>.foldl (fun acc b => acc * 256 + b.toNat) acc) := by
  induction xs generalizing a with
  | nil => intro k acc hk; simp at hk; simp [hk, readLenBytes]
  | cons x xs ih =>
    intro k acc hk
    cases k with
    | zero => simp [readLenBytes]
    | succ k =>
      obtain ⟨hx, hxs⟩ := holds_cons.1 hm
      simp only [readLenBytes, hx, Option.bind_eq_bind, Option.some_bind, List.take_succ_cons,
        List.foldl_cons, Nat.shiftLeft_eq, show (2 : Nat) ^ 8 = 256 from rfl]
      exact ih hxs k _ (by simp at hk; omega)

theorem tagLenTail_eq {m : Mem} {ptr bytes lenAt lenlen lenHdr len : Nat}
    (h : readLenBytes m lenlen (ptr + lenAt) 0 = some len) :
    tagLenTail m ptr bytes lenAt lenlen lenHdr = some (tagLenResult bytes lenHdr len) := by
  simp only [tagLenTail, h, Option.bind_eq_bind, Option.some_bind, tagLenResult]
  split_ifs <;> first | rfl | omega

section Paths

variable {m : Mem} {pb : PsParseBuf} {tag b0 b1 : UInt8} {rest : List UInt8}

theorem getTagLen_tag_ok (h0 : m pb.buf.start = some b0) (ht : tag ≠ 0 → b0 = tag) :
    (if tag ≠ 0 then (m pb.buf.start).map (· == tag) else pure true) = some true := by
  by_cases htag : tag = 0
  · simp [htag]
  · simp [htag, h0, ht htag]

theorem getTagLen_tag_mismatch (hm : Holds m pb.buf.start (b0 :: b1 :: rest))
    (hB : pb.buf.end - pb.buf.start = rest.length + 2) (ht : tag ≠ 0) (hb0 : b0 ≠ tag) :
    psParseBufGetTagLen m pb tag = some (0, none) := by
  have h0 := hm.read (i := 0) (by simp)
  simp only [Nat.add_zero] at h0
  simp [psParseBufGetTagLen, hB, ht, h0, hb0]

theorem getTagLen_reads (hm : Holds m pb.buf.start (b0 :: b1 :: rest)) :
    m pb.buf.start = some b0 ∧ m (pb.buf.start + 1) = some b1 := by
  have h0 := hm.read (i := 0) (by simp)
  have h1 := hm.read (i := 1) (by simp)
  simp only [Nat.add_zero, List.get_eq_getElem, List.getElem_cons_zero,
    List.getElem_cons_succ] at h0 h1
  exact ⟨h0, h1⟩

theorem getTagLen_short_form (hm : Holds m pb.buf.start (b0 :: b1 :: rest))
    (hB : pb.buf.end - pb.buf.start = rest.length + 2) (ht : tag ≠ 0 → b0 = tag)
    (hb1 : b1.toNat < 0x80) :
    psParseBufGetTagLen m pb tag = some (tagLenResult (rest.length + 2) 2 b1.toNat) := by
  obtain ⟨h0, h1⟩ := getTagLen_reads hm
  have hr : readLenBytes m 1 (pb.buf.start + 1) 0 = some b1.toNat := by
    simp [readLenBytes, h1]
  simp only [psParseBufGetTagLen, hB, getTagLen_tag_ok h0 ht, h1, Option.bind_eq_bind,
    Option.some_bind, if_neg (show ¬ rest.length + 2 < 2 by omega), Bool.not_true,
    Bool.false_eq_true, if_false, if_neg (show ¬ 128 ≤ b1.toNat by omega), tagLenTail_eq hr]

theorem getTagLen_long_truncated (hm : Holds m pb.buf.start (b0 :: b1 :: rest))
    (hB : pb.buf.end - pb.buf.start = rest.length + 2) (ht : tag ≠ 0 → b0 = tag)
    (hb1 : 0x80 ≤ b1.toNat) (hshort : rest.length + 2 < 0x83) :
    psParseBufGetTagLen m pb tag = some (0, none) := by
  obtain ⟨h0, h1⟩ := getTagLen_reads hm
  simp only [psParseBufGetTagLen, hB, getTagLen_tag_ok h0 ht, h1, Option.bind_eq_bind,
    Option.some_bind, if_neg (show ¬ rest.length + 2 < 2 by omega), Bool.not_true,
    Bool.false_eq_true, if_false, if_pos hb1, if_pos hshort]

theorem minimalLong_take_cons {y : UInt8} {ys : List UInt8} {k : Nat} (hk : k ≤ ys.length) :
    MinimalLong ((y :: ys).take (k + 1)) ↔ if k = 0 then 0x80 ≤ y.toNat else y ≠ 0 := by
  cases k with
  | zero => simp [MinimalLong]
  | succ k =>
    cases ys with
    | nil => simp at hk
    | cons z zs => simp [MinimalLong]

theorem getTagLen_long {p2 : UInt8} {k : Nat} (hm : Holds m pb.buf.start (b0 :: b1 :: p2 :: rest))
    (hB : pb.buf.end - pb.buf.start = rest.length + 3) (ht : tag ≠ 0 → b0 = tag)
    (hk : b1.toNat = 0x80 + k) (hk1 : 1 ≤ k) (hk4 : k ≤ 4) (hlong : 0x83 ≤ rest.length + 3) :
    psParseBufGetTagLen m pb tag =
      some (if MinimalLong ((p2 :: rest).take k) then
        tagLenResult (rest.length + 3) (2 + k) (beNat ((p2 :: rest).take k)) else (0, none)) := by
  obtain ⟨h0, h1⟩ := getTagLen_reads hm
  have h2 := hm.read (i := 2) (by simp)
  simp only [List.get_eq_getElem, List.getElem_cons_succ, List.getElem_cons_zero] at h2
  have hr : readLenBytes m (b1.toNat - 0x80) (pb.buf.start + 2) 0 =
      some (beNat ((p2 :: rest).take k)) := by
    rw [hk, Nat.add_sub_cancel_left]
    exact readLenBytes_eq (hm.drop 2) _ 0 (by simp; omega)
  simp only [psParseBufGetTagLen, hB, getTagLen_tag_ok h0 ht, h1, h2, Option.bind_eq_bind,
    Option.some_bind, if_neg (show ¬ rest.length + 3 < 2 by omega), Bool.not_true,
    Bool.false_eq_true, if_false, if_pos (show 0x80 ≤ b1.toNat by omega),
    if_neg (show ¬ rest.length + 3 < 0x83 by omega), tagLenTail_eq hr]
  obtain ⟨j, rfl⟩ : ∃ j, k = j + 1 := ⟨k - 1, by omega⟩
  simp only [minimalLong_take_cons (y := p2) (k := j) (by omega : j ≤ rest.length)]
  simp only [uint8_eq_iff_toNat b1, hk]
  rcases (by omega : j = 0 ∨ j = 1 ∨ j = 2 ∨ j = 3) with rfl | rfl | rfl | rfl
  · by_cases hp : 0x80 ≤ p2.toNat <;> simp [hp]
  all_goals by_cases hp : p2 = 0 <;> simp [hp]

theorem getTagLen_long_bad (hm : Holds m pb.buf.start (b0 :: b1 :: rest))
    (hB : pb.buf.end - pb.buf.start = rest.length + 2) (ht : tag ≠ 0 → b0 = tag)
    (hb1 : b1.toNat = 0x80 ∨ 0x84 < b1.toNat) (hlong : 0x83 ≤ rest.length + 2) :
    psParseBufGetTagLen m pb tag = some (0, none) := by
  obtain ⟨h0, h1⟩ := getTagLen_reads hm
  have hk : b1.toNat ≠ 0x81 ∧ b1.toNat ≠ 0x82 ∧ b1.toNat ≠ 0x83 ∧ b1.toNat ≠ 0x84 := by omega
  simp only [psParseBufGetTagLen, hB, getTagLen_tag_ok h0 ht, h1, Option.bind_eq_bind,
    Option.some_bind, if_neg (show ¬ rest.length + 2 < 2 by omega), Bool.not_true,
    Bool.false_eq_true, if_false, if_pos (show 0x80 ≤ b1.toNat by omega),
    if_neg (show ¬ rest.length + 2 < 0x83 by omega), uint8_eq_iff_toNat b1]
  simp [hk, hb1]

end Paths

theorem derLenField_long_ge {b : UInt8} {rest : List UInt8} {n len : Nat} (hb : 0x80 ≤ b.toNat)
    (h : derLenField (b :: rest) = some (n, len)) : 0x80 ≤ len ∧ 3 ≤ n + 1 := by
  obtain ⟨-, hn, hxs⟩ := outputLen_of_derLenField h
  have hlen : 0x80 ≤ len := by
    by_contra hlt
    simp only [outputLen, if_pos (show len < 128 by omega), List.singleton_append,
      List.cons.injEq] at hxs
    have := congrArg UInt8.toNat hxs.1
    simp at this
    omega
  refine ⟨hlen, ?_⟩
  rw [hn]
  unfold lenOfTagAndLen
  split_ifs <;> omega

/-- `psParseBufGetTagLen` reads nothing outside `[start, end)` and computes
`tagLenSpec` from those bytes. -/
theorem psParseBufGetTagLen_eq_tagLenSpec {m : Mem} {pb : PsParseBuf} {tag : UInt8}
    {bs : List UInt8} (hm : Holds m pb.buf.start bs) (hB : pb.buf.end - pb.buf.start = bs.length) :
    psParseBufGetTagLen m pb tag = some (tagLenSpec tag bs) := by
  match bs, hm, hB with
  | [], _, hB => simp [psParseBufGetTagLen, hB, tagLenSpec]
  | [b0], _, hB =>
    simp [psParseBufGetTagLen, hB, tagLenSpec, tagLenOfField, derLenField, Asn1.lenField]
  | b0 :: b1 :: rest, hm, hB =>
    simp only [List.length_cons] at hB
    by_cases hmis : tag ≠ 0 ∧ b0 ≠ tag
    · rw [getTagLen_tag_mismatch hm hB hmis.1 hmis.2, tagLenSpec, if_pos hmis]
    have ht : tag ≠ 0 → b0 = tag := fun h => not_not.1 fun h' => hmis ⟨h, h'⟩
    rw [tagLenSpec, if_neg hmis, List.length_cons]
    by_cases hshort : b1.toNat < 0x80
    · rw [getTagLen_short_form hm hB ht hshort, derLenField_short hshort]
      rfl
    by_cases htrunc : rest.length + 2 < 0x83
    · rw [getTagLen_long_truncated hm hB ht (by omega) htrunc]
      cases hd : derLenField (b1 :: rest) with
      | none => rfl
      | some r =>
        have := derLenField_long_ge (by omega) hd
        simp only [tagLenOfField, tagLenResult, List.length_cons]
        rw [if_neg (by omega)]
    obtain ⟨k, hk⟩ : ∃ k, b1.toNat = 0x80 + k := ⟨b1.toNat - 0x80, by omega⟩
    obtain ⟨p2, rest, rfl⟩ : ∃ p2 rest', rest = p2 :: rest' := by
      cases rest with
      | nil => simp at htrunc
      | cons p2 rest' => exact ⟨p2, rest', rfl⟩
    simp only [List.length_cons] at hB htrunc ⊢
    by_cases hk14 : 1 ≤ k ∧ k ≤ 4
    · rw [getTagLen_long hm hB ht hk hk14.1 hk14.2 (by omega),
        derLenField_long hk hk14.1 hk14.2 (show k ≤ (p2 :: rest).length by simp; omega)]
      split_ifs
      · rw [tagLenOfField, show k + 1 + 1 = 2 + k by omega]
      · rfl
    · rw [getTagLen_long_bad hm (by simp; omega) ht (by omega) (by simp; omega)]
      simp only [derLenField, Asn1.lenField, if_neg hshort, List.length_cons,
        if_neg (show ¬(0x81 ≤ b1.toNat ∧ b1.toNat ≤ 0x84 ∧ b1.toNat - 0x80 ≤ rest.length + 1)
          by omega)]
      rfl

theorem tagLenSpec_of_head {tag : UInt8} {bs : List UInt8} {len : Nat} (hh : TagLenHead tag bs len)
    (hmax : len ≤ 2 ^ 30) (hfit : lenOfTagAndLen len + len ≤ bs.length) :
    tagLenSpec tag bs = (lenOfTagAndLen len + len, some (lenOfTagAndLen len)) := by
  obtain ⟨b, rest, rfl, ht⟩ := hh
  have h2 := two_le_lenOfTagAndLen len
  have hout := outputLen_length len
  simp only [List.length_cons, List.length_append] at hfit
  rw [tagLenSpec, if_neg (fun h => h.2 (ht h.1)), derLenField_outputLen (by omega) rest,
    tagLenOfField, tagLenResult, Nat.sub_add_cancel (by omega : 1 ≤ lenOfTagAndLen len),
    if_pos ⟨hmax, by simp; omega⟩, Nat.add_comm]

theorem tagLenSpec_cases (tag : UInt8) (bs : List UInt8) :
    tagLenSpec tag bs = (0, none) ∨
      ∃ len, TagLenHead tag bs len ∧ len ≤ 2 ^ 30 ∧ lenOfTagAndLen len + len ≤ bs.length ∧
        tagLenSpec tag bs = (lenOfTagAndLen len + len, some (lenOfTagAndLen len)) := by
  match bs with
  | [] => exact .inl rfl
  | b :: xs =>
    by_cases hmis : tag ≠ 0 ∧ b ≠ tag
    · exact .inl (if_pos hmis)
    have ht : tag ≠ 0 → b = tag := fun h => not_not.1 fun h' => hmis ⟨h, h'⟩
    rw [tagLenSpec, if_neg hmis]
    cases hd : derLenField xs with
    | none => exact .inl rfl
    | some r =>
      obtain ⟨n, len⟩ := r
      obtain ⟨hlen, hn, hxs⟩ := outputLen_of_derLenField hd
      rw [tagLenOfField, tagLenResult]
      split_ifs with hc
      · refine .inr ⟨len, ⟨b, _, congrArg (b :: ·) hxs, ht⟩, hc.1, ?_, ?_⟩
        · simp only [List.length_cons]; omega
        · rw [← hn, Nat.add_comm]
      · exact .inl rfl

/-- `psParseBufGetTagLen` accepts exactly a tag byte (the expected one when
`tag ≠ 0`) followed by the length field `output_len` writes for a content length
of at most `2^30` whose whole element fits in the buffer; it then returns the
element's size and its header size, and on every other input `0`. It reads no
byte outside `[start, end)`. -/
theorem psParseBufGetTagLen_iff_der_header {m : Mem} {pb : PsParseBuf} {tag : UInt8}
    {bs : List UInt8} (hm : Holds m pb.buf.start bs) (hB : pb.buf.end - pb.buf.start = bs.length) :
    ∃ r, psParseBufGetTagLen m pb tag = some r ∧
      (∀ len, TagLenHead tag bs len → len ≤ 2 ^ 30 → lenOfTagAndLen len + len ≤ bs.length →
        r = (lenOfTagAndLen len + len, some (lenOfTagAndLen len))) ∧
      ((¬ ∃ len, TagLenHead tag bs len ∧ len ≤ 2 ^ 30 ∧ lenOfTagAndLen len + len ≤ bs.length) →
        r = (0, none)) := by
  refine ⟨_, psParseBufGetTagLen_eq_tagLenSpec hm hB,
    fun len hh hmax hfit => tagLenSpec_of_head hh hmax hfit, fun hno => ?_⟩
  rcases tagLenSpec_cases tag bs with h | ⟨len, hh, hmax, hfit, -⟩
  · exact h
  · exact absurd ⟨len, hh, hmax, hfit⟩ hno

theorem psParseBufGetTagLen_iff_der_header_sequence :
    Holds (Mem.ofList [0x30, 0x01, 0x05]) 0 [0x30, 0x01, 0x05] ∧
      psParseBufGetTagLen (Mem.ofList [0x30, 0x01, 0x05]) ⟨⟨0, 0, 3, 3⟩, 0⟩ 0x30 = some (3, some 2) := by
  obtain ⟨r, hr, hacc, -⟩ := @psParseBufGetTagLen_iff_der_header _ ⟨⟨0, 0, 3, 3⟩, 0⟩ 0x30 _
    (holds_ofList [0x30, 0x01, 0x05]) rfl
  exact ⟨holds_ofList _, hr.trans (congrArg some (hacc 1 ⟨0x30, [0x05], rfl, fun _ => rfl⟩
    (by decide) (by decide)))⟩

/-- The DER length writer and the two length readers agree: a field `output_len`
wrote reads back through `getAsnLength32`, and so does every header
`psParseBufGetTagLen` accepts, with the content length and header size it reported. -/
theorem der_length_writer_and_readers_agree :
    (∀ (m : Mem) (pp len : Nat) (rest : List UInt8), Holds m pp (outputLen len ++ rest) →
      len < 2 ^ 32 → len ≤ rest.length →
      Asn1.getAsnLength32 m pp (outputLen len ++ rest).length false =
        some ⟨.psSuccess, pp + (lenOfTagAndLen len - 1), len⟩) ∧
    (∀ (m : Mem) (pb : PsParseBuf) (tag : UInt8) (bs : List UInt8) (n h : Nat),
      Holds m pb.buf.start bs → pb.buf.end - pb.buf.start = bs.length →
      psParseBufGetTagLen m pb tag = some (n, some h) →
      Asn1.getAsnLength32 m (pb.buf.start + 1) (bs.length - 1) false =
        some ⟨.psSuccess, pb.buf.start + 1 + (h - 1), n - h⟩) := by
  refine ⟨fun m pp len rest hm hlen hrest => getAsnLength32_outputLen hm hlen hrest, ?_⟩
  intro m pb tag bs n h hm hB hr
  rw [psParseBufGetTagLen_eq_tagLenSpec hm hB, Option.some.injEq] at hr
  rcases tagLenSpec_cases tag bs with h0 | ⟨len, ⟨b, rest, rfl, -⟩, hmax, hfit, hspec⟩
  · rw [h0] at hr
    cases hr
  · obtain ⟨rfl, hh⟩ := Prod.mk.inj (hspec.symm.trans hr)
    obtain rfl := Option.some.inj hh
    have hout := outputLen_length len
    simp only [List.length_cons, List.length_append] at hfit ⊢
    rw [Nat.add_sub_cancel, ← List.length_append,
      getAsnLength32_outputLen (holds_cons.1 hm).2 (by omega) (by omega), Nat.add_sub_cancel_left]

theorem der_length_writer_and_readers_agree_sequence :
    Asn1.getAsnLength32 (Mem.ofList [0x01, 0x05]) 0 ([0x01] ++ [0x05]).length false =
        some ⟨.psSuccess, 0 + (2 - 1), 1⟩ ∧
      Asn1.getAsnLength32 (Mem.ofList [0x30, 0x01, 0x05]) (0 + 1) (3 - 1) false =
        some ⟨.psSuccess, 0 + 1 + (2 - 1), 3 - 2⟩ :=
  ⟨der_length_writer_and_readers_agree.1 _ 0 1 [0x05] (holds_ofList _) (by decide) (by decide),
    der_length_writer_and_readers_agree.2 _ ⟨⟨0, 0, 3, 3⟩, 0⟩ 0x30 [0x30, 0x01, 0x05] 3 2
      (holds_ofList _) rfl rfl⟩

end MatrixSsl
