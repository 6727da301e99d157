import MatrixSsl.Asn1.Length

/-!
# SEQUENCE and SET headers, and the 16-bit wrappers

`getAsnSequence32` and `getAsnSet32` check the constructed tag, delegate to
`getAsnLength32` and check once more that the content fits in `size`; the
16-bit `getAsnLength`, `getAsnSequence` and `getAsnSet` mask the length to
16 bits. With `indefinite` clear, each decoder reads only the `size` bytes it
is given, succeeds exactly on a well-formed header whose content fits, and on
inputs below `2^16` the wrappers lose nothing to the mask.
-/

namespace MatrixSsl.Asn1

/-- `*(p++) != tag` followed by `getAsnLength32`: the part that `getAsnSequence32`
and `getAsnSet32` share. `len` is the caller's `*len`. -/
def tagAndLength (m : Mem) (tag : UInt8) (pp size len : Nat) (indefinite : Bool) :
    Option LenOut :=
  if size < 1 then some ⟨.psParseFail, pp, len⟩ else do
  let t ← m pp
  if t ≠ tag then some ⟨.psParseFail, pp, len⟩ else do
  let r ← getAsnLength32 m (pp + 1) (size - 1) indefinite
  pure (if r.rc.neg then ⟨r.rc, pp, r.len⟩ else r)

def getAsnSequence32 (m : Mem) (pp size len : Nat) (indefinite : Bool) : Option LenOut := do
  let r ← tagAndLength m (asnSequence ||| asnConstructed) pp size len indefinite
  if r.rc.neg then pure r else
  if !indefinite && size - (r.pp - pp) < r.len then pure ⟨.psLimitFail, pp, r.len⟩ else
  pure r

def getAsnSet32 (m : Mem) (pp size len : Nat) (indefinite : Bool) : Option LenOut := do
  let r ← tagAndLength m (asnSet ||| asnConstructed) pp size len indefinite
  if r.rc.neg then pure r else
  if size < (r.pp - pp + r.len) % 2 ^ 32 then pure ⟨.psLimitFail, pp, r.len⟩ else
  pure r

/-- A 16-bit wrapper around a 32-bit decoder `f` called with `len32 = 0`. -/
def wrap16 (f : Nat → Option LenOut) (len : Nat) : Option LenOut := do
  let r ← f 0
  pure (if r.rc.neg then ⟨r.rc, r.pp, len⟩ else ⟨.psSuccess, r.pp, r.len &&& 0xFFFF⟩)

def getAsnSequence (m : Mem) (pp size len : Nat) : Option LenOut :=
  wrap16 (fun len32 => getAsnSequence32 m pp size len32 false) len

def getAsnSet (m : Mem) (pp size len : Nat) : Option LenOut :=
  wrap16 (fun len32 => getAsnSet32 m pp size len32 false) len

theorem getAsnLength_eq_wrap16 (m : Mem) (pp size len : Nat) :
    getAsnLength m pp size len = wrap16 (fun _ => getAsnLength32 m pp size false) len := rfl

/-- The header the spec asks for: the tag, then a definite length field; the
size of the header and the length. -/
def tlvField (tag : UInt8) : List UInt8 → Option (Nat × Nat)
  | t :: rest => if t = tag then (lenField rest).map fun (h, l) => (h + 1, l) else none
  | [] => none

/-- The outcome the spec asks of a decoder whose header is `field` in `size`
bytes at `pp`: success exactly when the header parses and its content fits, with
`*pp` past the header and `*len` the length; a negative code and `*pp` unchanged
otherwise. -/
def DecodeOutcome (field : Option (Nat × Nat)) (size pp : Nat) (r : LenOut) : Prop :=
  match field with
  | some (h, l) =>
    if h + l ≤ size then r.rc = .psSuccess ∧ r.pp = pp + h ∧ r.len = l
    else r.rc.neg ∧ r.pp = pp
  | none => r.rc.neg ∧ r.pp = pp

theorem lengthOutcome_decodeOutcome (pp : Nat) (bs : List UInt8) :
    DecodeOutcome (lenField bs) bs.length pp (lengthOutcome pp bs) := by
  rcases hf : lenField bs with _ | ⟨h, l⟩ <;> simp only [DecodeOutcome, lengthOutcome, hf]
  · simp [Rc.neg]
  · split_ifs <;> simp [Rc.neg]

theorem DecodeOutcome.of_not_neg {f : Option (Nat × Nat)} {size pp : Nat} {r : LenOut}
    (h : DecodeOutcome f size pp r) (hr : r.rc.neg = false) :
    ∃ h l, f = some (h, l) ∧ h + l ≤ size ∧ r = ⟨.psSuccess, pp + h, l⟩ := by
  rcases f with _ | ⟨h, l⟩
  · simp [DecodeOutcome, hr] at h
  · simp only [DecodeOutcome] at h
    split_ifs at h with hfit
    · obtain ⟨h1, h2, h3⟩ := h
      exact ⟨h, l, rfl, hfit, by cases r; simp_all⟩
    · simp [hr] at h

theorem tagAndLength_decodeOutcome {m : Mem} {pp : Nat} {bs : List UInt8} (tag : UInt8)
    (len : Nat) (hm : Holds m pp bs) :
    ∃ r, tagAndLength m tag pp bs.length len false = some r ∧
      DecodeOutcome (tlvField tag bs) bs.length pp r := by
  cases bs with
  | nil => exact ⟨_, rfl, by simp [DecodeOutcome, tlvField, Rc.neg]⟩
  | cons t rest =>
    obtain ⟨ht, hrest⟩ := holds_cons.1 hm
    by_cases htag : t = tag
    · have e : tagAndLength m tag pp (t :: rest).length len false =
          some (let r := lengthOutcome (pp + 1) rest; if r.rc.neg then ⟨r.rc, pp, r.len⟩ else r) := by
        simp [tagAndLength, ht, htag, getAsnLength32_eq_lengthOutcome hrest]
      refine ⟨_, e, ?_⟩
      simp only [tlvField, if_pos htag]
      rcases hf : lenField rest with _ | ⟨h, l⟩
      · have ho : lengthOutcome (pp + 1) rest = ⟨.psLimitFail, pp + 1, 0⟩ := by
          simp [lengthOutcome, hf]
        simp [ho, DecodeOutcome, Rc.neg]
      · by_cases hfit : h + l ≤ rest.length
        · have ho : lengthOutcome (pp + 1) rest = ⟨.psSuccess, pp + 1 + h, l⟩ := by
            simp [lengthOutcome, hf, hfit]
          simp [ho, DecodeOutcome, Rc.neg]
          omega
        · have ho : lengthOutcome (pp + 1) rest = ⟨.psLimitFail, pp + 1, 0⟩ := by
            simp [lengthOutcome, hf, hfit]
          simp [ho, DecodeOutcome, Rc.neg]
          omega
    · exact ⟨⟨.psParseFail, pp, len⟩, by simp [tagAndLength, ht, htag],
        by simp [DecodeOutcome, tlvField, htag, Rc.neg]⟩

theorem getAsnSequence32_decodeOutcome {m : Mem} {pp : Nat} {bs : List UInt8} (len : Nat)
    (hm : Holds m pp bs) :
    ∃ r, getAsnSequence32 m pp bs.length len false = some r ∧
      DecodeOutcome (tlvField (asnSequence ||| asnConstructed) bs) bs.length pp r := by
  obtain ⟨r, hr, hd⟩ := tagAndLength_decodeOutcome (asnSequence ||| asnConstructed) len hm
  refine ⟨r, ?_, hd⟩
  cases hn : r.rc.neg
  · obtain ⟨h, l, -, hfit, rfl⟩ := hd.of_not_neg hn
    simp [getAsnSequence32, hr, Rc.neg]
    omega
  · simp [getAsnSequence32, hr, hn]

theorem getAsnSet32_decodeOutcome {m : Mem} {pp : Nat} {bs : List UInt8} (len : Nat)
    (hm : Holds m pp bs) :
    ∃ r, getAsnSet32 m pp bs.length len false = some r ∧
      DecodeOutcome (tlvField (asnSet ||| asnConstructed) bs) bs.length pp r := by
  obtain ⟨r, hr, hd⟩ := tagAndLength_decodeOutcome (asnSet ||| asnConstructed) len hm
  refine ⟨r, ?_, hd⟩
  cases hn : r.rc.neg
  · obtain ⟨h, l, -, hfit, rfl⟩ := hd.of_not_neg hn
    have := Nat.mod_le (h + l) (2 ^ 32)
    simp [getAsnSet32, hr, Rc.neg]
    omega
  · simp [getAsnSet32, hr, hn]

/-- What a 16-bit wrapper returns when nothing is lost to the mask: the 32-bit
result, with the caller's `*len` kept on failure. -/
def keepLen (len : Nat) (r : LenOut) : LenOut :=
  if r.rc.neg then ⟨r.rc, r.pp, len⟩ else r

theorem wrap16_eq_of_lt {f : Nat → Option LenOut} (len : Nat)
    (hf : ∀ r, f 0 = some r → r.rc.neg = false → r.rc = .psSuccess ∧ r.len < 2 ^ 16) :
    wrap16 f len = (f 0).map (keepLen len) := by
  cases h0 : f 0 with
  | none => simp [wrap16, h0]
  | some r =>
    cases hn : r.rc.neg
    · obtain ⟨hs, hl⟩ := hf r h0 hn
      simp only [wrap16, h0, Option.bind_eq_bind, Option.some_bind, Option.map_some', keepLen, hn]
      rw [show (0xFFFF : Nat) = 2 ^ 16 - 1 from rfl, Nat.and_pow_two_sub_one_of_lt_two_pow hl, ← hs]
      rfl
    · simp [wrap16, h0, keepLen, hn]

theorem DecodeOutcome.len_lt {f : Option (Nat × Nat)} {size pp : Nat} {r : LenOut}
    (h : DecodeOutcome f size pp r) (hr : r.rc.neg = false) (hs : size < 2 ^ 16) :
    r.rc = .psSuccess ∧ r.len < 2 ^ 16 := by
  obtain ⟨h, l, -, hfit, rfl⟩ := h.of_not_neg hr
  exact ⟨rfl, by simp only; omega⟩

/-- With `indefinite` clear, `getAsnLength32`, `getAsnSequence32` and `getAsnSet32`
read only the `size` bytes they are given, and accept exactly a well-formed
header whose content fits; below `2^16` bytes the 16-bit wrappers return the
same results. -/
theorem asn_headers_read_within_size {m : Mem} {pp : Nat} {bs : List UInt8} (len : Nat)
    (hm : Holds m pp bs) :
    (getAsnLength32 m pp bs.length false = some (lengthOutcome pp bs) ∧
      DecodeOutcome (lenField bs) bs.length pp (lengthOutcome pp bs)) ∧
    (∃ r, getAsnSequence32 m pp bs.length len false = some r ∧
      DecodeOutcome (tlvField (asnSequence ||| asnConstructed) bs) bs.length pp r) ∧
    (∃ r, getAsnSet32 m pp bs.length len false = some r ∧
      DecodeOutcome (tlvField (asnSet ||| asnConstructed) bs) bs.length pp r) ∧
    (bs.length < 2 ^ 16 →
      getAsnLength m pp bs.length len = (getAsnLength32 m pp bs.length false).map (keepLen len) ∧
      getAsnSequence m pp bs.length len =
        (getAsnSequence32 m pp bs.length 0 false).map (keepLen len) ∧
      getAsnSet m pp bs.length len = (getAsnSet32 m pp bs.length 0 false).map (keepLen len)) := by
  have hl := getAsnLength32_eq_lengthOutcome hm
  refine ⟨⟨hl, lengthOutcome_decodeOutcome pp bs⟩, getAsnSequence32_decodeOutcome len hm,
    getAsnSet32_decodeOutcome len hm, fun hs => ⟨?_, ?_, ?_⟩⟩
  · rw [getAsnLength_eq_wrap16]
    refine wrap16_eq_of_lt len fun r h0 hn => ?_
    cases (hl.symm.trans h0)
    exact (lengthOutcome_decodeOutcome pp bs).len_lt hn hs
  · refine wrap16_eq_of_lt len fun r h0 hn => ?_
    obtain ⟨r', hr', hd⟩ := getAsnSequence32_decodeOutcome 0 hm
    cases (hr'.symm.trans h0)
    exact hd.len_lt hn hs
  · refine wrap16_eq_of_lt len fun r h0 hn => ?_
    obtain ⟨r', hr', hd⟩ := getAsnSet32_decodeOutcome 0 hm
    cases (hr'.symm.trans h0)
    exact hd.len_lt hn hs

theorem asn_headers_read_within_size_sequence :
    Holds (Mem.ofList [0x30, 0x01, 0x05]) 0 [0x30, 0x01, 0x05] ∧
      getAsnSequence (Mem.ofList [0x30, 0x01, 0x05]) 0 3 7 = some ⟨.psSuccess, 2, 1⟩ :=
  ⟨holds_ofList _, ((asn_headers_read_within_size 7 (holds_ofList _)).2.2.2 (by decide)).2.1.trans
    (by decide)⟩

theorem getAsnLength32_four_indefinite {m : Mem} {pp size : Nat} {b0 b1 b2 b3 : UInt8}
    (hm : Holds m pp [0x84, b0, b1, b2, b3]) (hs : 5 ≤ size) :
    getAsnLength32 m pp size true = some ⟨.psSuccess, pp + 5, beNat [b0, b1, b2, b3]⟩ := by
  simp only [holds_cons, holds_nil, and_true, Nat.add_assoc, Nat.reduceAdd] at hm
  obtain ⟨h, h0, h1, h2, h3⟩ := hm
  have he : pp + size - (pp + 1) = size - 1 := by omega
  have h132 : (132 : UInt8).toNat = 132 := rfl
  have hhi : (132 &&& 0x80 : Nat) = 128 := rfl
  have hlo : (132 &&& 0x7F : Nat) = 4 := rfl
  simp only [getAsnLength32, h, h0, h1, h2, h3, he, h132, hhi, hlo, Option.bind_eq_bind,
    Option.some_bind, Nat.add_assoc, Nat.reduceAdd, beNat_four, lengthTail,
    if_neg (show ¬ size < 1 by omega), if_neg (show ¬ size - 1 < 4 by omega)]
  rfl

/-- With `indefinite` set, a SET whose four-byte length lies within six of `2^32`
passes the final check of `getAsnSet32`: the `uint32_t` sum `(p - *pp) + *len`
wraps below `size`, and the decoder succeeds with a header and content that do
not fit in `size`. -/
theorem getAsnSet32_indefinite_sum_wraps {m : Mem} {pp : Nat} {b0 b1 b2 b3 : UInt8}
    {rest : List UInt8} (hm : Holds m pp (0x31 :: 0x84 :: b0 :: b1 :: b2 :: b3 :: rest))
    (hs : rest.length + 6 < 2 ^ 32) (hL : 2 ^ 32 - 6 ≤ beNat [b0, b1, b2, b3]) (len : Nat) :
    getAsnSet32 m pp (rest.length + 6) len true =
        some ⟨.psSuccess, pp + 6, beNat [b0, b1, b2, b3]⟩ ∧
      rest.length + 6 < (pp + 6 - pp) + beNat [b0, b1, b2, b3] := by
  obtain ⟨ht, hl⟩ := holds_cons.1 hm
  have htag : (0x31 : UInt8) = asnSet ||| asnConstructed := rfl
  have hl4 := getAsnLength32_four_indefinite (hl.take 5) (show 5 ≤ rest.length + 6 - 1 by omega)
  have hlt : beNat [b0, b1, b2, b3] < 2 ^ 32 := lt_of_lt_of_eq (beNat_lt _) (by norm_num)
  simp only [List.take_succ_cons, List.take_zero] at hl4
  have hmod : (pp + 1 + 5 - pp + beNat [b0, b1, b2, b3]) % 2 ^ 32 =
      beNat [b0, b1, b2, b3] + 6 - 2 ^ 32 := by
    rw [Nat.mod_eq_sub_mod (by omega), Nat.mod_eq_of_lt (by omega)]
    omega
  refine ⟨?_, by omega⟩
  simp only [getAsnSet32, tagAndLength, ht, ← htag, hl4, Option.bind_eq_bind, Option.some_bind,
    Option.pure_def, if_neg (show ¬ rest.length + 6 < 1 by omega), hmod, ne_eq,
    not_true_eq_false, if_false, Rc.neg, Bool.false_eq_true,
    if_neg (show ¬ rest.length + 6 < beNat [b0, b1, b2, b3] + 6 - 2 ^ 32 by omega)]

theorem getAsnSet32_indefinite_sum_wraps_at_six :
    Holds (Mem.ofList [0x31, 0x84, 0xFF, 0xFF, 0xFF, 0xFD]) 0 [0x31, 0x84, 0xFF, 0xFF, 0xFF, 0xFD] ∧
      getAsnSet32 (Mem.ofList [0x31, 0x84, 0xFF, 0xFF, 0xFF, 0xFD]) 0 6 0 true =
        some ⟨.psSuccess, 6, 2 ^ 32 - 3⟩ ∧ 6 < 6 + (2 ^ 32 - 3) := by
  have h := @getAsnSet32_indefinite_sum_wraps (Mem.ofList [0x31, 0x84, 0xFF, 0xFF, 0xFF, 0xFD]) 0
    0xFF 0xFF 0xFF 0xFD [] (holds_ofList _) (by decide) (by decide) 0
  exact ⟨holds_ofList _, h.1.trans rfl, by decide⟩

end MatrixSsl.Asn1
