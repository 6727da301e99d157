import MatrixSsl.Asn1.Sequence

/-!
# `getAsnInteger` and `getAsnEnumerated`

The two decoders differ only in the tag they expect. After the tag and a
definite length of at most four content bytes they read the content big-endian
into a `uint32_t`, complementing each byte and negating at the end when the
first content byte has its high bit set, and store the result as an `int32_t`.

The high-bit test reads the byte at the end of the length field before the loop
looks at the length. With content, that byte is the first content byte, and
`getAsnInt32_eq_intOutcome` shows that the decoder reads only the element and
yields its two's complement value. With empty content it is the byte after the
element: the decoder reads past an element that ends the input, and otherwise
returns `-1` or `0` depending on the next element.
-/

namespace MatrixSsl.Asn1

/-- The values a small-integer decoder leaves in its return value, `*pp` and `*val`
(`none` where it does not write). -/
structure IntOut where
  rc : Rc
  pp : Nat
  val : Option Int
  deriving DecidableEq, Repr

/-- A 32-bit pattern stored into an `int32_t`. -/
def toInt32 (n : Nat) : Int :=
  if n % 2 ^ 32 < 2 ^ 31 then (n % 2 ^ 32 : Nat) else (n % 2 ^ 32 : Nat) - 2 ^ 32

/-- A content byte as the loop shifts it in: `*p ^ 0xFF` on the negative branch. -/
def contentByte (flip : Bool) (b : UInt8) : Nat :=
  if flip then b.toNat ^^^ 0xFF else b.toNat

/-- The `while (vlen > 0)` loops: `vlen` bytes from `pos` shifted into the
`uint32_t` `ui`. -/
def readUi (m : Mem) (flip : Bool) : Nat → Nat → Nat → Option Nat
  | 0, _, ui => some ui
  | vlen + 1, pos, ui => do
    let b ← m pos
    readUi m flip vlen (pos + 1) ((ui <<< 8) % 2 ^ 32 ||| contentByte flip b)

/-- The second half of both decoders: the high-bit test on the byte at `p`, then
`vlen` bytes into `ui`, negated in two's complement on the negative branch. -/
def readInt32 (m : Mem) (p vlen : Nat) : Option Int := do
  let b ← m p
  if b.toNat &&& 0x80 ≠ 0 then
    let ui ← readUi m true vlen p 0
    let slen := (2 ^ 32 - (ui + 1) % 2 ^ 32) % 2 ^ 32
    return toInt32 slen
  else
    let ui ← readUi m false vlen p 0
    return toInt32 ui

/-- The body `getAsnInteger` and `getAsnEnumerated` share; they differ only in `tag`. -/
def getAsnInt32 (tag : UInt8) (m : Mem) (pp len : Nat) : Option IntOut :=
  let fail (rc : Rc) : Option IntOut := some ⟨rc, pp, none⟩
  let e := pp + len
  if len < 1 then fail .psParseFail else do
  let t ← m pp
  if t ≠ tag then fail .psParseFail else do
  let r ← getAsnLength32 m (pp + 1) (len - 1) false
  if r.rc.neg then fail r.rc else
  if 4 < r.len ∨ e - r.pp < r.len then fail .psLimitFail else do
  let v ← readInt32 m r.pp r.len
  pure ⟨.psSuccess, r.pp + r.len, some v⟩

def getAsnInteger (m : Mem) (pp len : Nat) : Option IntOut := getAsnInt32 asnInteger m pp len

def getAsnEnumerated (m : Mem) (pp len : Nat) : Option IntOut :=
  getAsnInt32 asnEnumerated m pp len

/-- With empty content the high-bit test reads past the element: at offset `len`
when the element fills the input, and otherwise the next element's first byte
decides between `-1` and `0`. -/
theorem getAsnInteger_empty_content_reads_past_element :
    getAsnInteger (Mem.ofList [0x02, 0x00]) 0 2 = none ∧
      getAsnEnumerated (Mem.ofList [0x0A, 0x00]) 0 2 = none ∧
      getAsnInteger (Mem.ofList [0x02, 0x00, 0x80]) 0 2 = some ⟨.psSuccess, 2, some (-1)⟩ ∧
      getAsnInteger (Mem.ofList [0x02, 0x00, 0x00]) 0 2 = some ⟨.psSuccess, 2, some 0⟩ :=
  ⟨rfl, rfl, rfl, rfl⟩

/-- The two's complement value of big-endian content. -/
def twosComplement : List UInt8 → Int
  | [] => 0
  | b :: bs =>
    if 0x80 ≤ b.toNat then (beNat (b :: bs) : Int) - 256 ^ (bs.length + 1)
    else beNat (b :: bs)

/-- What the decoder for `tag` yields on the bytes `bs` when the content is not
empty: the header checks, the four-byte ceiling and the content's value. -/
def intOutcome (tag : UInt8) (pp : Nat) : List UInt8 → IntOut
  | [] => ⟨.psParseFail, pp, none⟩
  | t :: xs =>
    if t ≠ tag then ⟨.psParseFail, pp, none⟩ else
    match lenField xs with
    | none => ⟨.psLimitFail, pp, none⟩
    | some (n, vlen) =>
      if xs.length < n + vlen ∨ 4 < vlen then ⟨.psLimitFail, pp, none⟩
      else ⟨.psSuccess, pp + 1 + n + vlen, some (twosComplement ((xs.drop n).take vlen))⟩

set_option maxRecDepth 4000 in
theorem byte_xor_0xFF : ∀ n, n < 256 → n ^^^ 0xFF = 255 - n := by decide

theorem contentByte_lt (flip : Bool) (b : UInt8) : contentByte flip b < 256 := by
  have := b.toNat_lt_size
  cases flip
  · exact this
  · simp only [contentByte, if_true, byte_xor_0xFF _ this]; omega

theorem shift_or_byte {ui x : Nat} (hui : ui < 2 ^ 24) (hx : x < 256) :
    (ui <<< 8) % 2 ^ 32 ||| x = ui * 256 + x := by
  rw [Nat.shiftLeft_eq, Nat.mod_eq_of_lt (by omega), Nat.mul_comm]
  exact (Nat.mul_add_lt_is_or (i := 8) hx ui).symm

theorem foldl_mul256 (f : UInt8 → Nat) (acc : Nat) (ys : List UInt8) :
    ys.foldl (fun a b => a * 256 + f b) acc =
      acc * 256 ^ ys.length + ys.foldl (fun a b => a * 256 + f b) 0 := by
  induction ys generalizing acc with
  | nil => simp
  | cons y ys ih =>
    simp only [List.foldl_cons, List.length_cons, Nat.zero_mul, Nat.zero_add]
    rw [ih, ih (f y)]
    ring

theorem foldl_flip_add (ys : List UInt8) :
    ys.foldl (fun a b => a * 256 + contentByte true b) 0 + beNat ys + 1 = 256 ^ ys.length := by
  induction ys with
  | nil => rfl
  | cons y ys ih =>
    have hy : y.toNat < 256 := y.toNat_lt_size
    have hb : contentByte true y = 255 - y.toNat := by
      simp only [contentByte, if_true, byte_xor_0xFF _ hy]
    simp only [beNat, List.foldl_cons, List.length_cons, Nat.zero_mul, Nat.zero_add, hb] at ih ⊢
    rw [foldl_mul256, foldl_mul256 _ y.toNat, pow_succ]
    have e : (255 - y.toNat) * 256 ^ ys.length + y.toNat * 256 ^ ys.length = 255 * 256 ^ ys.length := by
      rw [← Nat.add_mul, Nat.sub_add_cancel (by omega)]
    omega

theorem readUi_eq {m : Mem} {flip : Bool} :
    ∀ {k p ui : Nat} {ys : List UInt8}, Holds m p ys → k ≤ ys.length → k ≤ 4 →
      ui < 256 ^ (4 - k) →
      readUi m flip k p ui = some ((ys.take k).foldl (fun a b => a * 256 + contentByte flip b) ui)
  | 0, _, _, _, _, _, _, _ => rfl
  | k + 1, p, ui, y :: ys, hm, hk, hk4, hui => by
    obtain ⟨hy, hys⟩ := holds_cons.1 hm
    have hpow : 256 ^ (4 - (k + 1)) * 256 = 256 ^ (4 - k) := by
      rw [← pow_succ]; congr 1; omega
    have h24 : 256 ^ (4 - (k + 1)) ≤ 2 ^ 24 := by
      calc 256 ^ (4 - (k + 1)) ≤ 256 ^ 3 := Nat.pow_le_pow_right (by omega) (by omega)
        _ = 2 ^ 24 := rfl
    have hc := contentByte_lt flip y
    have hsh := shift_or_byte (show ui < 2 ^ 24 by omega) hc
    simp only [readUi, hy, Option.bind_eq_bind, Option.some_bind, List.take_succ_cons,
      List.foldl_cons, hsh]
    exact readUi_eq hys (by simp at hk; omega) (by omega) (by omega)

theorem toInt32_of_lt {n : Nat} (h : n < 2 ^ 31) : toInt32 n = n := by
  rw [toInt32, Nat.mod_eq_of_lt (show n < 2 ^ 32 by omega), if_pos h]

theorem toInt32_of_ge {n : Nat} (h1 : 2 ^ 31 ≤ n) (h2 : n < 2 ^ 32) :
    toInt32 n = (n : Int) - 2 ^ 32 := by
  rw [toInt32, Nat.mod_eq_of_lt h2, if_neg (Nat.not_lt.2 h1)]

theorem toInt32_emod (n : Nat) : toInt32 n % 2 ^ 32 = n % 2 ^ 32 := by
  unfold toInt32; split_ifs <;> omega

theorem beNat_cons (b : UInt8) (bs : List UInt8) :
    beNat (b :: bs) = b.toNat * 256 ^ bs.length + beNat bs := by
  simp only [beNat, List.foldl_cons, Nat.zero_mul, Nat.zero_add]
  exact foldl_mul256 UInt8.toNat _ _

theorem readInt32_eq {m : Mem} {p vlen : Nat} {ys : List UInt8} (hm : Holds m p ys)
    (h1 : 1 ≤ vlen) (h4 : vlen ≤ 4) (hv : vlen ≤ ys.length) :
    readInt32 m p vlen = some (twosComplement (ys.take vlen)) := by
  have htake : (ys.take vlen).length = vlen := by simp; omega
  obtain ⟨c, cs, hys⟩ : ∃ c cs, ys.take vlen = c :: cs :=
    List.exists_cons_of_ne_nil fun h => by rw [h] at htake; simp at htake; omega
  have hlen : cs.length + 1 = vlen := by rw [← htake, hys]; rfl
  have hc : m p = some c := by
    rw [← List.take_append_drop vlen ys, hys] at hm
    exact (holds_cons.1 hm).1
  have hc256 : c.toNat < 256 := c.toNat_lt_size
  have hP : 256 ^ cs.length ≤ 2 ^ 24 := by
    calc 256 ^ cs.length ≤ 256 ^ 3 := Nat.pow_le_pow_right (by omega) (by omega)
      _ = 2 ^ 24 := rfl
  have hrest := beNat_lt cs
  have hbe := beNat_cons c cs
  simp only [readInt32, hc, Option.bind_eq_bind, Option.some_bind]
  rw [readUi_eq hm hv h4 (by simp), readUi_eq hm hv h4 (by simp), hys]
  simp only [Option.some_bind, Option.pure_def]
  by_cases hneg : 0x80 ≤ c.toNat
  · have hflip := foldl_flip_add (c :: cs)
    have hcP : 128 * 256 ^ cs.length ≤ c.toNat * 256 ^ cs.length := Nat.mul_le_mul_right _ hneg
    have h256 : (256 : Int) ^ (cs.length + 1) = ((256 ^ cs.length * 256 : Nat) : Int) := by
      push_cast; ring
    rw [List.length_cons, pow_succ] at hflip
    rw [if_pos ((byte_and_0x80 _ hc256).2 hneg)]
    simp only [twosComplement, if_pos hneg, Option.some.injEq, h256]
    generalize (c :: cs).foldl (fun a b => a * 256 + contentByte true b) 0 = ui at hflip ⊢
    generalize 256 ^ cs.length = P at *
    rw [Nat.mod_eq_of_lt (by omega), Nat.mod_eq_of_lt (by omega),
      toInt32_of_ge (by omega) (by omega)]
    omega
  · have hcP : c.toNat * 256 ^ cs.length + 256 ^ cs.length ≤ 128 * 256 ^ cs.length := by
      rw [← Nat.succ_mul]; exact Nat.mul_le_mul_right _ (by omega)
    have hid : (c :: cs).foldl (fun a b => a * 256 + contentByte false b) 0 = beNat (c :: cs) := rfl
    rw [if_neg (mt (byte_and_0x80 _ hc256).1 hneg), hid, toInt32_of_lt (by rw [hbe]; omega)]
    simp [twosComplement, hneg]

/-- Unless the element's content is empty, the decoder reads only the bytes `bs`
it is given and yields `intOutcome`: on success the two's complement value of the
content and `*pp` past the element. -/
theorem getAsnInt32_eq_intOutcome {m : Mem} {pp : Nat} {bs : List UInt8} (tag : UInt8)
    (hm : Holds m pp bs) (hne : ∀ n, tlvField tag bs ≠ some (n, 0)) :
    getAsnInt32 tag m pp bs.length = some (intOutcome tag pp bs) := by
  match bs, hm, hne with
  | [], _, _ => simp [getAsnInt32, intOutcome]
  | t :: xs, hm, hne =>
    obtain ⟨ht, hxs⟩ := holds_cons.1 hm
    by_cases htag : t = tag
    swap
    · simp [getAsnInt32, intOutcome, ht, htag]
    subst htag
    simp only [getAsnInt32, ht, List.length_cons, Nat.add_sub_cancel,
      getAsnLength32_eq_lengthOutcome hxs, Option.bind_eq_bind, Option.some_bind, intOutcome,
      lengthOutcome, if_neg (show ¬ xs.length + 1 < 1 by omega), ne_eq, not_true_eq_false,
      if_false]
    rcases hf : lenField xs with _ | ⟨n, vlen⟩
    · rfl
    have hv : vlen ≠ 0 := by
      rintro rfl
      exact hne (n + 1) (by simp [tlvField, hf])
    by_cases hfit : n + vlen ≤ xs.length
    swap
    · simp [hfit, Rc.neg, show xs.length < n + vlen by omega]
    by_cases h4 : 4 < vlen
    · simp [hfit, h4, Rc.neg]
    have hd := hxs.drop n
    simp only [if_pos hfit, Rc.neg, Bool.false_eq_true, if_false, h4, false_or,
      if_neg (show ¬ pp + (xs.length + 1) - (pp + 1 + n) < vlen by omega),
      readInt32_eq hd (by omega) (by omega) (show vlen ≤ (xs.drop n).length by simp; omega),
      Option.some_bind, or_false, if_neg (show ¬ xs.length < n + vlen by omega)]
    rfl

theorem lenField_append {xs rest : List UInt8} {n l : Nat} (h : lenField xs = some (n, l)) :
    lenField (xs ++ rest) = some (n, l) := by
  match xs, h with
  | b :: ys, h =>
    simp only [lenField] at h
    simp only [List.cons_append, lenField, List.length_append]
    by_cases h1 : b.toNat < 0x80
    · simpa [h1] using h
    by_cases h2 : 0x81 ≤ b.toNat ∧ b.toNat ≤ 0x84 ∧ b.toNat - 0x80 ≤ ys.length
    · rw [if_neg h1, if_pos h2] at h
      rw [if_neg h1, if_pos ⟨h2.1, h2.2.1, by omega⟩, List.take_append_of_le_length h2.2.2]
      exact h
    · rw [if_neg h1, if_neg h2] at h
      cases h

theorem intOutcome_append {tag : UInt8} {pp h l : Nat} {elem rest : List UInt8}
    (hf : tlvField tag elem = some (h, l)) (hlen : h + l = elem.length) :
    intOutcome tag pp (elem ++ rest) = intOutcome tag pp elem := by
  match elem, hf with
  | t :: xs, hf =>
    simp only [tlvField] at hf
    split_ifs at hf with ht
    obtain ⟨⟨n, l'⟩, hx, he⟩ := Option.map_eq_some'.1 hf
    simp only [Prod.mk.injEq] at he
    obtain ⟨rfl, rfl⟩ := he
    simp only [List.length_cons] at hlen
    simp only [List.cons_append, intOutcome, ht, lenField_append hx, hx, List.length_append,
      List.drop_append_of_le_length (show n ≤ xs.length by omega),
      List.take_append_of_le_length (show l' ≤ (xs.drop n).length by simp; omega)]
    split_ifs <;> first | rfl | omega

/-- With non-empty content, `getAsnInteger` and `getAsnEnumerated` read only the
bytes they are given and yield `intOutcome`: the two's complement value of the
content, whatever follows the element. -/
theorem getAsnInteger_reads_only_element {m : Mem} {pp : Nat} {bs : List UInt8}
    (hm : Holds m pp bs) :
    ((∀ n, tlvField asnInteger bs ≠ some (n, 0)) →
      getAsnInteger m pp bs.length = some (intOutcome asnInteger pp bs)) ∧
    ((∀ n, tlvField asnEnumerated bs ≠ some (n, 0)) →
      getAsnEnumerated m pp bs.length = some (intOutcome asnEnumerated pp bs)) ∧
    (∀ (tag : UInt8) (elem rest : List UInt8) (h l : Nat), tlvField tag elem = some (h, l) →
      h + l = elem.length → intOutcome tag pp (elem ++ rest) = intOutcome tag pp elem) :=
  ⟨getAsnInt32_eq_intOutcome _ hm, getAsnInt32_eq_intOutcome _ hm,
    fun _ _ _ _ _ hf hlen => intOutcome_append hf hlen⟩

theorem getAsnInteger_reads_only_element_minus_one :
    Holds (Mem.ofList [0x02, 0x01, 0xFF]) 0 [0x02, 0x01, 0xFF] ∧
      getAsnInteger (Mem.ofList [0x02, 0x01, 0xFF]) 0 3 = some ⟨.psSuccess, 3, some (-1)⟩ := by
  exact ⟨holds_ofList _,
    ((getAsnInteger_reads_only_element (holds_ofList [0x02, 0x01, 0xFF])).1
      fun n h => by simp [tlvField, lenField, asnInteger] at h).trans
      (by decide)⟩

theorem twosComplement_cons (b : UInt8) (bs : List UInt8) :
    twosComplement (b :: bs) =
      if 128 * 256 ^ bs.length ≤ beNat (b :: bs) then
        (beNat (b :: bs) : Int) - 256 ^ (bs.length + 1)
      else beNat (b :: bs) := by
  have hr := beNat_lt bs
  have hb := beNat_cons b bs
  have hiff : 0x80 ≤ b.toNat ↔ 128 * 256 ^ bs.length ≤ beNat (b :: bs) := by
    constructor
    · intro h
      rw [hb]
      exact le_add_right (Nat.mul_le_mul_right _ h)
    · intro h
      by_contra hlt
      have : (b.toNat + 1) * 256 ^ bs.length ≤ 128 * 256 ^ bs.length :=
        Nat.mul_le_mul_right _ (by omega)
      rw [Nat.add_mul, one_mul] at this
      omega
  simp only [twosComplement, hiff]

theorem twosComplement_bounds (b : UInt8) (bs : List UInt8) :
    -(128 * 256 ^ bs.length : Int) ≤ twosComplement (b :: bs) ∧
      twosComplement (b :: bs) < 128 * 256 ^ bs.length := by
  have hlt : beNat (b :: bs) < 256 ^ bs.length * 256 := by
    simpa [pow_succ] using beNat_lt (b :: bs)
  have hP : (256 : Int) ^ bs.length = ((256 ^ bs.length : Nat) : Int) := by push_cast; rfl
  rw [twosComplement_cons, pow_succ, hP]
  generalize beNat (b :: bs) = n at *
  generalize 256 ^ bs.length = P at *
  split_ifs <;> omega

theorem two_pow_eight_mul_sub_one (k : Nat) : (2 : Int) ^ (8 * (k + 1) - 1) = 128 * 256 ^ k := by
  rw [show 8 * (k + 1) - 1 = 7 + 8 * k by omega, pow_add, pow_mul]
  norm_num

/-- The `k` low bytes of `n`, big-endian. -/
def beBytes : Nat → Nat → List UInt8
  | 0, _ => []
  | k + 1, n => beBytes k (n / 256) ++ [n.toUInt8]

@[simp] theorem beBytes_length (k n : Nat) : (beBytes k n).length = k := by
  induction k generalizing n <;> simp [beBytes, *]

theorem beNat_beBytes (k n : Nat) : beNat (beBytes k n) = n % 256 ^ k := by
  induction k generalizing n with
  | zero => simp [beBytes, beNat, Nat.mod_one]
  | succ k ih =>
    rw [beBytes, beNat_append_single, ih, toUInt8_toNat, pow_succ', Nat.mod_mul]
    omega

theorem twosComplement_beBytes {k : Nat} {v : Int} (hk : 1 ≤ k)
    (hlo : -(128 * 256 ^ (k - 1) : Int) ≤ v) (hhi : v < 128 * 256 ^ (k - 1)) :
    twosComplement (beBytes k (v % 256 ^ k).toNat) = v := by
  obtain ⟨j, rfl⟩ : ∃ j, k = j + 1 := ⟨k - 1, by omega⟩
  obtain ⟨b, bs, hbs⟩ : ∃ b bs, beBytes (j + 1) (v % 256 ^ (j + 1)).toNat = b :: bs := by
    cases h : beBytes (j + 1) (v % 256 ^ (j + 1)).toNat with
    | nil => simpa [h] using beBytes_length (j + 1) (v % 256 ^ (j + 1)).toNat
    | cons b bs => exact ⟨b, bs, rfl⟩
  have hlen : bs.length = j := by simpa [hbs] using beBytes_length (j + 1) (v % 256 ^ (j + 1)).toNat
  simp only [Nat.add_sub_cancel] at hlo hhi
  have hP : (256 : Int) ^ j = ((256 ^ j : Nat) : Int) := by push_cast; rfl
  have hM : (256 : Int) ^ (j + 1) = ((256 ^ j : Nat) : Int) * 256 := by rw [pow_succ, hP]
  rw [hP] at hhi hlo
  have hmod : v % 256 ^ (j + 1) = if v < 0 then v + 256 ^ (j + 1) else v := by
    rw [hM]
    split_ifs with hv
    · rw [← Int.add_emod_self, Int.emod_eq_of_lt (by omega) (by omega)]
    · exact Int.emod_eq_of_lt (by omega) (by omega)
  have hn : (beNat (b :: bs) : Int) = v % 256 ^ (j + 1) := by
    rw [← hbs, beNat_beBytes, Nat.mod_eq_of_lt, Int.toNat_of_nonneg (Int.emod_nonneg _ (by positivity))]
    have := Int.emod_lt_of_pos v (show (0 : Int) < 256 ^ (j + 1) by positivity)
    rw [hM] at this
    omega
  rw [hbs, twosComplement_cons, hlen, hM]
  rw [hmod, hM] at hn
  generalize beNat (b :: bs) = n at *
  generalize 256 ^ j = P at *
  split_ifs at hn ⊢ <;> omega

/-- The number of content bytes of the minimal DER INTEGER encoding of an `int32`. -/
def intLen (v : Int) : Nat :=
  if -2 ^ 7 ≤ v ∧ v < 2 ^ 7 then 1
  else if -2 ^ 15 ≤ v ∧ v < 2 ^ 15 then 2
  else if -2 ^ 23 ≤ v ∧ v < 2 ^ 23 then 3
  else 4

/-- The minimal DER encoding of an `int32` as an INTEGER: the tag, a short length
and the value's two's complement in `intLen v` bytes. -/
def derInteger (v : Int) : List UInt8 :=
  asnInteger :: (intLen v).toUInt8 :: beBytes (intLen v) (v % 256 ^ intLen v).toNat

theorem intLen_spec {v : Int} (hlo : -2 ^ 31 ≤ v) (hhi : v < 2 ^ 31) :
    1 ≤ intLen v ∧ intLen v ≤ 4 ∧
      -(128 * 256 ^ (intLen v - 1) : Int) ≤ v ∧ v < 128 * 256 ^ (intLen v - 1) := by
  unfold intLen
  split_ifs <;> norm_num <;> omega

theorem lenField_short {k : Nat} (hk : k < 0x80) (rest : List UInt8) :
    lenField (k.toUInt8 :: rest) = some (1, k) := by
  have hk' : k % 256 = k := Nat.mod_eq_of_lt (by omega)
  simp [lenField, hk', hk]

theorem getAsnInt32_content {m : Mem} {pp vlen : Nat} {tag : UInt8} {field b rest : List UInt8}
    (hv1 : 1 ≤ vlen) (hv4 : vlen ≤ 4) (hf : lenField field = some (field.length, vlen))
    (hb : b.length = vlen) (hm : Holds m pp (tag :: (field ++ b ++ rest))) :
    getAsnInt32 tag m pp (tag :: (field ++ b ++ rest)).length =
      some ⟨.psSuccess, pp + 1 + field.length + vlen, some (twosComplement b)⟩ := by
  have hfl : lenField (field ++ (b ++ rest)) = some (field.length, vlen) := lenField_append hf
  have hne : ∀ n, tlvField tag (tag :: (field ++ b ++ rest)) ≠ some (n, 0) := by
    simp [tlvField, hfl]; omega
  rw [getAsnInt32_eq_intOutcome tag hm hne]
  simp only [intOutcome, ne_eq, not_true_eq_false, if_false, List.append_assoc, hfl,
    List.length_append, List.drop_left, List.take_left' hb]
  rw [if_neg (by omega)]

theorem getAsnInteger_derInteger {v : Int} (hlo : -2 ^ 31 ≤ v) (hhi : v < 2 ^ 31) {m : Mem}
    {pp : Nat} {rest : List UInt8} (hm : Holds m pp (derInteger v ++ rest)) :
    getAsnInteger m pp (derInteger v ++ rest).length =
      some ⟨.psSuccess, pp + (derInteger v).length, some v⟩ := by
  obtain ⟨h1, h4, hl, hh⟩ := intLen_spec hlo hhi
  have e := @getAsnInt32_content m pp (intLen v) asnInteger [(intLen v).toUInt8]
    (beBytes (intLen v) (v % 256 ^ intLen v).toNat) rest h1 h4 (lenField_short (by omega) [])
    (beBytes_length _ _) hm
  rw [twosComplement_beBytes h1 hl hh] at e
  have hlen : pp + (derInteger v).length = pp + 1 + [(intLen v).toUInt8].length + intLen v := by
    simp only [derInteger, List.length_cons, beBytes_length, List.length_singleton,
      List.length_nil]
    omega
  rw [hlen]
  exact e

/-- With one to four content bytes `b` after any length field declaring them,
`getAsnInteger` and `getAsnEnumerated` succeed with the two's complement value of
`b` and `*pp` past `b`, and that value lies in `[-2^(8 vlen - 1), 2^(8 vlen - 1))`;
so every `int32` survives its minimal DER encoding. -/
theorem getAsnInteger_twos_complement :
    (∀ (m : Mem) (pp vlen : Nat) (field b rest : List UInt8), 1 ≤ vlen → vlen ≤ 4 →
      lenField field = some (field.length, vlen) → b.length = vlen →
      (Holds m pp (asnInteger :: (field ++ b ++ rest)) →
        getAsnInteger m pp (asnInteger :: (field ++ b ++ rest)).length =
          some ⟨.psSuccess, pp + 1 + field.length + vlen, some (twosComplement b)⟩) ∧
      (Holds m pp (asnEnumerated :: (field ++ b ++ rest)) →
        getAsnEnumerated m pp (asnEnumerated :: (field ++ b ++ rest)).length =
          some ⟨.psSuccess, pp + 1 + field.length + vlen, some (twosComplement b)⟩) ∧
      -2 ^ (8 * vlen - 1) ≤ twosComplement b ∧ twosComplement b < 2 ^ (8 * vlen - 1)) ∧
    ∀ v : Int, -2 ^ 31 ≤ v → v < 2 ^ 31 → ∀ (m : Mem) (pp : Nat) (rest : List UInt8),
      Holds m pp (derInteger v ++ rest) →
        getAsnInteger m pp (derInteger v ++ rest).length =
          some ⟨.psSuccess, pp + (derInteger v).length, some v⟩ := by
  refine ⟨fun m pp vlen field b rest h1 h4 hf hb => ⟨getAsnInt32_content h1 h4 hf hb,
    getAsnInt32_content h1 h4 hf hb, ?_⟩, fun v hlo hhi m pp rest hm => getAsnInteger_derInteger hlo hhi hm⟩
  match b, hb with
  | c :: cs, rfl =>
    rw [List.length_cons, two_pow_eight_mul_sub_one]
    exact twosComplement_bounds c cs

theorem getAsnInteger_twos_complement_int32_min :
    getAsnInteger (Mem.ofList (derInteger (-2 ^ 31))) 0 6 = some ⟨.psSuccess, 6, some (-2 ^ 31)⟩ := by
  have h := getAsnInteger_twos_complement.2 (-2 ^ 31) le_rfl (by norm_num)
    (Mem.ofList (derInteger (-2 ^ 31))) 0 [] (by rw [List.append_nil]; exact holds_ofList _)
  simp only [List.append_nil, Nat.zero_add] at h
  exact h

end MatrixSsl.Asn1
