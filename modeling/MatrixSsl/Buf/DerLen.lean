import MatrixSsl.Asn1.Length

/-!
# The DER length writer of `psbuf.c`

`len_of_tag_and_len` gives the size of a tag byte and the length field for a
content length, and `output_len` writes the field after the tag: the short
form below `128`, otherwise `0x81` to `0x84` and the fewest big-endian bytes.
For every length below `2^32` the field reads back through `lenField`.
-/

namespace MatrixSsl

def lenOfTagAndLen (len : Nat) : Nat :=
  if len < 128 then 2
  else if len < 256 then 3
  else if len < 65536 then 4
  else if len < 16777216 then 5
  else 6

/-- The bytes `output_len` stores at `target[1]` onward. -/
def outputLen (len : Nat) : List UInt8 :=
  if len < 128 then [len.toUInt8]
  else if len < 256 then [0x81, len.toUInt8]
  else if len < 65536 then [0x82, (len >>> 8).toUInt8, len.toUInt8]
  else if len < 16777216 then [0x83, (len >>> 16).toUInt8, (len >>> 8).toUInt8, len.toUInt8]
  else [0x84, (len >>> 24).toUInt8, (len >>> 16).toUInt8, (len >>> 8).toUInt8, len.toUInt8]

theorem outputLen_length (len : Nat) : (outputLen len).length + 1 = lenOfTagAndLen len := by
  unfold outputLen lenOfTagAndLen
  split_ifs <;> rfl

theorem two_le_lenOfTagAndLen (len : Nat) : 2 ≤ lenOfTagAndLen len := by
  unfold lenOfTagAndLen
  split_ifs <;> omega

/-- Every length below `2^32` written by `output_len` reads back through
`lenField`, whatever follows the field. -/
theorem lenField_outputLen {len : Nat} (hlen : len < 2 ^ 32) (rest : List UInt8) :
    Asn1.lenField (outputLen len ++ rest) = some (lenOfTagAndLen len - 1, len) := by
  unfold outputLen lenOfTagAndLen
  split_ifs with h1 h2 h3 h4
  · simp [Asn1.lenField, Nat.mod_eq_of_lt (show len < 256 by omega), h1]
  all_goals simp [Asn1.lenField, beNat, Nat.shiftRight_eq_div_pow]; omega

theorem toUInt8_eq_iff (x : Nat) (a : UInt8) : x.toUInt8 = a ↔ x % 256 = a.toNat := by
  constructor
  · rintro rfl; rfl
  · intro h
    exact UInt8.eq_of_val_eq (Fin.ext (by change x % 256 = a.toNat; exact h))

/-- A long length field is minimal: one byte of at least `0x80`, or a non-zero
leading byte. -/
def MinimalLong : List UInt8 → Prop
  | [y] => 0x80 ≤ y.toNat
  | y :: _ :: _ => y ≠ 0
  | [] => False

theorem outputLen_beNat {ys : List UInt8} (h4 : ys.length ≤ 4) (hmin : MinimalLong ys) :
    outputLen (beNat ys) = (0x80 + ys.length).toUInt8 :: ys ∧
      lenOfTagAndLen (beNat ys) = ys.length + 2 := by
  have hne {a : UInt8} (h : a ≠ 0) : a.toNat ≠ 0 := fun h0 => h ((uint8_eq_iff_toNat _ _).2 h0)
  match ys, h4, hmin with
  | [a], _, hmin =>
    have ha : a.toNat < 256 := a.toNat_lt_size
    simp only [MinimalLong] at hmin
    simp only [beNat, List.foldl_cons, List.foldl_nil, List.length_singleton]
    unfold outputLen lenOfTagAndLen
    split_ifs <;> first | omega | (simp [toUInt8_eq_iff]; refine ⟨rfl, ?_⟩; omega)
  | [a, b], _, hmin =>
    have := hne hmin
    have ha : a.toNat < 256 := a.toNat_lt_size
    have hb : b.toNat < 256 := b.toNat_lt_size
    simp only [beNat, List.foldl_cons, List.foldl_nil, List.length_cons, List.length_nil]
    unfold outputLen lenOfTagAndLen
    split_ifs <;> first | omega |
      (simp [toUInt8_eq_iff, Nat.shiftRight_eq_div_pow]; refine ⟨rfl, ?_⟩; omega)
  | [a, b, c], _, hmin =>
    have := hne hmin
    have ha : a.toNat < 256 := a.toNat_lt_size
    have hb : b.toNat < 256 := b.toNat_lt_size
    have hc : c.toNat < 256 := c.toNat_lt_size
    simp only [beNat, List.foldl_cons, List.foldl_nil, List.length_cons, List.length_nil]
    unfold outputLen lenOfTagAndLen
    split_ifs <;> first | omega |
      (simp [toUInt8_eq_iff, Nat.shiftRight_eq_div_pow]; refine ⟨rfl, ?_⟩; omega)
  | [a, b, c, d], _, hmin =>
    have := hne hmin
    have ha : a.toNat < 256 := a.toNat_lt_size
    have hb : b.toNat < 256 := b.toNat_lt_size
    have hc : c.toNat < 256 := c.toNat_lt_size
    have hd : d.toNat < 256 := d.toNat_lt_size
    simp only [beNat, List.foldl_cons, List.foldl_nil, List.length_cons, List.length_nil]
    unfold outputLen lenOfTagAndLen
    split_ifs <;> first | omega |
      (simp [toUInt8_eq_iff, Nat.shiftRight_eq_div_pow]; refine ⟨rfl, ?_⟩; omega)

instance : DecidablePred MinimalLong := fun ys =>
  match ys with
  | [] => inferInstanceAs (Decidable False)
  | [y] => inferInstanceAs (Decidable (0x80 ≤ y.toNat))
  | y :: _ :: _ => inferInstanceAs (Decidable (y ≠ 0))

theorem minimalLong_iff {ys : List UInt8} (h1 : 1 ≤ ys.length) (h4 : ys.length ≤ 4) :
    MinimalLong ys ↔ lenOfTagAndLen (beNat ys) = ys.length + 2 := by
  have hne (a : UInt8) : a ≠ 0 ↔ a.toNat ≠ 0 := not_congr (uint8_eq_iff_toNat a 0)
  match ys, h1, h4 with
  | [a], _, _ =>
    have ha : a.toNat < 256 := a.toNat_lt_size
    simp only [MinimalLong, beNat, List.foldl_cons, List.foldl_nil, List.length_singleton,
      lenOfTagAndLen]
    split_ifs <;> omega
  | [a, b], _, _ =>
    have ha : a.toNat < 256 := a.toNat_lt_size
    have hb : b.toNat < 256 := b.toNat_lt_size
    simp only [MinimalLong, hne, beNat, List.foldl_cons, List.foldl_nil, List.length_cons,
      List.length_nil, lenOfTagAndLen]
    split_ifs <;> omega
  | [a, b, c], _, _ =>
    have ha : a.toNat < 256 := a.toNat_lt_size
    have hb : b.toNat < 256 := b.toNat_lt_size
    have hc : c.toNat < 256 := c.toNat_lt_size
    simp only [MinimalLong, hne, beNat, List.foldl_cons, List.foldl_nil, List.length_cons,
      List.length_nil, lenOfTagAndLen]
    split_ifs <;> omega
  | [a, b, c, d], _, _ =>
    have ha : a.toNat < 256 := a.toNat_lt_size
    have hb : b.toNat < 256 := b.toNat_lt_size
    have hc : c.toNat < 256 := c.toNat_lt_size
    have hd : d.toNat < 256 := d.toNat_lt_size
    simp only [MinimalLong, hne, beNat, List.foldl_cons, List.foldl_nil, List.length_cons,
      List.length_nil, lenOfTagAndLen]
    split_ifs <;> omega

/-- The DER length field at the head of `xs`: a definite field of exactly the size
`output_len` writes for its value, so the short form below `128` and long forms
without a leading zero byte. -/
def derLenField (xs : List UInt8) : Option (Nat × Nat) :=
  (Asn1.lenField xs).filter fun r => lenOfTagAndLen r.2 = r.1 + 1

theorem derLenField_outputLen {len : Nat} (hlen : len < 2 ^ 32) (rest : List UInt8) :
    derLenField (outputLen len ++ rest) = some (lenOfTagAndLen len - 1, len) := by
  have : 1 ≤ lenOfTagAndLen len := by have := two_le_lenOfTagAndLen len; omega
  simp [derLenField, lenField_outputLen hlen, Option.filter, Nat.sub_add_cancel this]

theorem derLenField_short {b : UInt8} {rest : List UInt8} (hb : b.toNat < 0x80) :
    derLenField (b :: rest) = some (1, b.toNat) := by
  simp [derLenField, Asn1.lenField, hb, Option.filter, lenOfTagAndLen]

theorem derLenField_long {b : UInt8} {rest : List UInt8} {k : Nat} (hk : b.toNat = 0x80 + k)
    (hk1 : 1 ≤ k) (hk4 : k ≤ 4) (hkr : k ≤ rest.length) :
    derLenField (b :: rest) =
      if MinimalLong (rest.take k) then some (k + 1, beNat (rest.take k)) else none := by
  have hlen : (rest.take k).length = k := by simp; omega
  have hiff : MinimalLong (rest.take k) ↔ _ := minimalLong_iff (by omega) (by omega)
  rw [hlen] at hiff
  simp only [derLenField, Asn1.lenField, if_neg (show ¬ b.toNat < 0x80 by omega),
    show b.toNat - 0x80 = k by omega,
    if_pos (show 0x81 ≤ b.toNat ∧ b.toNat ≤ 0x84 ∧ k ≤ rest.length by omega)]
  split_ifs with h
  · simp [Option.filter, hiff.1 h]
  · simp [Option.filter, mt hiff.2 h]

theorem outputLen_of_derLenField {xs : List UInt8} {n len : Nat}
    (h : derLenField xs = some (n, len)) :
    len < 2 ^ 32 ∧ n + 1 = lenOfTagAndLen len ∧ xs = outputLen len ++ xs.drop n := by
  match xs with
  | [] => simp [derLenField, Asn1.lenField] at h
  | b :: rest =>
    have hb256 : b.toNat < 256 := b.toNat_lt_size
    by_cases hb : b.toNat < 0x80
    · obtain ⟨rfl, rfl⟩ := Prod.mk.inj (Option.some.inj ((derLenField_short hb).symm.trans h))
      refine ⟨by omega, by simp [lenOfTagAndLen, hb], ?_⟩
      simp [outputLen, hb, ((toUInt8_eq_iff _ _).2 (Nat.mod_eq_of_lt hb256))]
    obtain ⟨k, hk⟩ : ∃ k, b.toNat = 0x80 + k := ⟨b.toNat - 0x80, by omega⟩
    by_cases hkr : 1 ≤ k ∧ k ≤ 4 ∧ k ≤ rest.length
    · rw [derLenField_long hk hkr.1 hkr.2.1 hkr.2.2] at h
      split_ifs at h with hmin
      obtain ⟨rfl, rfl⟩ := Prod.mk.inj (Option.some.inj h)
      have hlen : (rest.take k).length = k := by simp; omega
      obtain ⟨hout, hsize⟩ := outputLen_beNat (by omega) hmin
      have hlt := beNat_lt (rest.take k)
      rw [hlen] at hlt hout hsize
      refine ⟨lt_of_lt_of_le hlt ?_, by omega, ?_⟩
      · calc 256 ^ k ≤ 256 ^ 4 := Nat.pow_le_pow_right (by omega) hkr.2.1
          _ = 2 ^ 32 := rfl
      · rw [hout, (toUInt8_eq_iff _ _).2 (by omega : (0x80 + k) % 256 = b.toNat)]
        simp
    · rw [show derLenField (b :: rest) = none by
        simp only [derLenField, Asn1.lenField, if_neg hb,
          if_neg (show ¬(0x81 ≤ b.toNat ∧ b.toNat ≤ 0x84 ∧ b.toNat - 0x80 ≤ rest.length) by omega)]
        rfl] at h
      cases h

/-- The strict reader accepts exactly the fields `output_len` writes, for lengths
below `2^32`, and reads back the length and the field's size. -/
theorem derLenField_eq_some_iff {xs : List UInt8} {n len : Nat} :
    derLenField xs = some (n, len) ↔
      len < 2 ^ 32 ∧ n + 1 = lenOfTagAndLen len ∧ ∃ rest, xs = outputLen len ++ rest := by
  constructor
  · intro h
    obtain ⟨hlen, hn, hxs⟩ := outputLen_of_derLenField h
    exact ⟨hlen, hn, _, hxs⟩
  · rintro ⟨hlen, hn, rest, rfl⟩
    rw [derLenField_outputLen hlen]
    congr
    omega

theorem getAsnLength32_outputLen {m : Mem} {pp len : Nat} {rest : List UInt8}
    (hm : Holds m pp (outputLen len ++ rest)) (hlen : len < 2 ^ 32) (hrest : len ≤ rest.length) :
    Asn1.getAsnLength32 m pp (outputLen len ++ rest).length false =
      some ⟨.psSuccess, pp + (lenOfTagAndLen len - 1), len⟩ := by
  have hout := outputLen_length len
  rw [Asn1.getAsnLength32_eq_lengthOutcome hm]
  simp only [Asn1.lengthOutcome, lenField_outputLen hlen, List.length_append]
  rw [if_pos (by omega)]

end MatrixSsl
