import MatrixSsl.Basic

/-!
# DER length fields: `getAsnLength32` and `getAsnLength`

`getAsnLength32` reads a BER definite length field (short form, or `0x81` to
`0x84` followed by one to four big-endian bytes) and, unless `indefinite` is
set, checks that the content fits in what is left of `size`. `lenField` states
the accepted field as the spec describes it; `getAsnLength32_eq_lengthOutcome`
shows that the decoder computes exactly `lengthOutcome`, reading nothing
outside the `size` bytes it is given.
-/

namespace MatrixSsl.Asn1

/-- The values `getAsnLength32` leaves in its return value, `*pp` and `*len`. -/
structure LenOut where
  rc : Rc
  pp : Nat
  len : Nat
  deriving DecidableEq, Repr

/-- The tail of `getAsnLength32` that every definite form reaches, with `c` past
the length field and `e` the end of the input: unless `indefinite` is set, the
`l` content bytes must fit before `e`. -/
def lengthTail (indefinite : Bool) (pp e c l : Nat) : LenOut :=
  if !indefinite && e - c < l then ⟨.psLimitFail, pp, 0⟩ else ⟨.psSuccess, c, l⟩

def getAsnLength32 (m : Mem) (pp size : Nat) (indefinite : Bool) : Option LenOut :=
  let e := pp + size
  let fail : LenOut := ⟨.psLimitFail, pp, 0⟩
  let done := lengthTail indefinite pp e
  if size < 1 then some fail else do
  let b ← m pp
  let l := b.toNat &&& 0x7F
  if b.toNat &&& 0x80 ≠ 0 then
    let c := pp + 1
    if e - c < l then some fail else
    match l with
    | 4 => do
      let b0 ← m c
      let b1 ← m (c + 1)
      let b2 ← m (c + 2)
      let b3 ← m (c + 3)
      pure (done (c + 4) (b0.toNat <<< 24 ||| b1.toNat <<< 16 ||| b2.toNat <<< 8 ||| b3.toNat))
    | 3 => do
      let b0 ← m c
      let b1 ← m (c + 1)
      let b2 ← m (c + 2)
      pure (done (c + 3) (b0.toNat <<< 16 ||| b1.toNat <<< 8 ||| b2.toNat))
    | 2 => do
      let b0 ← m c
      let b1 ← m (c + 1)
      pure (done (c + 2) (b0.toNat <<< 8 ||| b1.toNat))
    | 1 => do
      let b0 ← m c
      pure (done (c + 1) b0.toNat)
    | 0 => some (if indefinite then ⟨.asnUnknownLen, c, size - 1⟩ else fail)
    | _ => some fail
  else pure (done (pp + 1) l)

/-- The 16-bit wrapper; `len` is the caller's `*len`, left alone on failure. -/
def getAsnLength (m : Mem) (pp size len : Nat) : Option LenOut := do
  let r ← getAsnLength32 m pp size false
  pure (if r.rc.neg then ⟨r.rc, r.pp, len⟩ else ⟨.psSuccess, r.pp, r.len &&& 0xFFFF⟩)

/-- The definite length field at the head of `bs` as the spec describes it, with
its size in bytes: a byte below `0x80` is the length, and `0x81` to `0x84` is
followed by one to four big-endian length bytes. -/
def lenField : List UInt8 → Option (Nat × Nat)
  | [] => none
  | b :: rest =>
    if b.toNat < 0x80 then some (1, b.toNat)
    else if 0x81 ≤ b.toNat ∧ b.toNat ≤ 0x84 ∧ b.toNat - 0x80 ≤ rest.length then
      some (b.toNat - 0x80 + 1, beNat (rest.take (b.toNat - 0x80)))
    else none

/-- What `getAsnLength32` (with `indefinite` clear) yields on the bytes `bs`. -/
def lengthOutcome (pp : Nat) (bs : List UInt8) : LenOut :=
  match lenField bs with
  | some (h, l) => if h + l ≤ bs.length then ⟨.psSuccess, pp + h, l⟩ else ⟨.psLimitFail, pp, 0⟩
  | none => ⟨.psLimitFail, pp, 0⟩

set_option maxRecDepth 4000 in
theorem byte_and_0x80 : ∀ n, n < 256 → (n &&& 0x80 ≠ 0 ↔ 128 ≤ n) := by decide

theorem byte_and_0x7F (n : Nat) : n &&& 0x7F = n % 128 :=
  Nat.and_pow_two_sub_one_eq_mod n 7

theorem shiftLeft_or (a b k : Nat) : (a ||| b) <<< k = a <<< k ||| b <<< k := by
  apply Nat.eq_of_testBit_eq
  intro i
  simp only [Nat.testBit_shiftLeft, Nat.testBit_or, Bool.and_or_distrib_left]

theorem shift_or_step (acc b k : Nat) (hb : b < 256) :
    acc <<< (k + 8) ||| b <<< k = (acc * 256 + b) <<< k := by
  rw [Nat.mul_comm, show (256 : Nat) = 2 ^ 8 from rfl, Nat.mul_add_lt_is_or hb, shiftLeft_or,
    Nat.shiftLeft_eq acc, Nat.shiftLeft_eq (2 ^ 8 * acc), Nat.pow_add]
  congr 1
  ac_rfl

theorem beNat_two (b0 b1 : UInt8) : b0.toNat <<< 8 ||| b1.toNat = beNat [b0, b1] := by
  simpa [beNat] using shift_or_step b0.toNat b1.toNat 0 b1.toNat_lt_size

theorem beNat_three (b0 b1 b2 : UInt8) :
    b0.toNat <<< 16 ||| b1.toNat <<< 8 ||| b2.toNat = beNat [b0, b1, b2] := by
  rw [shift_or_step _ _ 8 b1.toNat_lt_size]
  simpa [beNat] using shift_or_step (b0.toNat * 256 + b1.toNat) b2.toNat 0 b2.toNat_lt_size

theorem beNat_four (b0 b1 b2 b3 : UInt8) :
    b0.toNat <<< 24 ||| b1.toNat <<< 16 ||| b2.toNat <<< 8 ||| b3.toNat =
      beNat [b0, b1, b2, b3] := by
  rw [shift_or_step _ _ 16 b1.toNat_lt_size, shift_or_step _ _ 8 b2.toNat_lt_size]
  simpa [beNat] using
    shift_or_step ((b0.toNat * 256 + b1.toNat) * 256 + b2.toNat) b3.toNat 0 b3.toNat_lt_size

theorem lenField_long {b : UInt8} {rest : List UInt8} (hb : 128 ≤ b.toNat) :
    lenField (b :: rest) =
      if 1 ≤ b.toNat % 128 ∧ b.toNat % 128 ≤ 4 ∧ b.toNat % 128 ≤ rest.length then
        some (b.toNat % 128 + 1, beNat (rest.take (b.toNat % 128)))
      else none := by
  have hb256 : b.toNat < 256 := b.toNat_lt_size
  have hk : b.toNat % 128 = b.toNat - 0x80 := by omega
  simp only [lenField, hk, if_neg (show ¬ b.toNat < 0x80 by omega)]
  congr 1
  apply propext
  omega

theorem lengthTail_false (pp e c l : Nat) :
    lengthTail false pp e c l = if l ≤ e - c then ⟨.psSuccess, c, l⟩ else ⟨.psLimitFail, pp, 0⟩ := by
  by_cases h : l ≤ e - c <;> simp [lengthTail, h]

theorem getAsnLength32_long {m : Mem} {pp k : Nat} {b : UInt8} {rest : List UInt8}
    (hb : m pp = some b) (hlong : 128 ≤ b.toNat) (hk : b.toNat % 128 = k) (hk1 : 1 ≤ k)
    (hk4 : k ≤ 4) (hrest : Holds m (pp + 1) rest) (hkr : k ≤ rest.length) :
    getAsnLength32 m pp (rest.length + 1) false =
      some (lengthTail false pp (pp + (rest.length + 1)) (pp + 1 + k) (beNat (rest.take k))) := by
  have hand : b.toNat &&& 0x80 ≠ 0 := (byte_and_0x80 _ b.toNat_lt_size).2 hlong
  have he : pp + (rest.length + 1) - (pp + 1) = rest.length := by omega
  simp only [getAsnLength32, hb, byte_and_0x7F, hk, Option.bind_eq_bind, Option.some_bind,
    if_pos hand, if_neg (show ¬ rest.length + 1 < 1 by omega), he, if_neg (Nat.not_lt.2 hkr)]
  obtain rfl | rfl | rfl | rfl : k = 1 ∨ k = 2 ∨ k = 3 ∨ k = 4 := by omega
  all_goals
    rcases rest with _ | ⟨r0, _ | ⟨r1, _ | ⟨r2, _ | ⟨r3, tl⟩⟩⟩⟩ <;>
      simp only [List.length_cons, List.length_nil] at hkr <;> try omega
  all_goals
    simp only [holds_cons, Nat.add_assoc, Nat.reduceAdd] at hrest ⊢
    simp [hrest, beNat_two, beNat_three, beNat_four, beNat]
/-- `getAsnLength32` without `indefinite` computes `lengthOutcome` from the bytes it is
given alone. -/
theorem getAsnLength32_eq_lengthOutcome {m : Mem} {pp : Nat} {bs : List UInt8}
    (hm : Holds m pp bs) : getAsnLength32 m pp bs.length false = some (lengthOutcome pp bs) := by
  cases bs with
  | nil => simp [getAsnLength32, lengthOutcome, lenField]
  | cons b rest =>
    obtain ⟨hb, hrest⟩ := holds_cons.1 hm
    have hb256 : b.toNat < 256 := b.toNat_lt_size
    by_cases hlong : 128 ≤ b.toNat
    · simp only [lengthOutcome, lenField_long hlong, List.length_cons]
      by_cases hok : 1 ≤ b.toNat % 128 ∧ b.toNat % 128 ≤ 4 ∧ b.toNat % 128 ≤ rest.length
      · have he : pp + (rest.length + 1) - (pp + 1 + b.toNat % 128) =
            rest.length - b.toNat % 128 := by omega
        rw [getAsnLength32_long hb hlong rfl hok.1 hok.2.1 hrest hok.2.2, if_pos hok,
          lengthTail_false, he]
        congr 1
        dsimp only
        split_ifs <;> first | rfl | omega | (simp; omega)
      · have hand : b.toNat &&& 0x80 ≠ 0 := (byte_and_0x80 _ hb256).2 hlong
        simp only [getAsnLength32, hb, byte_and_0x7F, Option.bind_eq_bind, Option.some_bind,
          if_pos hand, if_neg (show ¬ rest.length + 1 < 1 by omega), if_neg hok]
        split
        · rfl
        · split <;> first | rfl | omega
    · have hand : ¬ b.toNat &&& 0x80 ≠ 0 := fun h => hlong ((byte_and_0x80 _ hb256).1 h)
      simp only [getAsnLength32, hb, byte_and_0x7F, Option.bind_eq_bind, Option.some_bind,
        if_neg hand, if_neg (show ¬ rest.length + 1 < 1 by omega), lengthOutcome, lenField,
        if_pos (show b.toNat < 0x80 by omega), lengthTail_false, List.length_cons]
      congr 1
      split_ifs <;> first | rfl | omega | (simp; omega)

end MatrixSsl.Asn1
