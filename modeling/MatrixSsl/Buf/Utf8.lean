import MatrixSsl.Buf.Nest

/-!
# UTF-8 appended to a dynamic buffer

`psDynBufAppendUtf8` writes a code point up to `0x1FFFF` in one to four bytes
with shifts and masks (`utf8Bytes`). Read as arithmetic (`utf8Bytes_two` to
`utf8Bytes_four`), the bytes are those of UTF-8. The reader here follows the
syntax of RFC 3629 §4 (`utf8Char`, `utf8Decode`): it admits no overlong form
and no surrogate. A string of scalar values appended one code point after
another reads back as that string (`appendUtf8_string_reads_back`); a
surrogate, which the code does not refuse, is written as three bytes the
syntax derives no character from.
-/

namespace MatrixSsl

theorem or_eq_add {c x k : Nat} (hc : 2 ^ k ∣ c) (hx : x < 2 ^ k) : c ||| x = c + x := by
  obtain ⟨a, rfl⟩ := hc
  exact (Nat.mul_add_lt_is_or hx a).symm

theorem cont_byte (n : Nat) : 0x80 ||| n &&& 63 = 0x80 + n % 64 := by
  rw [show (63 : Nat) = 2 ^ 6 - 1 from rfl, Nat.and_pow_two_sub_one_eq_mod]
  exact @or_eq_add _ _ 6 ⟨2, rfl⟩ (Nat.mod_lt _ (by norm_num))

theorem utf8Bytes_one {ch : Nat} (h : ch < 128) : utf8Bytes ch = [ch.toUInt8] := if_pos h

theorem utf8Bytes_two {ch : Nat} (h1 : 128 ≤ ch) (h2 : ch ≤ 0x7FF) :
    utf8Bytes ch = [(0xC0 + ch / 2 ^ 6).toUInt8, (0x80 + ch % 64).toUInt8] := by
  have hhi : 0xC0 ||| ch / 2 ^ 6 = 0xC0 + ch / 2 ^ 6 := @or_eq_add _ _ 6 ⟨3, rfl⟩ (by omega)
  simp only [utf8Bytes, if_neg (show ¬ ch < 128 by omega), if_pos h2, Nat.shiftRight_eq_div_pow, hhi,
    cont_byte]

theorem utf8Bytes_three {ch : Nat} (h1 : 0x7FF < ch) (h2 : ch ≤ 0xFFFF) :
    utf8Bytes ch = [(0xE0 + ch / 2 ^ 12).toUInt8, (0x80 + ch / 2 ^ 6 % 64).toUInt8, (0x80 + ch % 64).toUInt8] := by
  have hhi : 0xE0 ||| ch / 2 ^ 12 = 0xE0 + ch / 2 ^ 12 := @or_eq_add _ _ 4 ⟨14, rfl⟩ (by omega)
  simp only [utf8Bytes, if_neg (show ¬ ch < 128 by omega), if_neg (show ¬ ch ≤ 0x7FF by omega), if_pos h2,
    Nat.shiftRight_eq_div_pow, hhi, cont_byte]

theorem utf8Bytes_four {ch : Nat} (h1 : 0xFFFF < ch) (h2 : ch < 2 ^ 21) :
    utf8Bytes ch = [(0xF0 + ch / 2 ^ 18).toUInt8, (0x80 + ch / 2 ^ 12 % 64).toUInt8,
      (0x80 + ch / 2 ^ 6 % 64).toUInt8, (0x80 + ch % 64).toUInt8] := by
  have hhi : 0xF0 ||| ch / 2 ^ 18 = 0xF0 + ch / 2 ^ 18 := @or_eq_add _ _ 3 ⟨30, rfl⟩ (by omega)
  simp only [utf8Bytes, if_neg (show ¬ ch < 128 by omega), if_neg (show ¬ ch ≤ 0x7FF by omega),
    if_neg (show ¬ ch ≤ 0xFFFF by omega), Nat.shiftRight_eq_div_pow, hhi, cont_byte]

/-- RFC 3629 §4: the range the second byte of a character may take after the
first byte `b` (`%xA0-BF` after `E0`, `%x80-9F` after `ED`, `%x90-BF` after
`F0`, `%x80-8F` after `F4`, `UTF8-tail` otherwise). -/
def utf8SecondRange (b : Nat) : Nat × Nat :=
  if b = 0xE0 then (0xA0, 0xBF) else if b = 0xED then (0x80, 0x9F)
  else if b = 0xF0 then (0x90, 0xBF) else if b = 0xF4 then (0x80, 0x8F) else (0x80, 0xBF)

/-- `UTF8-tail = %x80-BF`. -/
def utf8Tail (c : UInt8) : Bool := 0x80 ≤ c.toNat && c.toNat ≤ 0xBF

/-- One character of UTF-8 as RFC 3629 §4 derives it (`UTF8-1` to `UTF8-4`),
its code point, and the bytes after it; `none` where the syntax derives no
character. -/
def utf8Char : List UInt8 → Option (Nat × List UInt8)
  | [] => none
  | b :: rest =>
    let b := b.toNat
    if b ≤ 0x7F then some (b, rest)
    else if 0xC2 ≤ b ∧ b ≤ 0xDF then
      match rest with
      | c :: rest => if utf8Tail c then some ((b - 0xC0) * 64 + (c.toNat - 0x80), rest) else none
      | [] => none
    else if 0xE0 ≤ b ∧ b ≤ 0xEF then
      match rest with
      | c₁ :: c₂ :: rest =>
        if (utf8SecondRange b).1 ≤ c₁.toNat ∧ c₁.toNat ≤ (utf8SecondRange b).2 ∧ utf8Tail c₂ then
          some ((b - 0xE0) * 4096 + (c₁.toNat - 0x80) * 64 + (c₂.toNat - 0x80), rest)
        else none
      | _ => none
    else if 0xF0 ≤ b ∧ b ≤ 0xF4 then
      match rest with
      | c₁ :: c₂ :: c₃ :: rest =>
        if (utf8SecondRange b).1 ≤ c₁.toNat ∧ c₁.toNat ≤ (utf8SecondRange b).2 ∧ utf8Tail c₂ ∧ utf8Tail c₃ then
          some ((b - 0xF0) * 2 ^ 18 + (c₁.toNat - 0x80) * 4096 + (c₂.toNat - 0x80) * 64 + (c₃.toNat - 0x80), rest)
        else none
      | _ => none
    else none

/-- Reading characters one after another, at most `n` of them. -/
def utf8DecodeN : Nat → List UInt8 → Option (List Nat)
  | _, [] => some []
  | 0, _ :: _ => none
  | n + 1, b :: bs => do
    let (v, rest) ← utf8Char (b :: bs)
    let vs ← utf8DecodeN n rest
    some (v :: vs)

/-- `UTF8-octets`: the code points of a UTF-8 byte string. -/
def utf8Decode (bs : List UInt8) : Option (List Nat) := utf8DecodeN bs.length bs

theorem utf8Tail_cont (n : Nat) : utf8Tail (0x80 + n % 64).toUInt8 = true := by
  simp only [utf8Tail, toUInt8_toNat, Bool.and_eq_true, decide_eq_true_eq]
  omega

theorem toUInt8_toNat_of_lt {n : Nat} (h : n < 256) : n.toUInt8.toNat = n := by
  rw [toUInt8_toNat, Nat.mod_eq_of_lt h]

theorem utf8SecondRange_three {ch : Nat} (h2 : 0x7FF < ch) (h3 : ch ≤ 0xFFFF) (hs : ¬ (0xD800 ≤ ch ∧ ch ≤ 0xDFFF)) :
    (utf8SecondRange (0xE0 + ch / 2 ^ 12)).1 ≤ 0x80 + ch / 2 ^ 6 % 64 ∧
      0x80 + ch / 2 ^ 6 % 64 ≤ (utf8SecondRange (0xE0 + ch / 2 ^ 12)).2 := by
  unfold utf8SecondRange
  split_ifs <;> simp only <;> omega

/-- A code point's bytes, read back by the RFC 3629 syntax: the code point,
whenever it is at most `0x1FFFF` and no surrogate. -/
theorem utf8Char_utf8Bytes {ch : Nat} (hch : ch ≤ 0x1FFFF) (hs : ¬ (0xD800 ≤ ch ∧ ch ≤ 0xDFFF))
    (rest : List UInt8) : utf8Char (utf8Bytes ch ++ rest) = some (ch, rest) := by
  rcases Nat.lt_or_ge ch 128 with h1 | h1
  · simp [utf8Bytes_one h1, utf8Char, toUInt8_toNat_of_lt (show ch < 256 by omega), show ch ≤ 0x7F by omega]
  rcases Nat.lt_or_ge 0x7FF ch with h2 | h2
  · rcases Nat.lt_or_ge 0xFFFF ch with h3 | h3
    · rw [utf8Bytes_four h3 (by omega), show ch / 2 ^ 18 = 0 by omega, Nat.add_zero]
      simp only [List.cons_append, List.nil_append, utf8Char, utf8Tail_cont,
        toUInt8_toNat_of_lt (show 0xF0 < 256 by omega), show utf8SecondRange 0xF0 = (0x90, 0xBF) from rfl,
        toUInt8_toNat_of_lt (show 0x80 + ch / 2 ^ 12 % 64 < 256 by omega),
        toUInt8_toNat_of_lt (show 0x80 + ch / 2 ^ 6 % 64 < 256 by omega),
        toUInt8_toNat_of_lt (show 0x80 + ch % 64 < 256 by omega)]
      rw [if_neg (by omega), if_neg (by omega), if_neg (by omega), if_pos (by omega),
        if_pos ⟨by omega, by omega, trivial, trivial⟩]
      simp only [Option.some.injEq, Prod.mk.injEq, and_true]
      omega
    · rw [utf8Bytes_three h2 h3]
      simp only [List.cons_append, List.nil_append, utf8Char, utf8Tail_cont,
        toUInt8_toNat_of_lt (show 0xE0 + ch / 2 ^ 12 < 256 by omega),
        toUInt8_toNat_of_lt (show 0x80 + ch / 2 ^ 6 % 64 < 256 by omega),
        toUInt8_toNat_of_lt (show 0x80 + ch % 64 < 256 by omega)]
      rw [if_neg (by omega), if_neg (by omega), if_pos (by omega),
        if_pos ⟨(utf8SecondRange_three h2 h3 hs).1, (utf8SecondRange_three h2 h3 hs).2, trivial⟩]
      simp only [Option.some.injEq, Prod.mk.injEq, and_true]
      omega
  · rw [utf8Bytes_two h1 h2]
    simp only [List.cons_append, List.nil_append, utf8Char, utf8Tail_cont,
      toUInt8_toNat_of_lt (show 0xC0 + ch / 2 ^ 6 < 256 by omega),
      toUInt8_toNat_of_lt (show 0x80 + ch % 64 < 256 by omega)]
    rw [if_neg (by omega), if_pos (by omega)]
    simp only [if_true, Option.some.injEq, Prod.mk.injEq, and_true]
    omega

theorem utf8Char_surrogate {ch : Nat} (h : 0xD800 ≤ ch ∧ ch ≤ 0xDFFF) (rest : List UInt8) :
    utf8Char (utf8Bytes ch ++ rest) = none := by
  rw [utf8Bytes_three (by omega) (by omega), show ch / 2 ^ 12 = 13 by omega]
  simp only [List.cons_append, List.nil_append, utf8Char, toUInt8_toNat_of_lt (show 0xE0 + 13 < 256 by omega),
    show utf8SecondRange (0xE0 + 13) = (0x80, 0x9F) from rfl,
    toUInt8_toNat_of_lt (show 0x80 + ch / 2 ^ 6 % 64 < 256 by omega)]
  rw [if_neg (by omega), if_neg (by omega), if_pos (by omega), if_neg fun h' => by omega]

theorem utf8Bytes_ne_nil (ch : Nat) : utf8Bytes ch ≠ [] := by
  unfold utf8Bytes
  split_ifs <;> simp

theorem length_le_flatMap_utf8Bytes (cs : List Nat) : cs.length ≤ (cs.flatMap utf8Bytes).length := by
  induction cs with
  | nil => simp
  | cons c cs ih =>
    have := List.length_pos.2 (utf8Bytes_ne_nil c)
    simp only [List.flatMap_cons, List.length_append, List.length_cons]
    omega

/-- A code point of `UTF8-octets`, as `psDynBufAppendUtf8` accepts it and RFC
3629 reads it back: at most `0x1FFFF` and no surrogate. -/
def Utf8Scalar (c : Nat) : Prop := c ≤ 0x1FFFF ∧ ¬ (0xD800 ≤ c ∧ c ≤ 0xDFFF)

theorem utf8DecodeN_flatMap :
    ∀ (cs : List Nat) (n : Nat), (∀ c ∈ cs, Utf8Scalar c) → cs.length ≤ n →
      utf8DecodeN n (cs.flatMap utf8Bytes) = some cs
  | [], n, _, _ => by cases n <;> rfl
  | c :: cs, n + 1, hcs, hn => by
    obtain ⟨hc, hs⟩ := hcs c (List.mem_cons_self _ _)
    obtain ⟨b, bs, hb⟩ := List.exists_cons_of_ne_nil
      (List.append_ne_nil_of_left_ne_nil (utf8Bytes_ne_nil c) (cs.flatMap utf8Bytes))
    have hchar := utf8Char_utf8Bytes hc hs (cs.flatMap utf8Bytes)
    rw [hb] at hchar
    rw [List.flatMap_cons, hb, utf8DecodeN, hchar, Option.bind_eq_bind, Option.some_bind]
    dsimp only
    rw [utf8DecodeN_flatMap cs n (fun c' h' => hcs c' (List.mem_cons_of_mem _ h')) (by simp at hn; omega)]
    rfl

theorem utf8Decode_flatMap {cs : List Nat} (hcs : ∀ c ∈ cs, Utf8Scalar c) :
    utf8Decode (cs.flatMap utf8Bytes) = some cs :=
  utf8DecodeN_flatMap cs _ hcs (length_le_flatMap_utf8Bytes cs)

/-- Appending the code points of a string one after another, the allocator
succeeding. -/
def utf8Ops (cs : List Nat) : List (DynOp × Bool) := cs.map fun c => (.appendUtf8 c, true)

/-- The room the root may have to grow by while a string is appended. -/
def utf8Cost (grow : Nat) (cs : List Nat) : Nat := (cs.map fun c => growReq grow 0 (utf8Bytes c).length).sum

theorem int_mod_toNat {c : Nat} (h : c ≤ 0x1FFFF) : ((c : Int) % 2 ^ 32).toNat = c := by
  rw [Int.emod_eq_of_lt (by omega) (by omega)]
  rfl

section Append

variable {grow : Nat}

theorem utf8Ops_runOk :
    ∀ (cs : List Nat) {s : DynState}, ChainInv s → (∀ c ∈ cs, c ≤ 0x1FFFF) → rootSize s + utf8Cost grow cs < 2 ^ 64 →
      ∃ s', DynRunOk grow (SizeNoWrap grow) s (utf8Ops cs) s' ∧ EditsTop s (utf8Cost grow cs) (· ++ cs.flatMap utf8Bytes) s'
  | [], s, hi, _, _ => ⟨s, .nil s, ⟨hi, (List.append_nil _).symm, rfl, Nat.le_add_right _ _⟩⟩
  | c :: cs, s, hi, hcs, hw => by
    have hc := int_mod_toNat (hcs c (List.mem_cons_self _ _))
    have hw₁ : rootSize s + growReq grow 0 (utf8Bytes ((c : Int) % 2 ^ 32).toNat).length < 2 ^ 64 := by
      rw [hc]; simp only [utf8Cost, List.map_cons, List.sum_cons] at hw; omega
    obtain ⟨loc, s₁, he, hok, hok'⟩ := @psDynBufAppendUtf8_spec grow true s c hi hw₁
    have hloc := hok' rfl (by rw [hc]; exact hcs c (List.mem_cons_self _ _))
    have e₁ := hok hloc
    rw [hc] at e₁
    obtain ⟨s', hrun, e₂⟩ := utf8Ops_runOk cs e₁.inv (fun c' h' => hcs c' (List.mem_cons_of_mem _ h'))
      (by have := e₁.root; simp only [utf8Cost, List.map_cons, List.sum_cons] at hw ⊢; omega)
    have e := e₁.trans e₂
    refine ⟨s', .cons hw₁ he hloc hrun, ⟨e.inv, ?_, e.frames_eq, ?_⟩⟩
    · rw [e.content_eq]
      simp [List.append_assoc]
    · have := e.root
      simp only [utf8Cost, List.map_cons, List.sum_cons] at this ⊢
      omega

/-- On every chain without error, the allocator succeeding and the root's size
leaving room for the growth: appending any string of Unicode scalar values up
to `0x1FFFF` with `psDynBufAppendUtf8` succeeds at every step, keeps the
invariant and every frame, and appends to the innermost buffer bytes that UTF-8
(RFC 3629) reads back as exactly that string. A surrogate, which is no scalar
value, is appended all the same, as three bytes that no UTF-8 character starts
with. -/
theorem appendUtf8_string_reads_back {s : DynState} (hi : ChainInv s) :
    (∀ cs : List Nat, (∀ c ∈ cs, Utf8Scalar c) → rootSize s + utf8Cost grow cs < 2 ^ 64 →
      ∃ s', dynRun grow s (utf8Ops cs) = some s' ∧ ChainInv s' ∧
        frames s'.heap s'.top s'.masters = frames s.heap s.top s.masters ∧
        ∃ enc, content s'.heap s'.top.buf = content s.heap s.top.buf ++ enc ∧ utf8Decode enc = some cs) ∧
    (∀ c : Nat, 0xD800 ≤ c ∧ c ≤ 0xDFFF → rootSize s + growReq grow 0 3 < 2 ^ 64 →
      ∃ loc s', psDynBufAppendUtf8 grow true s c = some (loc, s') ∧ loc ≠ 0 ∧
        content s'.heap s'.top.buf = content s.heap s.top.buf ++ utf8Bytes c ∧
        ∀ rest, utf8Char (utf8Bytes c ++ rest) = none) := by
  refine ⟨fun cs hcs hw => ?_, fun c hc hw => ?_⟩
  · obtain ⟨s', hrun, e⟩ := utf8Ops_runOk cs hi (fun c h => (hcs c h).1) hw
    exact ⟨s', hrun.dynRun_eq, e.inv, e.frames_eq, _, e.content_eq, utf8Decode_flatMap hcs⟩
  · have hmod := int_mod_toNat (show c ≤ 0x1FFFF by omega)
    have hlen : (utf8Bytes c).length = 3 := by rw [utf8Bytes_three (by omega) (by omega)]; rfl
    obtain ⟨loc, s', he, hok, hok'⟩ :=
      @psDynBufAppendUtf8_spec grow true s c hi (by rw [hmod, hlen]; exact hw)
    have hloc := hok' rfl (by rw [hmod]; omega)
    have e := hok hloc
    rw [hmod] at e
    exact ⟨loc, s', he, hloc, e.content_eq, utf8Char_surrogate hc⟩

theorem appendUtf8_string_reads_back_root :
    let s := (psDynBufInit true ⟨fun _ => 0, 1, Nat.one_pos⟩ 7 8).2
    (∀ cs : List Nat, (∀ c ∈ cs, Utf8Scalar c) → rootSize s + utf8Cost 8 cs < 2 ^ 64 →
      ∃ s', dynRun 8 s (utf8Ops cs) = some s' ∧ ChainInv s' ∧
        frames s'.heap s'.top s'.masters = frames s.heap s.top s.masters ∧
        ∃ enc, content s'.heap s'.top.buf = content s.heap s.top.buf ++ enc ∧ utf8Decode enc = some cs) ∧
    (∀ c : Nat, 0xD800 ≤ c ∧ c ≤ 0xDFFF → rootSize s + growReq 8 0 3 < 2 ^ 64 →
      ∃ loc s', psDynBufAppendUtf8 8 true s c = some (loc, s') ∧ loc ≠ 0 ∧
        content s'.heap s'.top.buf = content s.heap s.top.buf ++ utf8Bytes c ∧
        ∀ rest, utf8Char (utf8Bytes c ++ rest) = none) :=
  appendUtf8_string_reads_back (psDynBufInit_inv _ 7 8).1

end Append

end MatrixSsl
