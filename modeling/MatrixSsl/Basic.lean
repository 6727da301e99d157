import Mathlib

/-!
# Status codes, read-only memory and big-endian values

The decoders of `asn1.c` and the parse buffers of `psbuf.c` read bytes through
raw pointers. A `Mem` gives the byte at every address where input lies and
`none` elsewhere, so that a read outside the input is visible: a decoder that
makes one has no result (`none`), where the C code has undefined behaviour.
`Holds m a bs` says that `m` holds the bytes `bs` from address `a` on, whatever
lies around them.
-/

namespace MatrixSsl

/-- Modelled from the spec: the status codes are defined in a header that is not
part of the repository; the spec lists success, the failure codes and the
output-length probe, and `ASN_UNKNOWN_LEN` is the accepted indefinite form. -/
inductive Rc where
  | psSuccess
  | psFailure
  | psArgFail
  | psMemFail
  | psLimitFail
  | psParseFail
  | psOutputLength
  | asnUnknownLen
  deriving DecidableEq, Repr

/-- The C test `rc < 0`: exactly the failure codes are negative. -/
def Rc.neg : Rc → Bool
  | .psSuccess | .asnUnknownLen => false
  | _ => true

/-- Modelled from the spec: the tag constants live in a header that is not part of
the repository; they are the universal ASN.1 tags and the constructed bit. -/
def asnInteger : UInt8 := 0x02
def asnNull : UInt8 := 0x05
def asnOid : UInt8 := 0x06
def asnEnumerated : UInt8 := 0x0A
def asnSequence : UInt8 := 0x10
def asnSet : UInt8 := 0x11
def asnConstructed : UInt8 := 0x20

/-- `psBuf_t`: the region `[buf, buf + size)` and the cursors `start` and `end`
into it, over pointers of type `P`. -/
structure PsBuf (P : Type) where
  buf : P
  start : P
  «end» : P
  size : Nat
  deriving DecidableEq, Repr

abbrev Mem := Nat → Option UInt8

/-- Memory holding exactly `bs` from address `0`, and nothing else. -/
def Mem.ofList (bs : List UInt8) : Mem := fun a => bs[a]?

def Holds (m : Mem) (a : Nat) (bs : List UInt8) : Prop :=
  ∀ i, i < bs.length → m (a + i) = bs[i]?

theorem holds_ofList (bs : List UInt8) : Holds (Mem.ofList bs) 0 bs := by
  intro i _
  simp [Mem.ofList]

@[simp] theorem holds_nil (m : Mem) (a : Nat) : Holds m a [] := by
  intro i hi
  simp at hi

theorem holds_cons {m : Mem} {a : Nat} {b : UInt8} {bs : List UInt8} :
    Holds m a (b :: bs) ↔ m a = some b ∧ Holds m (a + 1) bs := by
  constructor
  · intro h
    refine ⟨by simpa using h 0 (by simp), fun i hi => ?_⟩
    simpa [Nat.add_assoc, Nat.add_comm 1 i] using h (i + 1) (by simp; omega)
  · rintro ⟨h0, h⟩ i hi
    cases i with
    | zero => simpa using h0
    | succ i =>
      simpa [Nat.add_assoc, Nat.add_comm 1 i] using h i (by simp at hi; omega)

theorem holds_append {m : Mem} {a : Nat} {xs ys : List UInt8} :
    Holds m a (xs ++ ys) ↔ Holds m a xs ∧ Holds m (a + xs.length) ys := by
  induction xs generalizing a with
  | nil => simp
  | cons x xs ih =>
    simp only [List.cons_append, holds_cons, ih, List.length_cons, and_assoc]
    rw [Nat.add_assoc, Nat.add_comm 1]

theorem Holds.read {m : Mem} {a : Nat} {bs : List UInt8} (h : Holds m a bs) {i : Nat}
    (hi : i < bs.length) : m (a + i) = some (bs.get ⟨i, hi⟩) := by
  rw [h i hi, List.getElem?_eq_getElem hi]
  rfl

theorem Holds.drop {m : Mem} {a : Nat} {bs : List UInt8} (h : Holds m a bs) (k : Nat) :
    Holds m (a + k) (bs.drop k) := by
  intro i hi
  rw [List.getElem?_drop, Nat.add_assoc]
  exact h (k + i) (by simp at hi; omega)

theorem Holds.take {m : Mem} {a : Nat} {bs : List UInt8} (h : Holds m a bs) (k : Nat) :
    Holds m a (bs.take k) :=
  (holds_append.1 ((List.take_append_drop k bs).symm ▸ h)).1

theorem Holds.window {m : Mem} {a : Nat} {bs : List UInt8} (h : Holds m a bs) {s n : Nat}
    (hs : a ≤ s) (hn : s + n ≤ a + bs.length) :
    Holds m s ((bs.drop (s - a)).take n) ∧ ((bs.drop (s - a)).take n).length = n := by
  refine ⟨?_, by simp; omega⟩
  have := (h.drop (s - a)).take n
  rwa [Nat.add_sub_cancel' hs] at this

/-- The reads of a `memcmp`: `n` bytes from `a`. -/
def readBytes (m : Mem) : Nat → Nat → Option (List UInt8)
  | 0, _ => some []
  | n + 1, a => do
    let b ← m a
    let bs ← readBytes m n (a + 1)
    pure (b :: bs)

theorem readBytes_eq {m : Mem} {a : Nat} {bs : List UInt8} (hm : Holds m a bs) :
    readBytes m bs.length a = some bs := by
  induction bs generalizing a with
  | nil => rfl
  | cons b bs ih =>
    obtain ⟨hb, hbs⟩ := holds_cons.1 hm
    simp [readBytes, hb, ih hbs]

/-- Big-endian value of a byte string. -/
def beNat (bs : List UInt8) : Nat := bs.foldl (fun acc b => acc * 256 + b.toNat) 0

theorem beNat_append_single (bs : List UInt8) (b : UInt8) :
    beNat (bs ++ [b]) = beNat bs * 256 + b.toNat := by
  simp [beNat, List.foldl_append]

theorem beNat_lt (bs : List UInt8) : beNat bs < 256 ^ bs.length := by
  induction bs using List.reverseRecOn with
  | nil => simp [beNat]
  | append_singleton bs b ih =>
    have hb : b.toNat < 256 := b.toNat_lt_size
    rw [beNat_append_single, List.length_append, List.length_singleton, Nat.pow_succ]
    calc beNat bs * 256 + b.toNat < (beNat bs + 1) * 256 := by omega
      _ ≤ 256 ^ bs.length * 256 := Nat.mul_le_mul_right _ ih

@[simp] theorem uint8_size_eq : UInt8.size = 256 := rfl

@[simp] theorem toUInt8_toNat (x : Nat) : x.toUInt8.toNat = x % 256 := rfl

theorem uint8_eq_iff_toNat (a b : UInt8) : a = b ↔ a.toNat = b.toNat :=
  ⟨congrArg _, fun h => UInt8.eq_of_val_eq (Fin.ext h)⟩

end MatrixSsl
