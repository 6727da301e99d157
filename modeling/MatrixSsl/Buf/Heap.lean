import MatrixSsl.Basic

/-!
# Writable memory

The dynamic buffers of `psbuf.c` write through raw pointers into blocks from
`psMalloc`. A `Heap` gives the byte at every address and the address where the
allocator places its next block: blocks are handed out one after another, so a
new block never overlaps an earlier one, and `psFree` has nothing to undo.
Pointers are addresses, with `NULL` as `0`; no block starts there.

`Heap.read h a n` is the list of bytes at `[a, a + n)` and `Heap.write` stores
a list. `memset`, `memcpy` and `memmove` are writes of the bytes they copy, all
read before any is stored, as `memmove` promises for overlapping ranges (the
`memcpy` calls of `psbuf.c` never overlap). Every fact about a read after a
write goes through `read_congr`: the two reads agree byte by byte.
-/

namespace MatrixSsl

structure Heap where
  mem : Nat → UInt8
  next : Nat
  next_pos : 0 < next

namespace Heap

def read (h : Heap) (a : Nat) : Nat → List UInt8
  | 0 => []
  | n + 1 => h.mem a :: h.read (a + 1) n

def write (h : Heap) (a : Nat) (bs : List UInt8) : Heap :=
  { h with mem := fun x => if a ≤ x ∧ x < a + bs.length then bs.getD (x - a) 0 else h.mem x }

def memset (h : Heap) (a : Nat) (c : UInt8) (n : Nat) : Heap := h.write a (List.replicate n c)

def memmove (h : Heap) (dst src n : Nat) : Heap := h.write dst (h.read src n)

def memcpy (h : Heap) (dst src n : Nat) : Heap := h.memmove dst src n

/-- `psMalloc`: a block of `n` bytes at `next`, or `NULL` when the allocator
fails, which `ok = false` says. -/
def psMalloc (h : Heap) (ok : Bool) (n : Nat) : Nat × Heap :=
  if ok then (h.next, { h with next := h.next + n, next_pos := by have := h.next_pos; omega })
  else (0, h)

@[simp] theorem read_zero (h : Heap) (a : Nat) : h.read a 0 = [] := rfl

@[simp] theorem read_length (h : Heap) (a n : Nat) : (h.read a n).length = n := by
  induction n generalizing a with
  | zero => rfl
  | succ n ih => simp [read, ih]

theorem getElem_read (h : Heap) (a n i : Nat) (hi : i < (h.read a n).length) :
    (h.read a n)[i] = h.mem (a + i) := by
  induction n generalizing a i with
  | zero => simp at hi
  | succ n ih =>
    cases i with
    | zero => rfl
    | succ i =>
      simp only [read, List.getElem_cons_succ]
      rw [ih, Nat.add_assoc, Nat.add_comm 1 i]

theorem read_congr {h h' : Heap} {a b n : Nat} (hab : ∀ i, i < n → h.mem (a + i) = h'.mem (b + i)) :
    h.read a n = h'.read b n :=
  List.ext_getElem (by simp) fun i hi _ => by
    rw [getElem_read, getElem_read]
    exact hab i (by simpa using hi)

theorem read_add (h : Heap) (a n k : Nat) : h.read a (n + k) = h.read a n ++ h.read (a + n) k := by
  induction n generalizing a with
  | zero => simp [read]
  | succ n ih => rw [Nat.add_right_comm, read, read, ih, Nat.add_assoc, Nat.add_comm 1 n]; rfl

theorem take_read (h : Heap) {a n k : Nat} (hk : k ≤ n) : (h.read a n).take k = h.read a k := by
  rw [show n = k + (n - k) by omega, read_add, List.take_left' (by simp)]

theorem drop_read (h : Heap) {a n k : Nat} (hk : k ≤ n) : (h.read a n).drop k = h.read (a + k) (n - k) := by
  rw [show n = k + (n - k) by omega, read_add, List.drop_left' (by simp), Nat.add_sub_cancel_left]

@[simp] theorem write_next (h : Heap) (a : Nat) (bs : List UInt8) : (h.write a bs).next = h.next := rfl

theorem write_mem (h : Heap) (a : Nat) (bs : List UInt8) (x : Nat) :
    (h.write a bs).mem x = if a ≤ x ∧ x < a + bs.length then bs.getD (x - a) 0 else h.mem x := rfl

theorem write_mem_of_out {h : Heap} {a x : Nat} {bs : List UInt8} (hx : x < a ∨ a + bs.length ≤ x) :
    (h.write a bs).mem x = h.mem x := by
  rw [write_mem, if_neg (by omega)]

theorem read_write_of_disjoint {h : Heap} {a n d : Nat} {bs : List UInt8}
    (hd : a + n ≤ d ∨ d + bs.length ≤ a) : (h.write d bs).read a n = h.read a n :=
  read_congr fun i hi => write_mem_of_out (by omega)

theorem read_write_inside {h : Heap} {d i n : Nat} {bs : List UInt8} (hin : i + n ≤ bs.length) :
    (h.write d bs).read (d + i) n = (bs.drop i).take n := by
  refine List.ext_getElem (by simp; omega) fun j hj _ => ?_
  rw [getElem_read, write_mem, if_pos (by simp at hj; omega), List.getElem_take, List.getElem_drop,
    List.getD_eq_getElem _ _ (by simp at hj; omega)]
  congr 1
  omega

theorem read_write_self (h : Heap) (d : Nat) (bs : List UInt8) : (h.write d bs).read d bs.length = bs := by
  simpa using @read_write_inside h d 0 bs.length bs (by simp)

theorem write_append (h : Heap) (a : Nat) (xs ys : List UInt8) :
    (h.write a xs).write (a + xs.length) ys = h.write a (xs ++ ys) := by
  simp only [write, mk.injEq, and_true]
  funext x
  simp only [List.length_append]
  split_ifs with h1 h2 h3 h3 h2 <;> first | omega | skip
  · rw [List.getD_append_right _ _ _ _ (by omega), Nat.sub_sub]
  · rw [List.getD_append _ _ _ _ (by omega)]
  · rfl

theorem read_write_after (h : Heap) (a n : Nat) (bs : List UInt8) :
    (h.write (a + n) bs).read a (n + bs.length) = h.read a n ++ bs := by
  rw [read_add, read_write_of_disjoint (Or.inl le_rfl), read_write_self]

@[simp] theorem memset_next (h : Heap) (a : Nat) (c : UInt8) (n : Nat) : (h.memset a c n).next = h.next :=
  rfl

@[simp] theorem memmove_next (h : Heap) (dst src n : Nat) : (h.memmove dst src n).next = h.next := rfl

theorem memset_read_of_disjoint {h : Heap} {a n d k : Nat} {c : UInt8} (hd : a + n ≤ d ∨ d + k ≤ a) :
    (h.memset d c k).read a n = h.read a n :=
  read_write_of_disjoint (by simpa using hd)

theorem memmove_read_self (h : Heap) (d s k : Nat) : (h.memmove d s k).read d k = h.read s k := by
  simpa using read_write_self h d (h.read s k)

@[simp] theorem psMalloc_mem (h : Heap) (ok : Bool) (n : Nat) : (h.psMalloc ok n).2.mem = h.mem := by
  unfold psMalloc
  split <;> rfl

theorem psMalloc_read (h : Heap) (ok : Bool) (n a k : Nat) : (h.psMalloc ok n).2.read a k = h.read a k :=
  read_congr fun i _ => by rw [psMalloc_mem]

theorem mem_eq_of_read_eq {h h' : Heap} {a b n j : Nat} (heq : h.read a n = h'.read b n) (hj : j < n) :
    h.mem (a + j) = h'.mem (b + j) := by
  have := congrArg (fun l => l[j]?) heq
  simp only [List.getElem?_eq_getElem (show j < (h.read a n).length by simpa using hj),
    List.getElem?_eq_getElem (show j < (h'.read b n).length by simpa using hj), getElem_read,
    Option.some.injEq] at this
  exact this

theorem read_window {h h' : Heap} {a b n i k : Nat} (heq : h.read a n = h'.read b n) (hik : i + k ≤ n) :
    h.read (a + i) k = h'.read (b + i) k :=
  read_congr fun j hj => by
    rw [Nat.add_assoc, Nat.add_assoc]
    exact mem_eq_of_read_eq heq (by omega)

theorem read_inner {h h' : Heap} {a n c k : Nat} (heq : h.read a n = h'.read a n) (hac : a ≤ c)
    (hck : c + k ≤ a + n) : h.read c k = h'.read c k := by
  obtain ⟨i, rfl⟩ := Nat.exists_eq_add_of_le hac
  exact read_window heq (by omega)

theorem read_middle {h : Heap} {a n : Nat} {xs ys zs : List UInt8} (H : h.read a n = xs ++ ys ++ zs) :
    h.read (a + xs.length) ys.length = ys := by
  have hn := congrArg List.length H
  simp only [read_length, List.length_append] at hn
  have e := congrArg (fun l => (l.drop xs.length).take ys.length) H
  simp only [List.append_assoc, List.drop_left, List.take_left] at e
  rwa [drop_read _ (by omega), take_read _ (by omega)] at e

/-- `h'` holds the bytes of `h` outside `[lo, hi)`. -/
def Agree (h h' : Heap) (lo hi : Nat) : Prop := ∀ x, x < lo ∨ hi ≤ x → h'.mem x = h.mem x

section Agree

variable {h h' h'' : Heap} {lo hi : Nat}

theorem Agree.refl (h : Heap) (lo hi : Nat) : Agree h h lo hi := fun _ _ => rfl

theorem Agree.trans (h1 : Agree h h' lo hi) (h2 : Agree h' h'' lo hi) : Agree h h'' lo hi :=
  fun x hx => (h2 x hx).trans (h1 x hx)

theorem Agree.mono {lo' hi' : Nat} (hg : Agree h h' lo hi) (hlo : lo' ≤ lo) (hhi : hi ≤ hi') :
    Agree h h' lo' hi' :=
  fun x hx => hg x (by omega)

theorem Agree.read_eq {a n : Nat} (hg : Agree h h' lo hi) (hd : a + n ≤ lo ∨ hi ≤ a) :
    h'.read a n = h.read a n :=
  read_congr fun _ _ => hg _ (by omega)

theorem agree_write {d : Nat} {bs : List UInt8} (hd : lo ≤ d) (hbs : d + bs.length ≤ hi) :
    Agree h (h.write d bs) lo hi :=
  fun _ hx => write_mem_of_out (by omega)

theorem agree_memset {d k : Nat} {c : UInt8} (hd : lo ≤ d) (hk : d + k ≤ hi) :
    Agree h (h.memset d c k) lo hi :=
  agree_write hd (by simpa using hk)

theorem agree_memmove {d s k : Nat} (hd : lo ≤ d) (hk : d + k ≤ hi) :
    Agree h (h.memmove d s k) lo hi :=
  agree_write hd (by simpa using hk)

end Agree

end Heap

end MatrixSsl
