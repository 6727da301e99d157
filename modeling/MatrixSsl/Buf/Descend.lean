import MatrixSsl.Buf.Build
import MatrixSsl.Buf.Parse

/-!
# Reading a tree of TLVs back

The converse of `build_tree_detach_der`: a parse buffer over the serialisation
of a tree, descended with `psParseBufReadTagSub` on each node's tag, recursing
into the nodes and closing every child with `psParseBufFinish` (`Tlv.descend`).
`Descends` is what the descent should do at every node: each opening returns the
length of the subtree's serialisation, each leaf's child spans exactly the leaf
bytes, and each closing succeeds. `Tlv.descends` proves it for every tree whose
contents are at most `PS_PARSE_MAXIMUM_TAG_CONTENT` bytes, and
`read_tree_descends` from `psParseBufFromStaticData`. `build_then_read_tree`
joins the two directions: the block `psDynBufDetach` returns after a build is
read back by the descent of the same tree.
-/

namespace MatrixSsl

/-- The tag at the root of a tree. -/
def Tlv.tag : Tlv → UInt8
  | .leaf tag _ | .node tag _ => tag

mutual

/-- Every content, a leaf's bytes or a node's children's serialisations, is at
most `2^30` bytes. -/
def Tlv.Bounded : Tlv → Prop
  | .leaf _ bytes => bytes.length ≤ 2 ^ 30
  | .node _ cs => (Tlv.derList cs).length ≤ 2 ^ 30 ∧ Tlv.BoundedList cs

def Tlv.BoundedList : List Tlv → Prop
  | [] => True
  | t :: ts => t.Bounded ∧ Tlv.BoundedList ts

end

mutual

/-- The descent: open each element with its tag, recurse into a node's
children, and close it. -/
def Tlv.descend : Tlv → List ParseOp
  | .leaf tag _ => [.readTagSub tag, .finish]
  | .node tag cs => .readTagSub tag :: Tlv.descendList cs ++ [.finish]

def Tlv.descendList : List Tlv → List ParseOp
  | [] => []
  | t :: ts => t.descend ++ Tlv.descendList ts

end

mutual

/-- What the descent of a tree does, step by step: each opening returns the
length of the subtree's serialisation, a leaf's child holds exactly its bytes,
and each closing returns. -/
inductive Descends (m : Mem) : Tlv → ParseState → ParseState → Prop
  | leaf {tag : UInt8} {bytes : List UInt8} {s s₁ s' : ParseState} :
      parseStep m s (.readTagSub tag) = some ((Tlv.leaf tag bytes).der.length, s₁) →
      s₁.top.buf.end - s₁.top.buf.start = bytes.length → Holds m s₁.top.buf.start bytes →
      parseStep m s₁ .finish = some (0, s') → Descends m (.leaf tag bytes) s s'
  | node {tag : UInt8} {cs : List Tlv} {s s₁ s₂ s' : ParseState} :
      parseStep m s (.readTagSub tag) = some ((Tlv.node tag cs).der.length, s₁) →
      DescendsList m cs s₁ s₂ → parseStep m s₂ .finish = some (0, s') → Descends m (.node tag cs) s s'

inductive DescendsList (m : Mem) : List Tlv → ParseState → ParseState → Prop
  | nil (s : ParseState) : DescendsList m [] s s
  | cons {t : Tlv} {ts : List Tlv} {s s₁ s₂ : ParseState} :
      Descends m t s s₁ → DescendsList m ts s₁ s₂ → DescendsList m (t :: ts) s s₂

end

theorem parseRun_append {m : Mem} {ops₁ ops₂ : List ParseOp} :
    ∀ {s : ParseState}, parseRun m s (ops₁ ++ ops₂) = (parseRun m s ops₁).bind fun s₁ => parseRun m s₁ ops₂ := by
  induction ops₁ with
  | nil => intro s; rfl
  | cons op ops ih =>
    intro s
    simp only [List.cons_append, parseRun, Option.bind_eq_bind, Option.bind_assoc]
    congr 1
    funext p
    exact ih

mutual

theorem Descends.parseRun {m : Mem} {t : Tlv} {s s' : ParseState} :
    Descends m t s s' → parseRun m s t.descend = some s'
  | .leaf h₁ _ _ h₂ => by simp [Tlv.descend, parseRun, h₁, h₂]
  | .node h₁ hl h₂ => by
    simp [Tlv.descend, parseRun, h₁, parseRun_append, hl.parseRun, h₂]

theorem DescendsList.parseRun {m : Mem} {ts : List Tlv} {s s' : ParseState} :
    DescendsList m ts s s' → parseRun m s (Tlv.descendList ts) = some s'
  | .nil _ => rfl
  | .cons h hl => by simp [Tlv.descendList, parseRun_append, h.parseRun, hl.parseRun]

end

theorem psParseBufReadTagSub_tlv {m : Mem} {pb : PsParseBuf} {tag : UInt8} {c rest : List UInt8}
    (hm : Holds m pb.buf.start (tag :: outputLen c.length ++ c ++ rest))
    (hB : pb.buf.end - pb.buf.start = (tag :: outputLen c.length ++ c ++ rest).length)
    (hmax : c.length ≤ 2 ^ 30) :
    psParseBufReadTagSub m pb tag = some (lenOfTagAndLen c.length + c.length, pb,
      ⟨⟨pb.buf.start + lenOfTagAndLen c.length, pb.buf.start + lenOfTagAndLen c.length,
        pb.buf.start + lenOfTagAndLen c.length + c.length, c.length⟩, 0⟩) := by
  have hlen := outputLen_length c.length
  have h2 := two_le_lenOfTagAndLen c.length
  have hspec : tagLenSpec tag (tag :: outputLen c.length ++ c ++ rest) =
      (lenOfTagAndLen c.length + c.length, some (lenOfTagAndLen c.length)) :=
    tagLenSpec_of_head ⟨tag, c ++ rest, by simp, fun _ => rfl⟩ hmax (by simp; omega)
  have hget : psParseBufGetTagLen m pb tag = _ := psParseBufGetTagLen_eq_tagLenSpec hm hB
  rw [hspec] at hget
  have hne : lenOfTagAndLen c.length + c.length ≠ 0 := by omega
  simp only [psParseBufReadTagSub, psParseBufTryReadTagSub, hget, Option.bind_eq_bind, Option.some_bind,
    hne, if_false, Option.getD_some, Nat.add_sub_cancel_left, Option.pure_def]

/-- The parse buffer `pb` with its cursor `n` bytes on. -/
def PsParseBuf.advance (pb : PsParseBuf) (n : Nat) : PsParseBuf :=
  { pb with buf := { pb.buf with start := pb.buf.start + n } }

theorem parseStep_readTagSub_tlv {m : Mem} {s : ParseState} {tag : UInt8} {c rest : List UInt8}
    (hm : Holds m s.top.buf.start (tag :: outputLen c.length ++ c ++ rest))
    (hB : s.top.buf.end - s.top.buf.start = (tag :: outputLen c.length ++ c ++ rest).length)
    (hmax : c.length ≤ 2 ^ 30) :
    ∃ child : PsParseBuf, parseStep m s (.readTagSub tag) = some ((tag :: outputLen c.length ++ c).length,
        ⟨child, ((tag :: outputLen c.length ++ c).length, s.top) :: s.up⟩) ∧
      child.err = 0 ∧ Holds m child.buf.start c ∧ child.buf.end - child.buf.start = c.length ∧
      child.buf.buf + child.buf.size = s.top.buf.start + (tag :: outputLen c.length ++ c).length := by
  have hlen := outputLen_length c.length
  have hd : (tag :: outputLen c.length ++ c).length = lenOfTagAndLen c.length + c.length := by
    simp only [List.length_append, List.length_cons]; omega
  refine ⟨⟨⟨s.top.buf.start + lenOfTagAndLen c.length, s.top.buf.start + lenOfTagAndLen c.length,
    s.top.buf.start + lenOfTagAndLen c.length + c.length, c.length⟩, 0⟩, ?_, rfl, ?_, by simp, by simp only; omega⟩
  · simp only [parseStep, psParseBufReadTagSub_tlv hm hB hmax, hd, Option.bind_eq_bind, Option.some_bind,
      Option.pure_def]
  · have := (holds_append.1 (holds_append.1 hm).1).2
    rwa [List.length_cons, hlen] at this

theorem finish_after_tlv {m : Mem} {s : ParseState} {n : Nat} {c : PsParseBuf}
    (hc : c.err = 0) (hbuf : c.buf.buf + c.buf.size = s.top.buf.start + n) :
    parseStep m ⟨c, (n, s.top) :: s.up⟩ .finish = some (0, ⟨s.top.advance n, s.up⟩) := by
  simp [parseStep, psParseBufFinish, hc, hbuf, PsParseBuf.advance]

mutual

/-- Descending a TLV whose contents are at most `2^30` bytes, from a buffer
without error whose unread bytes start with its serialisation: every step of
`Descends` holds, and the buffer ends past the serialisation. -/
theorem Tlv.descends {m : Mem} :
    ∀ (t : Tlv), t.Bounded → ∀ {s : ParseState} {rest : List UInt8}, s.top.err = 0 →
      Holds m s.top.buf.start (t.der ++ rest) → s.top.buf.end - s.top.buf.start = (t.der ++ rest).length →
      ∃ s', Descends m t s s' ∧ s' = ⟨s.top.advance t.der.length, s.up⟩
  | .leaf tag bytes, hb, s, rest, _, hm, hB => by
    obtain ⟨c, h1, hc0, hcm, hcB, hcend⟩ := parseStep_readTagSub_tlv hm hB hb
    exact ⟨_, .leaf h1 hcB hcm (finish_after_tlv hc0 hcend), rfl⟩
  | .node tag cs, ⟨hmax, hbl⟩, s, rest, _, hm, hB => by
    obtain ⟨c, h1, hc0, hcm, hcB, hcend⟩ := parseStep_readTagSub_tlv hm hB hmax
    obtain ⟨s₂, hl, rfl⟩ := @Tlv.descendsList m cs hbl ⟨c, ((Tlv.node tag cs).der.length, s.top) :: s.up⟩ []
      hc0 (by rwa [List.append_nil]) (by rwa [List.append_nil])
    exact ⟨_, .node h1 hl (finish_after_tlv hc0 hcend), rfl⟩

theorem Tlv.descendsList {m : Mem} :
    ∀ (ts : List Tlv), Tlv.BoundedList ts → ∀ {s : ParseState} {rest : List UInt8}, s.top.err = 0 →
      Holds m s.top.buf.start (Tlv.derList ts ++ rest) →
      s.top.buf.end - s.top.buf.start = (Tlv.derList ts ++ rest).length →
      ∃ s', DescendsList m ts s s' ∧ s' = ⟨s.top.advance (Tlv.derList ts).length, s.up⟩
  | [], _, s, _, _, _, _ => ⟨s, .nil s, by simp [Tlv.derList, PsParseBuf.advance]⟩
  | t :: ts, ⟨ht, hts⟩, s, rest, herr, hm, hB => by
    rw [Tlv.derList, List.append_assoc] at hm hB
    obtain ⟨s₁, h₁, rfl⟩ := Tlv.descends t ht herr hm hB
    obtain ⟨s₂, h₂, rfl⟩ := @Tlv.descendsList m ts hts ⟨s.top.advance t.der.length, s.up⟩ rest herr
      (holds_append.1 hm).2 (by simp only [PsParseBuf.advance, List.length_append] at hB ⊢; omega)
    exact ⟨_, .cons h₁ h₂, by simp [PsParseBuf.advance, Tlv.derList, Nat.add_assoc]⟩

end

theorem parseInit_of_ne_zero {a : Nat} (n : Nat) (ha : a ≠ 0) :
    parseInit a n = ⟨⟨⟨a, a, a + n, n⟩, 0⟩, []⟩ := by
  simp [parseInit, psParseBufFromStaticData, ha]

/-- For every tree whose contents are at most `2^30` bytes, held in memory at a
non-null address: the descent of the parse buffer that
`psParseBufFromStaticData` wraps around its serialisation takes every step of
`Descends` (each `psParseBufReadTagSub` returns the length of its subtree's
serialisation, each leaf's child spans exactly the leaf's bytes, each
`psParseBufFinish` returns), and ends with the whole buffer read, no child
open and no error. -/
theorem read_tree_descends {m : Mem} {a : Nat} {t : Tlv} (ha : a ≠ 0) (hm : Holds m a t.der)
    (hb : t.Bounded) :
    ∃ s', Descends m t (parseInit a t.der.length) s' ∧ parseRun m (parseInit a t.der.length) t.descend = some s' ∧
      s' = ⟨⟨⟨a, a + t.der.length, a + t.der.length, t.der.length⟩, 0⟩, []⟩ := by
  rw [parseInit_of_ne_zero _ ha]
  obtain ⟨s', hd, rfl⟩ := @Tlv.descends m t hb ⟨⟨⟨a, a, a + t.der.length, t.der.length⟩, 0⟩, []⟩ [] rfl
    (by rwa [List.append_nil]) (by simp)
  exact ⟨_, hd, hd.parseRun, rfl⟩

theorem read_tree_descends_sequence :
    ∃ s', Descends (Mem.ofList [0, 0x30, 6, 2, 1, 1, 2, 1, 2]) (.node 0x30 [.leaf 2 [1], .leaf 2 [2]])
        (parseInit 1 (Tlv.node 0x30 [.leaf 2 [1], .leaf 2 [2]]).der.length) s' ∧
      parseRun (Mem.ofList [0, 0x30, 6, 2, 1, 1, 2, 1, 2])
          (parseInit 1 (Tlv.node 0x30 [.leaf 2 [1], .leaf 2 [2]]).der.length)
          (Tlv.node 0x30 [.leaf 2 [1], .leaf 2 [2]]).descend = some s' ∧
      s' = ⟨⟨⟨1, 1 + (Tlv.node 0x30 [.leaf 2 [1], .leaf 2 [2]]).der.length,
        1 + (Tlv.node 0x30 [.leaf 2 [1], .leaf 2 [2]]).der.length,
        (Tlv.node 0x30 [.leaf 2 [1], .leaf 2 [2]]).der.length⟩, 0⟩, []⟩ :=
  read_tree_descends one_ne_zero (by simpa using (holds_ofList [0, 0x30, 6, 2, 1, 1, 2, 1, 2]).drop 1)
    (by simp only [Tlv.Bounded, Tlv.BoundedList]; decide)

/-- The heap as the memory the parse functions read. -/
def Heap.toMem (h : Heap) : Mem := fun a => some (h.mem a)

theorem Heap.holds_read (h : Heap) (a n : Nat) : Holds h.toMem a (h.read a n) := by
  intro i hi
  rw [List.getElem?_eq_getElem hi, Heap.getElem_read]
  rfl

section RoundTrip

variable {grow : Nat}

/-- For every tree whose contents are at most `2^30` bytes, built on a root from
`psDynBufInit` whose capacity leaves room for the growth the build may ask for,
with the allocator succeeding: the build succeeds, and the descent of the block
`psDynBufDetach` returns, wrapped by `psParseBufFromStaticData`, takes every step
of `Descends` and ends with the whole block read, no child open and no error. -/
theorem build_then_read_tree (t : Tlv) (hb : t.Bounded) (h : Heap) (pool cap : Nat)
    (hw : cap + t.cost grow < 2 ^ 64) :
    ∃ s', dynRun grow (psDynBufInit true h pool cap).2 t.emit = some s' ∧
      let d := psDynBufDetach true s'.heap s'.top
      ∃ r, Descends d.2.2.toMem t (parseInit d.1 d.2.1) r ∧
        parseRun d.2.2.toMem (parseInit d.1 d.2.1) t.descend = some r ∧
        r = ⟨⟨⟨d.1, d.1 + d.2.1, d.1 + d.2.1, d.2.1⟩, 0⟩, []⟩ := by
  obtain ⟨s', hrun, -, herr, hc⟩ := Tlv.build_root t h pool cap hw
  obtain ⟨h0, hlen, hread⟩ := psDynBufDetach_content herr
  rw [hc] at hlen hread
  refine ⟨s', hrun, ?_⟩
  generalize psDynBufDetach true s'.heap s'.top = d at h0 hlen hread
  obtain ⟨p, len, h'⟩ := d
  dsimp only at h0 hlen hread ⊢
  subst hlen
  rw [parseInit_of_ne_zero _ h0]
  obtain ⟨r, hd, rfl⟩ := @Tlv.descends h'.toMem t hb ⟨⟨⟨p, p, p + t.der.length, t.der.length⟩, 0⟩, []⟩ [] rfl
    (by rw [List.append_nil, ← hread]; exact h'.holds_read p _) (by simp)
  exact ⟨_, hd, hd.parseRun, rfl⟩

theorem build_then_read_tree_sequence :
    ∃ s', dynRun 8 (psDynBufInit true ⟨fun _ => 0, 1, Nat.one_pos⟩ 7 8).2
        (Tlv.node 0x30 [.leaf 0x02 [1], .leaf 0x02 [2]]).emit = some s' ∧
      let d := psDynBufDetach true s'.heap s'.top
      ∃ r, Descends d.2.2.toMem (Tlv.node 0x30 [.leaf 0x02 [1], .leaf 0x02 [2]]) (parseInit d.1 d.2.1) r ∧
        parseRun d.2.2.toMem (parseInit d.1 d.2.1) (Tlv.node 0x30 [.leaf 0x02 [1], .leaf 0x02 [2]]).descend =
          some r ∧ r = ⟨⟨⟨d.1, d.1 + d.2.1, d.1 + d.2.1, d.2.1⟩, 0⟩, []⟩ :=
  build_then_read_tree (Tlv.node 0x30 [.leaf 0x02 [1], .leaf 0x02 [2]])
    (by simp only [Tlv.Bounded, Tlv.BoundedList]; decide) ⟨fun _ => 0, 1, Nat.one_pos⟩ 7 8 (by decide)

/-- For every tree whose contents are at most `2^30` bytes, built on a root from
`psDynBufInit` whose block, grown by as much as the build may ask for, still
ends below the top of the address space, with the allocator succeeding: the
build succeeds and `psDynBufDetach` returns a block holding exactly the tree's
serialisation. Conversely, wherever that serialisation lies, the descent of the
parse buffer `psParseBufFromStaticData` wraps around it takes every step of
`Descends` and ends with the whole buffer read, no child open and no error. -/
theorem build_and_read_tree_in_address_space (t : Tlv) (hb : t.Bounded) (h : Heap) (pool cap : Nat)
    (hw : h.next + cap + t.cost grow < 2 ^ 64) :
    (∃ s', dynRun grow (psDynBufInit true h pool cap).2 t.emit = some s' ∧
      (psDynBufDetach true s'.heap s'.top).1 ≠ 0 ∧ (psDynBufDetach true s'.heap s'.top).2.1 = t.der.length ∧
      (psDynBufDetach true s'.heap s'.top).2.2.read (psDynBufDetach true s'.heap s'.top).1 t.der.length =
        t.der) ∧
    ∀ (m : Mem) (a : Nat), a ≠ 0 → Holds m a t.der →
      ∃ r, Descends m t (parseInit a t.der.length) r ∧ parseRun m (parseInit a t.der.length) t.descend = some r ∧
        r = ⟨⟨⟨a, a + t.der.length, a + t.der.length, t.der.length⟩, 0⟩, []⟩ := by
  refine ⟨?_, fun m a ha hm => ?_⟩
  · obtain ⟨s', hrun, -, herr, hc⟩ := @Tlv.build_root grow t h pool cap (by omega)
    rw [← hc]
    exact ⟨s', hrun, psDynBufDetach_content herr⟩
  · rw [parseInit_of_ne_zero _ ha]
    obtain ⟨r, hd, rfl⟩ := @Tlv.descends m t hb ⟨⟨⟨a, a, a + t.der.length, t.der.length⟩, 0⟩, []⟩ [] rfl
      (by rwa [List.append_nil]) (by simp)
    exact ⟨_, hd, hd.parseRun, rfl⟩

theorem build_and_read_tree_in_address_space_sequence :
    (∃ s', dynRun 8 (psDynBufInit true ⟨fun _ => 0, 1, Nat.one_pos⟩ 7 8).2
        (Tlv.node 0x30 [.leaf 0x02 [1], .leaf 0x02 [2]]).emit = some s' ∧
      (psDynBufDetach true s'.heap s'.top).1 ≠ 0 ∧ (psDynBufDetach true s'.heap s'.top).2.1 = 8 ∧
      (psDynBufDetach true s'.heap s'.top).2.2.read (psDynBufDetach true s'.heap s'.top).1 8 =
        [0x30, 6, 2, 1, 1, 2, 1, 2]) ∧
    ∀ (m : Mem) (a : Nat), a ≠ 0 → Holds m a [0x30, 6, 2, 1, 1, 2, 1, 2] →
      ∃ r, Descends m (Tlv.node 0x30 [.leaf 0x02 [1], .leaf 0x02 [2]]) (parseInit a 8) r ∧
        parseRun m (parseInit a 8) (Tlv.node 0x30 [.leaf 0x02 [1], .leaf 0x02 [2]]).descend = some r ∧
        r = ⟨⟨⟨a, a + 8, a + 8, 8⟩, 0⟩, []⟩ :=
  build_and_read_tree_in_address_space (Tlv.node 0x30 [.leaf 0x02 [1], .leaf 0x02 [2]])
    (by simp only [Tlv.Bounded, Tlv.BoundedList]; decide) ⟨fun _ => 0, 1, Nat.one_pos⟩ 7 8 (by decide)

end RoundTrip

end MatrixSsl
