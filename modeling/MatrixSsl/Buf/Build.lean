import MatrixSsl.Buf.Nest

/-!
# Building a tree of TLVs

The reference serialisation of a tree of TLVs (`Tlv.der`) is its tag, the
minimal definite length of its content and the content, where a node's content
is its children's serialisations in order. `Tlv.emit` is how a caller builds a
tree on a dynamic buffer: each leaf with `psDynBufAppendAsn1TagGen`, each node
with `psDynBufBeginConstructedTag`, its children, then
`psDynBufEndConstructedTag` with the node's tag. On the stack of frames this
appends the serialisation to the top (`Tlv.emit_nestRun`); on the buffers, from
a root whose size leaves room for the growth the build may ask for
(`Tlv.cost`), every operation succeeds (`Tlv.emit_runOk`), and
`psDynBufDetach` returns the serialisation (`build_tree_detach_der`).
-/

namespace MatrixSsl

/-- A tree of TLVs: a leaf holds its content bytes, a node its children. -/
inductive Tlv where
  | leaf (tag : UInt8) (bytes : List UInt8)
  | node (tag : UInt8) (children : List Tlv)

mutual

/-- The reference serialisation: tag, minimal definite length, content. -/
def Tlv.der : Tlv → List UInt8
  | .leaf tag bytes => tag :: outputLen bytes.length ++ bytes
  | .node tag cs => tag :: outputLen (Tlv.derList cs).length ++ Tlv.derList cs

/-- The serialisations of the children, in order. -/
def Tlv.derList : List Tlv → List UInt8
  | [] => []
  | t :: ts => t.der ++ Tlv.derList ts

end

example : (Tlv.node 0x30 [.leaf 0x02 [1], .leaf 0x02 [2]]).der = [0x30, 6, 2, 1, 1, 2, 1, 2] := by decide

mutual

/-- The operations that build the tree, the allocator succeeding. -/
def Tlv.emit : Tlv → List (DynOp × Bool)
  | .leaf tag bytes => [(.appendAsn1TagGen tag bytes, true)]
  | .node tag cs => (.beginConstructedTag, true) :: Tlv.emitList cs ++ [(.endConstructedTag tag, true)]

def Tlv.emitList : List Tlv → List (DynOp × Bool)
  | [] => []
  | t :: ts => t.emit ++ Tlv.emitList ts

end

mutual

/-- The room the root may have to grow by while the tree is built: what each
operation asks `psDynBufGrow` for. -/
def Tlv.cost (grow : Nat) : Tlv → Nat
  | .leaf _ bytes => growReq grow 0 (bytes.length + lenOfTagAndLen bytes.length)
  | .node _ cs => growReq grow 0 20 + Tlv.costList grow cs +
    growReq grow (lenOfTagAndLen (Tlv.derList cs).length) 0

def Tlv.costList (grow : Nat) : List Tlv → Nat
  | [] => 0
  | t :: ts => t.cost grow + Tlv.costList grow ts

end

theorem NestRun.append {ops₁ ops₂ : List DynOp} {n₁ n₂ : Nest} :
    ∀ {n : Nest}, NestRun n ops₁ n₁ → NestRun n₁ ops₂ n₂ → NestRun n (ops₁ ++ ops₂) n₂ := by
  induction ops₁ with
  | nil => rintro n ⟨⟩ h; exact h
  | cons op ops ih => rintro n (_ | ⟨hs, hr⟩) h; exact .cons hs (ih hr h)

theorem NestRun.append_inv {ops₁ ops₂ : List DynOp} {n₂ : Nest} :
    ∀ {n : Nest}, NestRun n (ops₁ ++ ops₂) n₂ → ∃ n₁, NestRun n ops₁ n₁ ∧ NestRun n₁ ops₂ n₂ := by
  induction ops₁ with
  | nil => intro n h; exact ⟨n, .nil n, h⟩
  | cons op ops ih =>
    rintro n (_ | ⟨hs, hr⟩)
    obtain ⟨n₁, h₁, h₂⟩ := ih hr
    exact ⟨n₁, .cons hs h₁, h₂⟩

theorem DynRunOk.append {grow : Nat} {P : DynState → DynOp → Prop} {ops₁ ops₂ : List (DynOp × Bool)}
    {s₁ s₂ : DynState} :
    ∀ {s : DynState}, DynRunOk grow P s ops₁ s₁ → DynRunOk grow P s₁ ops₂ s₂ →
      DynRunOk grow P s (ops₁ ++ ops₂) s₂ := by
  induction ops₁ with
  | nil => rintro s ⟨⟩ h; exact h
  | cons op ops ih => rintro s (_ | ⟨hw, hst, hs, hr⟩) h; exact .cons hw hst hs (ih hr h)

mutual

theorem Tlv.emit_nestRun :
    ∀ (t : Tlv) {fs : List (List UInt8 × List UInt8)} {c : List UInt8} {n : Nest},
      NestRun ⟨fs, c⟩ (t.emit.map Prod.fst) n → n = ⟨fs, c ++ t.der⟩
  | .leaf tag bytes, fs, c, n, h => by
    obtain (_ | ⟨hs, hr⟩) := h
    obtain (_ | _) := hr
    cases hs
    rfl
  | .node tag cs, fs, c, n, h => by
    simp only [Tlv.emit, List.map_cons, List.map_append, List.map_nil] at h
    obtain (_ | ⟨hs, hr⟩) := h
    cases hs
    obtain ⟨n₁, h₁, h₂⟩ := NestRun.append_inv hr
    rw [Tlv.emitList_nestRun cs h₁] at h₂
    obtain (_ | ⟨hs, hr⟩) := h₂
    obtain (_ | _) := hr
    cases hs
    simp [Tlv.der]

theorem Tlv.emitList_nestRun :
    ∀ (ts : List Tlv) {fs : List (List UInt8 × List UInt8)} {c : List UInt8} {n : Nest},
      NestRun ⟨fs, c⟩ ((Tlv.emitList ts).map Prod.fst) n → n = ⟨fs, c ++ Tlv.derList ts⟩
  | [], fs, c, n, h => by
    obtain (_ | _) := h
    simp [Tlv.derList]
  | t :: ts, fs, c, n, h => by
    simp only [Tlv.emitList, List.map_append] at h
    obtain ⟨n₁, h₁, h₂⟩ := NestRun.append_inv h
    rw [Tlv.emit_nestRun t h₁] at h₂
    rw [Tlv.emitList_nestRun ts h₂, Tlv.derList, List.append_assoc]

end

section Build

variable {grow : Nat}

mutual

/-- From every chain without error whose root's size leaves room for the
growth the build may ask for, the build succeeds, and the root grows by at most
that room. -/
theorem Tlv.emit_runOk :
    ∀ (t : Tlv) {s : DynState}, ChainInv s → rootSize s + t.cost grow < 2 ^ 64 →
      ∃ s', DynRunOk grow (SizeNoWrap grow) s t.emit s' ∧ rootSize s' ≤ rootSize s + t.cost grow
  | .leaf tag bytes, s, hi, hw => by
    obtain ⟨loc, s', he, hok, hok'⟩ := @psDynBufAppendAsn1TagGen_spec grow true s tag bytes hi hw
    have hloc := hok' rfl
    exact ⟨s', .cons hw he hloc (.nil _), (hok hloc).root⟩
  | .node tag cs, s, hi, hw => by
    have hw1 : rootSize s + growReq grow 0 20 < 2 ^ 64 := by simp only [Tlv.cost] at hw; omega
    obtain ⟨loc₁, s₁, he₁, hok₁, hok₁'⟩ := @psDynBufBeginConstructedTag_spec grow true s hi hw1
    have hloc₁ := hok₁' rfl
    obtain ⟨hi₁, hc₁, hf₁, hr₁⟩ := hok₁ hloc₁
    obtain ⟨s₂, hrun₂, hr₂⟩ := Tlv.emitList_runOk cs hi₁ (by simp only [Tlv.cost] at hw; omega)
    obtain ⟨hi₂, hnest₂⟩ := dynRun_refines hi₁ hrun₂
    have hv₁ : view s₁ = ⟨(content s.heap s.top.buf, []) :: frames s.heap s.top s.masters, []⟩ :=
      congrArg₂ Nest.mk hf₁ hc₁
    rw [hv₁] at hnest₂
    have hv₂ := Tlv.emitList_nestRun cs hnest₂
    have hf₂ : frames s₂.heap s₂.top s₂.masters = (content s.heap s.top.buf, []) :: frames s.heap s.top s.masters :=
      congrArg Nest.frames hv₂
    have hc₂ : content s₂.heap s₂.top.buf = Tlv.derList cs := congrArg Nest.top hv₂
    have hm₂ : s₂.masters ≠ [] := fun hm => by simpa [hm] using congrArg List.length hf₂
    have hw3 : rootSize s₂ + growReq grow (lenOfTagAndLen (content s₂.heap s₂.top.buf).length) 0 < 2 ^ 64 := by
      rw [hc₂]; simp only [Tlv.cost] at hw; omega
    obtain ⟨loc₃, s₃, he₃, hok₃, hok₃'⟩ := @psDynBufEndConstructedTag_spec grow true s₂ tag hi₂ hm₂ hw3
    have hloc₃ := hok₃' rfl
    obtain ⟨-, -, hr₃⟩ := hok₃ hloc₃
    refine ⟨s₃, .cons hw1 he₁ hloc₁ (hrun₂.append (.cons hw3 he₃ hloc₃ (.nil _))), ?_⟩
    rw [hc₂] at hr₃
    simp only [Tlv.cost]
    omega

theorem Tlv.emitList_runOk :
    ∀ (ts : List Tlv) {s : DynState}, ChainInv s → rootSize s + Tlv.costList grow ts < 2 ^ 64 →
      ∃ s', DynRunOk grow (SizeNoWrap grow) s (Tlv.emitList ts) s' ∧ rootSize s' ≤ rootSize s + Tlv.costList grow ts
  | [], s, _, _ => ⟨s, .nil s, Nat.le_add_right _ _⟩
  | t :: ts, s, hi, hw => by
    simp only [Tlv.costList] at hw ⊢
    obtain ⟨s₁, hrun₁, hr₁⟩ := Tlv.emit_runOk t hi (by omega)
    obtain ⟨s₂, hrun₂, hr₂⟩ := Tlv.emitList_runOk ts (dynRun_refines hi hrun₁).1 (by omega)
    exact ⟨s₂, hrun₁.append hrun₂, by omega⟩

end

theorem psDynBufDetach_content {h : Heap} {db : DynBuf} (herr : db.err = 0) :
    (psDynBufDetach true h db).1 ≠ 0 ∧ (psDynBufDetach true h db).2.1 = (content h db.buf).length ∧
      (psDynBufDetach true h db).2.2.read (psDynBufDetach true h db).1 (content h db.buf).length =
        content h db.buf := by
  have hn : h.next ≠ 0 := Nat.pos_iff_ne_zero.1 h.next_pos
  simp only [psDynBufDetach, herr, ne_eq, not_true_eq_false, if_false, Heap.psMalloc, if_true, hn,
    not_false_eq_true, content, Heap.read_length, true_and]
  rw [Heap.memcpy, Heap.memmove_read_self]
  exact Heap.read_congr fun _ _ => rfl

/-- Building any tree on a root from `psDynBufInit` whose capacity leaves room
for the growth the build may ask for, with the allocator succeeding, succeeds
and leaves the root without error and with no sub-buffer open, holding exactly
the tree's serialisation. -/
theorem Tlv.build_root (t : Tlv) (h : Heap) (pool cap : Nat) (hw : cap + t.cost grow < 2 ^ 64) :
    ∃ s', dynRun grow (psDynBufInit true h pool cap).2 t.emit = some s' ∧ s'.masters = [] ∧
      s'.top.err = 0 ∧ content s'.heap s'.top.buf = t.der := by
  obtain ⟨hi₀, hv₀⟩ := psDynBufInit_inv h pool cap
  have hroot : rootSize (psDynBufInit true h pool cap).2 = cap := by
    simp [rootSize, rootOf, psDynBufInit, psBufInit, Heap.psMalloc, Nat.pos_iff_ne_zero.1 h.next_pos]
  obtain ⟨s', hrun, -⟩ := Tlv.emit_runOk t hi₀ (by rw [hroot]; exact hw)
  obtain ⟨hi', hnest⟩ := dynRun_refines hi₀ hrun
  have hv' := Tlv.emit_nestRun t (hv₀ ▸ hnest)
  have hm : s'.masters = [] := by
    have := congrArg (·.frames.length) hv'
    simp only [view, frames_length, List.length_nil] at this
    exact List.length_eq_zero.1 this
  exact ⟨s', hrun.dynRun_eq, hm, hi'.top_clean, congrArg Nest.top hv'⟩

/-- On every root from `psDynBufInit` whose capacity leaves room for the growth
the build may ask for, with the allocator succeeding: building any tree of TLVs
succeeds, and leaves the root, with no sub-buffer open, holding exactly the
tree's serialisation, which `psDynBufDetach` returns in a new block. -/
theorem build_tree_detach_der (t : Tlv) (h : Heap) (pool cap : Nat) (hw : cap + t.cost grow < 2 ^ 64) :
    ∃ s', dynRun grow (psDynBufInit true h pool cap).2 t.emit = some s' ∧ s'.masters = [] ∧
      content s'.heap s'.top.buf = t.der ∧ (psDynBufDetach true s'.heap s'.top).1 ≠ 0 ∧
      (psDynBufDetach true s'.heap s'.top).2.1 = t.der.length ∧
      (psDynBufDetach true s'.heap s'.top).2.2.read (psDynBufDetach true s'.heap s'.top).1 t.der.length =
        t.der := by
  obtain ⟨s', hrun, hm, herr, hc⟩ := Tlv.build_root t h pool cap hw
  rw [← hc]
  exact ⟨s', hrun, hm, rfl, psDynBufDetach_content herr⟩

theorem build_tree_detach_der_sequence :
    ∃ s', dynRun 8 (psDynBufInit true ⟨fun _ => 0, 1, Nat.one_pos⟩ 7 8).2
        (Tlv.node 0x30 [.leaf 0x02 [1], .leaf 0x02 [2]]).emit = some s' ∧ s'.masters = [] ∧
      content s'.heap s'.top.buf = [0x30, 6, 2, 1, 1, 2, 1, 2] ∧
      (psDynBufDetach true s'.heap s'.top).1 ≠ 0 ∧ (psDynBufDetach true s'.heap s'.top).2.1 = 8 ∧
      (psDynBufDetach true s'.heap s'.top).2.2.read (psDynBufDetach true s'.heap s'.top).1 8 =
        [0x30, 6, 2, 1, 1, 2, 1, 2] :=
  build_tree_detach_der (Tlv.node 0x30 [.leaf 0x02 [1], .leaf 0x02 [2]]) ⟨fun _ => 0, 1, Nat.one_pos⟩ 7 8
    (by decide)

end Build

end MatrixSsl
