import MatrixSsl.Buf.Wrap

/-!
# The chain of open buffers as a stack of frames

A chain of dynamic buffers is there to build the root's bytes: what the root
holds once every open sub-buffer is finished. Abstractly the chain is a stack
(`Nest`): the frames of the open masters, the bytes of each before and after the
region of its open sub-buffer, over the content of the innermost buffer. Each
operation on the innermost buffer is one step of the stack (`NestStep`): an
append or a prepend edits the top, opening a sub-buffer pushes a frame, and
finishing one pops it. `dynStep_refines` shows that every successful operation
of the model whose `size_t` sums do not wrap is such a step and keeps
`ChainInv`; `dynRun_refines` carries both along every such run. The model adds
addresses in `Nat`; `NoWrap` also keeps the pointer sums of the code below
`2^64`, where the machine's sums are the model's (`psBufAppendSize64_eq`).
-/

namespace MatrixSsl

/-- The frames of the open masters, innermost first, over the content of the
innermost buffer. -/
structure Nest where
  frames : List (List UInt8 × List UInt8)
  top : List UInt8

/-- The root's bytes once every open sub-buffer is finished. -/
def Nest.flat (n : Nest) : List UInt8 := n.frames.foldl (fun c f => f.1 ++ c ++ f.2) n.top

@[simp] theorem Nest.flat_cons (f : List UInt8 × List UInt8) (fs : List (List UInt8 × List UInt8))
    (c : List UInt8) : Nest.flat ⟨f :: fs, c⟩ = Nest.flat ⟨fs, f.1 ++ c ++ f.2⟩ := rfl

/-- One operation on the innermost buffer, on the stack: the bytes an append or
a prepend makes room for are whatever the memory holds there. -/
inductive NestStep : Nest → DynOp → Nest → Prop
  | appendSize {fs : List (List UInt8 × List UInt8)} {c bs : List UInt8} (sz : Nat) (h : bs.length = sz) :
      NestStep ⟨fs, c⟩ (.appendSize sz) ⟨fs, c ++ bs⟩
  | prependSize {fs : List (List UInt8 × List UInt8)} {c bs : List UInt8} (sz : Nat) (h : bs.length = sz) :
      NestStep ⟨fs, c⟩ (.prependSize sz) ⟨fs, bs ++ c⟩
  | reservePrepend (n : Nest) (sz : Nat) : NestStep n (.reservePrepend sz) n
  | appendUtf8 {fs : List (List UInt8 × List UInt8)} {c : List UInt8} (chr : Int) :
      NestStep ⟨fs, c⟩ (.appendUtf8 chr) ⟨fs, c ++ utf8Bytes (chr % 2 ^ 32).toNat⟩
  | appendAsn1TagGen {fs : List (List UInt8 × List UInt8)} {c : List UInt8} (tag : UInt8) (bytes : List UInt8) :
      NestStep ⟨fs, c⟩ (.appendAsn1TagGen tag bytes) ⟨fs, c ++ (tag :: outputLen bytes.length ++ bytes)⟩
  | subInit {fs : List (List UInt8 × List UInt8)} {c : List UInt8} (cap : Nat) :
      NestStep ⟨fs, c⟩ (.subInit cap) ⟨(c, []) :: fs, []⟩
  | subInitAt {fs : List (List UInt8 × List UInt8)} {c : List UInt8} (sub : DynBuf) (pos len : Nat)
      (h : pos + len ≤ c.length) :
      NestStep ⟨fs, c⟩ (.subInitAt sub pos len) ⟨(c.take pos, c.drop (pos + len)) :: fs, []⟩
  | subFinish {fs : List (List UInt8 × List UInt8)} {c pre post : List UInt8} :
      NestStep ⟨(pre, post) :: fs, c⟩ .subFinish ⟨fs, pre ++ c ++ post⟩
  | beginConstructedTag {fs : List (List UInt8 × List UInt8)} {c : List UInt8} :
      NestStep ⟨fs, c⟩ .beginConstructedTag ⟨(c, []) :: fs, []⟩
  | endConstructedTag {fs : List (List UInt8 × List UInt8)} {c pre post : List UInt8} (tag : UInt8) :
      NestStep ⟨(pre, post) :: fs, c⟩ (.endConstructedTag tag)
        ⟨fs, pre ++ (tag :: outputLen c.length ++ c) ++ post⟩

/-- Steps one after another. -/
inductive NestRun : Nest → List DynOp → Nest → Prop
  | nil (n : Nest) : NestRun n [] n
  | cons {n n₁ n₂ : Nest} {op : DynOp} {ops : List DynOp} :
      NestStep n op n₁ → NestRun n₁ ops n₂ → NestRun n (op :: ops) n₂

/-- The chain seen as a stack. -/
def view (s : DynState) : Nest := ⟨frames s.heap s.top s.masters, content s.heap s.top.buf⟩

/-- The requests of an operation that fit in a `size_t` together with the root's
size: then no sum in `psDynBufGrow` wraps, at any depth. -/
def SizeNoWrap (grow : Nat) (s : DynState) : DynOp → Prop
  | .appendSize sz => rootSize s + growReq grow 0 sz < 2 ^ 64
  | .prependSize sz => rootSize s + growReq grow sz 0 < 2 ^ 64
  | .reservePrepend _ => True
  | .appendUtf8 chr => rootSize s + growReq grow 0 (utf8Bytes (chr % 2 ^ 32).toNat).length < 2 ^ 64
  | .appendAsn1TagGen _ bytes =>
    rootSize s + growReq grow 0 (bytes.length + lenOfTagAndLen bytes.length) < 2 ^ 64
  | .subInit cap => rootSize s + growReq grow 0 cap < 2 ^ 64
  | .subInitAt _ pos len => pos + len < 2 ^ 64
  | .subFinish => True
  | .beginConstructedTag => rootSize s + growReq grow 0 20 < 2 ^ 64
  | .endConstructedTag _ => rootSize s + growReq grow (lenOfTagAndLen (content s.heap s.top.buf).length) 0 < 2 ^ 64

instance (grow : Nat) (s : DynState) : (op : DynOp) → Decidable (SizeNoWrap grow s op)
  | .appendSize _ | .prependSize _ | .appendUtf8 _ | .appendAsn1TagGen _ _ | .subInit _ | .subInitAt _ _ _
    | .beginConstructedTag | .endConstructedTag _ => Nat.decLt _ _
  | .reservePrepend _ | .subFinish => instDecidableTrue

/-- The request added to `end` (to `buf` for a prepend) in the pointer check of
`psBufAppendSize`, `psBufReservePrepend` or `psBufPrependSize` on `top`. -/
def PtrNoWrap (s : DynState) : DynOp → Prop
  | .appendSize sz | .reservePrepend sz | .subInit sz => s.top.buf.end + sz < 2 ^ 64
  | .prependSize sz => s.top.buf.buf + sz < 2 ^ 64
  | .appendUtf8 chr => s.top.buf.end + (utf8Bytes (chr % 2 ^ 32).toNat).length < 2 ^ 64
  | .appendAsn1TagGen _ bytes => s.top.buf.end + (bytes.length + lenOfTagAndLen bytes.length) < 2 ^ 64
  | .beginConstructedTag => s.top.buf.end + 20 < 2 ^ 64
  | .endConstructedTag _ => s.top.buf.buf + lenOfTagAndLen (content s.heap s.top.buf).length < 2 ^ 64
  | .subInitAt _ _ _ | .subFinish => True

instance (s : DynState) : (op : DynOp) → Decidable (PtrNoWrap s op)
  | .appendSize _ | .reservePrepend _ | .subInit _ | .prependSize _ | .appendUtf8 _ | .appendAsn1TagGen _ _
    | .beginConstructedTag | .endConstructedTag _ => Nat.decLt _ _
  | .subInitAt _ _ _ | .subFinish => instDecidableTrue

/-- No sum of the operation wraps: neither a `size_t` sum of `psDynBufGrow` nor a
pointer sum, the root's block ending below `2^64` (every buffer lies in it) and
the fast-path check on `top` staying below it. The blocks `psDynBufGrow`
allocates are where the model's allocator puts them. -/
def NoWrap (grow : Nat) (s : DynState) (op : DynOp) : Prop :=
  SizeNoWrap grow s op ∧ (rootOf s.top s.masters).buf.buf + rootSize s < 2 ^ 64 ∧ PtrNoWrap s op

instance (grow : Nat) (s : DynState) (op : DynOp) : Decidable (NoWrap grow s op) :=
  inferInstanceAs (Decidable (_ ∧ _ ∧ _))

/-- An operation succeeded: it returned a location, `psDynBufReservePrepend`
apart, which returns none. -/
def DynOp.Succeeded : DynOp → Nat → Prop
  | .reservePrepend _, _ => True
  | _, loc => loc ≠ 0

instance : (op : DynOp) → (loc : Nat) → Decidable (op.Succeeded loc)
  | .reservePrepend _, _ => instDecidableTrue
  | .appendSize _, _ | .prependSize _, _ | .appendUtf8 _, _ | .appendAsn1TagGen _ _, _ | .subInit _, _
    | .subInitAt _ _ _, _ | .subFinish, _ | .beginConstructedTag, _ | .endConstructedTag _, _ => instDecidableNot

/-- A run of operations that all succeed, each meeting `P` where it starts. -/
inductive DynRunOk (grow : Nat) (P : DynState → DynOp → Prop) :
    DynState → List (DynOp × Bool) → DynState → Prop
  | nil (s : DynState) : DynRunOk grow P s [] s
  | cons {s s₁ s₂ : DynState} {op : DynOp} {ok : Bool} {loc : Nat} {ops : List (DynOp × Bool)} :
      P s op → dynStep grow ok s op = some (loc, s₁) → op.Succeeded loc →
      DynRunOk grow P s₁ ops s₂ → DynRunOk grow P s ((op, ok) :: ops) s₂

section Runs

variable {grow : Nat} {P Q : DynState → DynOp → Prop}

theorem DynRunOk.dynRun_eq {ops : List (DynOp × Bool)} :
    ∀ {s s' : DynState}, DynRunOk grow P s ops s' → dynRun grow s ops = some s' := by
  induction ops with
  | nil => rintro s s' ⟨⟩; rfl
  | cons p ops ih =>
    rintro s s' (_ | ⟨-, hst, -, hr⟩)
    simp only [dynRun, hst, Option.bind_eq_bind, Option.some_bind]
    exact ih hr

theorem DynRunOk.mono (hPQ : ∀ s op, P s op → Q s op) {ops : List (DynOp × Bool)} :
    ∀ {s s' : DynState}, DynRunOk grow P s ops s' → DynRunOk grow Q s ops s' := by
  induction ops with
  | nil => rintro s s' ⟨⟩; exact .nil _
  | cons p ops ih => rintro s s' (_ | ⟨hp, hst, hs, hr⟩); exact .cons (hPQ _ _ hp) hst hs (ih hr)

end Runs

theorem EditsTop.view_eq {s s' : DynState} {r : Nat} {f : List UInt8 → List UInt8} (e : EditsTop s r f s') :
    view s' = ⟨(view s).frames, f (view s).top⟩ := by
  simp only [view, e.content_eq, e.frames_eq]

section Refines

variable {grow : Nat} {ok : Bool}

theorem some_inj_pair {x : Option (Nat × DynState)} {loc loc' : Nat} {s' s'' : DynState}
    (h : x = some (loc, s')) (he : x = some (loc', s'')) : loc = loc' ∧ s' = s'' := by
  rw [he, Option.some.injEq, Prod.mk.injEq] at h
  exact ⟨h.1.symm, h.2.symm⟩

/-- Every successful operation whose sums do not wrap keeps the invariant, and
is one step of the stack. -/
theorem dynStep_refines {s s' : DynState} {op : DynOp} {loc : Nat} (hi : ChainInv s) (hw : SizeNoWrap grow s op)
    (h : dynStep grow ok s op = some (loc, s')) (hs : op.Succeeded loc) :
    ChainInv s' ∧ NestStep (view s) op (view s') := by
  cases op with
  | appendSize sz =>
    obtain ⟨_, _, he, hok, -⟩ := @psDynBufAppendSize_spec grow ok s sz hi hw
    obtain ⟨rfl, rfl⟩ := some_inj_pair h he
    obtain ⟨e, -⟩ := hok hs
    exact ⟨e.inv, e.view_eq ▸ .appendSize sz (Heap.read_length _ _ _)⟩
  | prependSize sz =>
    obtain ⟨_, _, he, hok, -⟩ := @psDynBufPrependSize_spec grow ok s sz hi hw
    obtain ⟨rfl, rfl⟩ := some_inj_pair h he
    obtain ⟨e, -⟩ := hok hs
    exact ⟨e.inv, e.view_eq ▸ .prependSize sz (Heap.read_length _ _ _)⟩
  | reservePrepend sz =>
    obtain ⟨_, he, e⟩ := @psDynBufReservePrepend_spec s sz hi
    simp only [dynStep, he, Option.map_some', Option.some.injEq, Prod.mk.injEq] at h
    obtain ⟨-, rfl⟩ := h
    exact ⟨e.inv, e.view_eq ▸ .reservePrepend _ sz⟩
  | appendUtf8 chr =>
    obtain ⟨_, _, he, hok, -⟩ := @psDynBufAppendUtf8_spec grow ok s chr hi hw
    obtain ⟨rfl, rfl⟩ := some_inj_pair h he
    have e := hok hs
    exact ⟨e.inv, e.view_eq ▸ .appendUtf8 chr⟩
  | appendAsn1TagGen tag bytes =>
    obtain ⟨_, _, he, hok, -⟩ := @psDynBufAppendAsn1TagGen_spec grow ok s tag bytes hi hw
    obtain ⟨rfl, rfl⟩ := some_inj_pair h he
    have e := hok hs
    exact ⟨e.inv, e.view_eq ▸ .appendAsn1TagGen tag bytes⟩
  | subInit cap =>
    obtain ⟨_, _, he, hok, -⟩ := @psDynBufSubInit_spec grow ok s cap hi hw
    obtain ⟨rfl, rfl⟩ := some_inj_pair h he
    obtain ⟨hi', hc, hf, -⟩ := hok hs
    refine ⟨hi', ?_⟩
    rw [show view s' = ⟨_, _⟩ from congrArg₂ Nest.mk hf hc]
    exact .subInit cap
  | subInitAt sub pos len =>
    obtain ⟨_, _, he, hok, -⟩ := @psDynBufSubInitAt_spec s sub pos len hi hw
    obtain ⟨rfl, rfl⟩ := some_inj_pair h he
    obtain ⟨hi', hc, hf, -⟩ := hok hs
    refine ⟨hi', ?_⟩
    rw [show view s' = ⟨_, _⟩ from congrArg₂ Nest.mk hf hc]
    exact .subInitAt sub pos len (by simpa [content] using (psDynBufSubInitAt_inside he hs).1)
  | subFinish =>
    have hm : s.masters ≠ [] := fun hm => by simp [dynStep, psDynBufSubFinish, hm] at h
    obtain ⟨_, _, he, -, hi', ⟨pre, post, hf, hc⟩, -⟩ := psDynBufSubFinish_spec hi hm
    obtain ⟨rfl, rfl⟩ := some_inj_pair h he
    refine ⟨hi', ?_⟩
    rw [show view s = ⟨_, _⟩ from congrArg₂ Nest.mk hf rfl, show view s' = ⟨_, _⟩ from congrArg₂ Nest.mk rfl hc]
    exact .subFinish
  | beginConstructedTag =>
    obtain ⟨_, _, he, hok, -⟩ := @psDynBufBeginConstructedTag_spec grow ok s hi hw
    obtain ⟨rfl, rfl⟩ := some_inj_pair h he
    obtain ⟨hi', hc, hf, -⟩ := hok hs
    refine ⟨hi', ?_⟩
    rw [show view s' = ⟨_, _⟩ from congrArg₂ Nest.mk hf hc]
    exact .beginConstructedTag
  | endConstructedTag tag =>
    have hm : s.masters ≠ [] := by
      intro hm
      obtain ⟨_, s₁, hp, -, -, -, hlen⟩ := @psDynBufPrependSize_spec grow ok s _ hi hw
      have hlen' : s.top.buf.end - s.top.buf.start = (content s.heap s.top.buf).length := by simp [content]
      rw [hm, List.length_nil, List.length_eq_zero] at hlen
      simp only [dynStep, psDynBufEndConstructedTag, Option.bind_eq_bind, hlen', hp, Option.some_bind] at h
      split_ifs at h <;> simp [psDynBufSubFinish, hlen] at h
    obtain ⟨_, _, he, hok, -⟩ := @psDynBufEndConstructedTag_spec grow ok s tag hi hm hw
    obtain ⟨rfl, rfl⟩ := some_inj_pair h he
    obtain ⟨hi', ⟨pre, post, hf, hc⟩, -⟩ := hok hs
    refine ⟨hi', ?_⟩
    rw [show view s = ⟨_, _⟩ from congrArg₂ Nest.mk hf rfl, show view s' = ⟨_, _⟩ from congrArg₂ Nest.mk rfl hc]
    exact .endConstructedTag tag

/-- Every successful run whose sums do not wrap keeps the invariant, and is a run
of the stack. -/
theorem dynRun_refines {ops : List (DynOp × Bool)} :
    ∀ {s s' : DynState}, ChainInv s → DynRunOk grow (SizeNoWrap grow) s ops s' →
      ChainInv s' ∧ NestRun (view s) (ops.map Prod.fst) (view s') := by
  induction ops with
  | nil => rintro s s' hi ⟨⟩; exact ⟨hi, .nil _⟩
  | cons p ops ih =>
    rintro s s' hi (_ | ⟨hw, hst, hs, hr⟩)
    obtain ⟨hi₁, hstep⟩ := dynStep_refines hi hw hst hs
    obtain ⟨hi', hrun⟩ := ih hi₁ hr
    exact ⟨hi', .cons hstep hrun⟩

end Refines

theorem psDynBufInit_inv (h : Heap) (pool cap : Nat) :
    ChainInv (psDynBufInit true h pool cap).2 ∧ view (psDynBufInit true h pool cap).2 = ⟨[], []⟩ := by
  have hn := h.next_pos
  have hne : h.next ≠ 0 := by omega
  refine ⟨⟨⟨le_rfl, le_rfl, ?_⟩, ?_, fun _ h => absurd h (List.not_mem_nil _), ?_⟩, ?_⟩ <;>
    simp [psDynBufInit, psBufInit, Heap.psMalloc, hne, view, content, frames, rootOf, hn]

section FromInit

variable {grow : Nat}

/-- Every chain that a successful run from `psDynBufInit` reaches, with no sum
that wraps, `size_t` or pointer, and any number of `psDynBufGrow`s at any
depth: every buffer is in order, and every open sub-buffer has no pool and its
whole region inside its master's content, so `assert_subbuf` passes; every
operation keeps that and is one step of the stack, so the masters' bytes around
the open sub-buffer are kept except where one is opened or finished; and an
append of `sz` bytes returns the first of them, at the end of the old content, a
prepend the first of them, at the new start; and the machine's checks on the
fast paths are the model's. -/
theorem dyn_runs_refine_nest :
    (∀ h pool cap ops s', DynRunOk grow (NoWrap grow) (psDynBufInit true h pool cap).2 ops s' →
      ChainInv s' ∧ (∀ m ms, s'.masters = m :: ms → ∀ h', (assertSubbuf h' s'.top m).isSome) ∧
        NestRun ⟨[], []⟩ (ops.map Prod.fst) (view s')) ∧
    (∀ s op ok loc s', ChainInv s → NoWrap grow s op → dynStep grow ok s op = some (loc, s') →
      op.Succeeded loc → ChainInv s' ∧ NestStep (view s) op (view s')) ∧
    (∀ s sz ok loc s', ChainInv s → NoWrap grow s (.appendSize sz) →
      psDynBufAppendSize grow ok s sz = some (loc, s') → loc ≠ 0 →
        loc + sz = s'.top.buf.end ∧ content s'.heap s'.top.buf = content s.heap s.top.buf ++ s'.heap.read loc sz) ∧
    (∀ s sz ok loc s', ChainInv s → NoWrap grow s (.prependSize sz) →
      psDynBufPrependSize grow ok s sz = some (loc, s') → loc ≠ 0 →
        loc = s'.top.buf.start ∧ content s'.heap s'.top.buf = s'.heap.read loc sz ++ content s.heap s.top.buf) ∧
    (∀ s sz, ChainInv s → NoWrap grow s (.appendSize sz) →
      psBufAppendSize64 s.top.buf sz = psBufAppendSize s.top.buf sz) ∧
    (∀ s sz, ChainInv s → NoWrap grow s (.prependSize sz) →
      psBufPrependSize64 s.top.buf sz = psBufPrependSize s.top.buf sz) := by
  refine ⟨fun h pool cap ops s' hr => ?_, fun _ _ _ _ _ hi hw h hs => dynStep_refines hi hw.1 h hs,
    fun s sz ok loc s' hi hw h h0 => ?_, fun s sz ok loc s' hi hw h h0 => ?_,
    fun s sz hi hw => psBufAppendSize64_eq (hi.chain.end_le_root.trans_lt hw.2.1) hw.2.2,
    fun s sz hi hw => psBufPrependSize64_eq ?_ hw.2.2⟩
  · obtain ⟨hi0, hv0⟩ := psDynBufInit_inv h pool cap
    obtain ⟨hi', hrun⟩ := dynRun_refines hi0 (hr.mono fun _ _ hw => hw.1)
    refine ⟨hi', fun m ms hm h' => ?_, hv0 ▸ hrun⟩
    have hc : ChainOk s'.top (m :: ms) := hm ▸ hi'.chain
    rw [assertSubbuf_of_ok hc.2.1]
    rfl
  · obtain ⟨_, _, he, hok, -⟩ := @psDynBufAppendSize_spec grow ok s sz hi hw.1
    obtain ⟨rfl, rfl⟩ := some_inj_pair h he
    obtain ⟨e, hend⟩ := hok h0
    exact ⟨hend, e.content_eq⟩
  · obtain ⟨_, _, he, hok, -⟩ := @psDynBufPrependSize_spec grow ok s sz hi hw.1
    obtain ⟨rfl, rfl⟩ := some_inj_pair h he
    obtain ⟨e, hstart⟩ := hok h0
    exact ⟨hstart, e.content_eq⟩
  · obtain ⟨-, h2, h3⟩ := hi.chain.bufOk
    exact ((h2.trans h3).trans hi.chain.end_le_root).trans_lt hw.2.1

theorem dyn_runs_refine_nest_root_append :
    psDynBufAppendSize 8 true ⟨⟨fun _ => 0, 30, by decide⟩, ⟨⟨1, 1, 1, 29⟩, 7, 0⟩, []⟩ 3 =
        some (1, ⟨⟨fun _ => 0, 30, by decide⟩, ⟨⟨1, 1, 4, 29⟩, 7, 0⟩, []⟩) ∧
      1 + 3 = 4 ∧ content (⟨fun _ => 0, 30, by decide⟩ : Heap) ⟨1, 1, 4, 29⟩ =
        content (⟨fun _ => 0, 30, by decide⟩ : Heap) ⟨1, 1, 1, 29⟩ ++
          (⟨fun _ => 0, 30, by decide⟩ : Heap).read 1 3 := by
  have hi : ChainInv ⟨⟨fun _ => 0, 30, by decide⟩, ⟨⟨1, 1, 1, 29⟩, 7, 0⟩, []⟩ :=
    ⟨show BufOk _ from ⟨by decide, by decide, by decide⟩, rfl, fun _ h => absurd h (List.not_mem_nil _),
      by decide⟩
  have he : psDynBufAppendSize 8 true ⟨⟨fun _ => 0, 30, by decide⟩, ⟨⟨1, 1, 1, 29⟩, 7, 0⟩, []⟩ 3 =
      some (1, ⟨⟨fun _ => 0, 30, by decide⟩, ⟨⟨1, 1, 4, 29⟩, 7, 0⟩, []⟩) := rfl
  exact ⟨he, (@dyn_runs_refine_nest 8).2.2.1 _ 3 true 1 _ hi (by decide) he (by decide)⟩

end FromInit

end MatrixSsl
