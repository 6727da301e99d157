import MatrixSsl.Buf.Cursor

/-!
# Errors reach the root

A parse buffer that fails counts it in its own error count, and
`psParseBufFinish` on a child in error counts one error in its parent, so a
caller can check the root once at the end. `ErrStep` says once what a cursor
step does to the error counts; from it no count goes negative, and no step but
`psParseBufCancel` takes the last error away (`ErrStep.failed`).
`nested_failure_reaches_root` carries this to the code through the cursor view.
-/

namespace MatrixSsl

namespace CursorState

/-- Some open cursor has counted an error. -/
def Failed (s : CursorState) : Prop := 0 < s.top.err ∨ ∃ e ∈ s.up, 0 < e.2.err

/-- No error count is negative. -/
def NonNeg (s : CursorState) : Prop := 0 ≤ s.top.err ∧ ∀ e ∈ s.up, 0 ≤ e.2.err

instance : DecidablePred CursorState.Failed := fun s => by
  unfold CursorState.Failed
  infer_instance

instance : DecidablePred CursorState.NonNeg := fun s => by
  unfold CursorState.NonNeg
  infer_instance

end CursorState

/-- The operations that record in an error count that the tag or bytes asked for
were not there: all but the two `Try` skips, `psParseBufFinish` and
`psParseBufCancel`. -/
def ParseOp.Counts : ParseOp → Bool
  | .tryReadTagSub _ | .readTagSub _ | .readTagRef _ | .skipTag _ | .skipBytes _ => true
  | _ => false

/-- What a step does to the error counts: opening a child pushes the parent with
its count not lowered; finishing pops the child and adds one to its parent's count
when the child is in error; cancelling pops the child and forgets its count; every
other operation keeps the stack and does not lower the innermost count. -/
def ErrStep (s : CursorState) : ParseOp → CursorState → Prop
  | .tryReadTagSub _, s' | .readTagSub _, s' =>
    0 ≤ s'.top.err ∧ ∃ k p, s'.up = (k, p) :: s.up ∧ s.top.err ≤ p.err
  | .finish, s' => ∃ k p, s.up = (k, p) :: s'.up ∧ s'.top.err = if s.top.err = 0 then p.err else p.err + 1
  | .cancel, s' => ∃ k, s.up = (k, s'.top) :: s'.up
  | _, s' => s'.up = s.up ∧ s.top.err ≤ s'.top.err

@[simp] theorem Cursor.skip_err (c : Cursor) (n : Nat) : (c.skip n).err = c.err := rfl

@[simp] theorem Cursor.fail_err (c : Cursor) : c.fail.err = c.err + 1 := rfl

theorem Cursor.child_err_nonneg (tag : UInt8) (u : List UInt8) : 0 ≤ (Cursor.child tag u).err := by
  unfold Cursor.child
  split
  split_ifs <;> simp

section Errors

variable {s s' : CursorState} {n : Nat}

theorem cursorStep_errStep {op : ParseOp} (h : cursorStep s op = some (n, s')) : ErrStep s op s' := by
  obtain ⟨top, up⟩ := s
  cases op <;> simp only [cursorStep] at h
  case tryReadTagSub tag =>
    cases h
    exact ⟨Cursor.child_err_nonneg _ _, _, _, rfl, le_rfl⟩
  case readTagSub tag =>
    split_ifs at h <;> cases h
    · exact ⟨zero_le_one, _, _, rfl, by simp⟩
    · exact ⟨Cursor.child_err_nonneg _ _, _, _, rfl, le_rfl⟩
  case finish =>
    split at h
    · cases h
    · cases h
      exact ⟨_, _, rfl, by split_ifs <;> simp⟩
  case cancel =>
    split at h
    · cases h
    · cases h
      exact ⟨_, rfl⟩
  all_goals
    cases h
    refine ⟨rfl, ?_⟩
    try split_ifs
    all_goals simp

theorem ErrStep.nonNeg {op : ParseOp} (hs : s.NonNeg) (h : ErrStep s op s') : s'.NonNeg := by
  obtain ⟨ht, hup⟩ := hs
  cases op
  case tryReadTagSub | readTagSub =>
    obtain ⟨h0, k, p, hu, hle⟩ := h
    refine ⟨h0, fun e he => ?_⟩
    rw [hu, List.mem_cons] at he
    rcases he with rfl | he
    exacts [ht.trans hle, hup e he]
  case finish =>
    obtain ⟨k, p, hu, he⟩ := h
    have hp : 0 ≤ p.err := hup (k, p) (by simp [hu])
    refine ⟨?_, fun e he' => hup e (by simp [hu, he'])⟩
    rw [he]
    split_ifs <;> linarith
  case cancel =>
    obtain ⟨k, hu⟩ := h
    exact ⟨hup (k, s'.top) (by simp [hu]), fun e he => hup e (by simp [hu, he])⟩
  all_goals
    obtain ⟨hu, hle⟩ := h
    exact ⟨ht.trans hle, hu ▸ hup⟩

theorem ErrStep.failed {op : ParseOp} (hs : s.NonNeg) (hop : op ≠ .cancel) (h : ErrStep s op s')
    (hf : s.Failed) : s'.Failed := by
  obtain ⟨ht, hup⟩ := hs
  cases op
  case tryReadTagSub | readTagSub =>
    obtain ⟨-, k, p, hu, hle⟩ := h
    refine .inr ?_
    rcases hf with hf | ⟨e, he, hf⟩
    · exact ⟨(k, p), by simp [hu], lt_of_lt_of_le hf hle⟩
    · exact ⟨e, by simp [hu, he], hf⟩
  case finish =>
    obtain ⟨k, p, hu, he⟩ := h
    have hp : 0 ≤ p.err := hup (k, p) (by simp [hu])
    rcases hf with hf | ⟨e, he', hf⟩
    · exact .inl (by rw [he, if_neg hf.ne']; linarith)
    · rw [hu, List.mem_cons] at he'
      rcases he' with rfl | he'
      · exact .inl (by rw [he]; split_ifs <;> simp only at hf <;> linarith)
      · exact .inr ⟨e, he', hf⟩
  case cancel => exact absurd rfl hop
  all_goals
    obtain ⟨hu, hle⟩ := h
    rcases hf with hf | hf
    · exact .inl (lt_of_lt_of_le hf hle)
    · exact .inr (hu ▸ hf)

theorem cursorStep_zero_failed {op : ParseOp} (hs : s.NonNeg) (hop : op.Counts)
    (h : cursorStep s op = some (0, s')) : s'.Failed := by
  obtain ⟨top, up⟩ := s
  obtain ⟨ht, -⟩ := hs
  cases op <;> simp only [ParseOp.Counts, Bool.false_eq_true] at hop <;>
    simp only [cursorStep, Option.some.injEq, Prod.mk.injEq] at h
  case tryReadTagSub tag =>
    obtain ⟨hn, rfl⟩ := h
    exact .inl (by rw [Cursor.child_err_of_eq hn]; exact one_pos)
  case readTagSub tag =>
    split_ifs at h with hn <;> simp only [Option.some.injEq, Prod.mk.injEq] at h
    · obtain ⟨-, rfl⟩ := h
      exact .inl one_pos
    · exact absurd h.1 hn
  all_goals
    obtain ⟨hn, rfl⟩ := h
    refine .inl ?_
    simp only [hn, if_true, Cursor.fail_err]
    linarith

theorem cursorRun_failed {ops : List ParseOp} (hops : .cancel ∉ ops) :
    ∀ {s s' : CursorState}, s.NonNeg → s.Failed → cursorRun s ops = some s' → s'.Failed := by
  induction ops with
  | nil =>
    rintro s s' - hf ⟨⟩
    exact hf
  | cons op ops ih =>
    intro s s' hs hf h
    obtain ⟨⟨n, r⟩, hr, hrun⟩ := Option.bind_eq_some.1 h
    have hstep := cursorStep_errStep hr
    exact ih (fun h => hops (List.mem_cons_of_mem _ h)) (hstep.nonNeg hs)
      (hstep.failed hs (fun h => hops (h ▸ List.mem_cons_self _ _)) hf) hrun

end Errors

theorem ParseChainOk.view_nonNeg {a len : Nat} {bs : List UInt8} :
    ∀ {c : PsParseBuf} {up : List (Nat × PsParseBuf)}, ParseChainOk a len c up →
      (ParseState.view a bs ⟨c, up⟩).NonNeg
  | _, [], h => ⟨h.2.2.1, by simp [ParseState.view]⟩
  | _, (n, p) :: up, ⟨hc, _, hrest⟩ => by
    obtain ⟨hp, hup⟩ := @ParseChainOk.view_nonNeg a len bs _ _ hrest
    refine ⟨hc.2.2.1, ?_⟩
    simp only [ParseState.view, List.map_cons, List.mem_cons] at hup ⊢
    rintro e (rfl | he)
    exacts [hp, hup e he]

/-- Errors reach the root. Along every run of parse operations over an input
wrapped by `psParseBufFromStaticData`: an operation that counts its failures and
returns `0` leaves some open buffer in error, and once some open buffer is in
error, every continuation that cancels nothing and finishes every open child
ends with the root in error. -/
theorem nested_failure_reaches_root {m : Mem} {data : Nat} {bs : List UInt8} (hm : Holds m data bs)
    {ops : List ParseOp} {s : ParseState} (hrun : parseRun m (parseInit data bs.length) ops = some s) :
    (∀ op s', op.Counts → parseStep m s op = some (0, s') → (s'.view data bs).Failed) ∧
      (∀ ops' s', (s.view data bs).Failed → .cancel ∉ ops' → parseRun m s ops' = some s' →
        s'.up = [] → 0 < s'.top.err) := by
  have hs := parseRun_inv hm (parseInit_inv data bs.length) hrun
  have hnn : (s.view data bs).NonNeg := ParseChainOk.view_nonNeg hs
  refine ⟨fun op s' hop h => ?_, fun ops' s' hf hops h hup => ?_⟩
  · have hstep := parseStep_refines hm hs op
    rw [h] at hstep
    exact cursorStep_zero_failed hnn hop hstep.symm
  · have hrun' : (parseRun m s ops').map (ParseState.view data bs) = cursorRun (s.view data bs) ops' :=
      parseRun_refines hm hs
    rw [h] at hrun'
    rcases cursorRun_failed hops hnn hf hrun'.symm with h0 | ⟨e, he, _⟩
    · exact h0
    · simp [ParseState.view, hup] at he

theorem nested_failure_reaches_root_sequence :
    ∃ s, parseRun (Mem.ofList [0, 0x30, 3, 2, 1, 5]) (parseInit 1 5) [.readTagSub 0x30] = some s ∧
      (∀ op s', op.Counts → parseStep (Mem.ofList [0, 0x30, 3, 2, 1, 5]) s op = some (0, s') →
        (s'.view 1 [0x30, 3, 2, 1, 5]).Failed) ∧
      (∀ ops' s', (s.view 1 [0x30, 3, 2, 1, 5]).Failed → .cancel ∉ ops' →
        parseRun (Mem.ofList [0, 0x30, 3, 2, 1, 5]) s ops' = some s' → s'.up = [] → 0 < s'.top.err) :=
  ⟨_, rfl, @nested_failure_reaches_root (Mem.ofList [0, 0x30, 3, 2, 1, 5]) 1 [0x30, 3, 2, 1, 5]
    (by simpa using (holds_ofList [0, 0x30, 3, 2, 1, 5]).drop 1) [.readTagSub 0x30] _ rfl⟩

/-- A missing tag inside a SEQUENCE: the child counts it, and finishing the child
leaves the root unmoved and in error. -/
example : cursorRun ⟨⟨[0x30, 3, 2, 1, 5], 0⟩, []⟩ [.readTagSub 0x30, .skipTag 4, .finish] =
    some ⟨⟨[0x30, 3, 2, 1, 5], 1⟩, []⟩ := by decide

end MatrixSsl
