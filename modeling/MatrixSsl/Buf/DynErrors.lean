import MatrixSsl.Buf.Sticky

/-!
# Errors reach the root: dynamic buffers

A dynamic buffer that fails counts it in its own error count, and
`psDynBufSubFinish` adds a sub-buffer's count to its master's. `ErrsStep` says
once what an operation may do to the counts of the open buffers: raise some,
open a buffer with a count of at least `0`, or close the innermost buffer into
its master with at least the sum of the two. Counts that are never negative keep
a positive count through every such step, so a failure anywhere is seen at the
root once every sub-buffer is closed (`dyn_failure_reaches_root`). What defeats
this is a sub-buffer struct that still holds a negative count when it is handed
to `psDynBufSubInitAt`, which increments that count rather than setting it.
-/

namespace MatrixSsl

/-- The error counts of the open buffers, innermost first. -/
def DynState.errs (s : DynState) : List Int := (s.top :: s.masters).map (·.err)

/-- Some open buffer has counted an error. -/
def ErrsFailed (xs : List Int) : Prop := ∃ e ∈ xs, 0 < e

/-- No count is negative. -/
def ErrsNonNeg (xs : List Int) : Prop := ∀ e ∈ xs, 0 ≤ e

theorem DynState.top_mem_errs (s : DynState) : s.top.err ∈ s.errs := List.mem_cons_self _ _

/-- Counts one for one, none lower. -/
abbrev ErrsLe : List Int → List Int → Prop := List.Forall₂ (· ≤ ·)

/-- What an operation may do to the error counts of the open buffers: raise
some; or open a buffer with a count of at least `0` and raise some of the
others; or close the innermost buffer into its master, whose count becomes at
least the sum of the two, and raise some of the others. -/
inductive ErrsStep : List Int → List Int → Prop
  | keep {xs ys : List Int} : ErrsLe xs ys → ErrsStep xs ys
  | push {xs ys : List Int} {e : Int} : 0 ≤ e → ErrsLe xs ys → ErrsStep xs (e :: ys)
  | pop {xs ys : List Int} {e₀ e₁ e : Int} : e₁ + e₀ ≤ e → ErrsLe xs ys →
      ErrsStep (e₀ :: e₁ :: xs) (e :: ys)

theorem ErrsLe.refl : ∀ xs : List Int, ErrsLe xs xs
  | [] => .nil
  | _ :: xs => .cons le_rfl (ErrsLe.refl xs)

theorem ErrsLe.trans {xs ys zs : List Int} (h₁ : ErrsLe xs ys) (h₂ : ErrsLe ys zs) : ErrsLe xs zs := by
  induction h₁ generalizing zs with
  | nil => cases h₂; exact .nil
  | cons hab _ ih =>
    cases h₂ with
    | cons hbc h₂ => exact .cons (hab.trans hbc) (ih h₂)

theorem ErrsStep.le_left {xs xs' ys : List Int} (h : ErrsLe xs xs') (h' : ErrsStep xs' ys) :
    ErrsStep xs ys := by
  cases h' with
  | keep h' => exact .keep (ErrsLe.trans h h')
  | push he h' => exact .push he (ErrsLe.trans h h')
  | pop he h' =>
    obtain _ | ⟨h₀, _ | ⟨h₁, h⟩⟩ := h
    exact .pop (by linarith) (ErrsLe.trans h h')

theorem ErrsStep.le_right {xs ys ys' : List Int} (h : ErrsStep xs ys) (h' : ErrsLe ys ys') :
    ErrsStep xs ys' := by
  cases h with
  | keep h => exact .keep (ErrsLe.trans h h')
  | push he h =>
    obtain _ | ⟨he', h'⟩ := h'
    exact .push (he.trans he') (ErrsLe.trans h h')
  | pop he h =>
    obtain _ | ⟨he', h'⟩ := h'
    exact .pop (he.trans he') (ErrsLe.trans h h')

section Counts

variable {xs ys : List Int}

theorem ErrsLe.nonNeg (h : ErrsLe xs ys) (hx : ErrsNonNeg xs) : ErrsNonNeg ys := by
  induction h with
  | nil => simp [ErrsNonNeg]
  | cons hab _ ih =>
    simp only [ErrsNonNeg, List.mem_cons, forall_eq_or_imp] at hx ⊢
    exact ⟨hx.1.trans hab, ih hx.2⟩

theorem ErrsLe.failed (h : ErrsLe xs ys) (hx : ErrsFailed xs) : ErrsFailed ys := by
  induction h with
  | nil => simp [ErrsFailed] at hx
  | cons hab _ ih =>
    simp only [ErrsFailed, List.mem_cons, exists_eq_or_imp] at hx ⊢
    exact hx.imp (fun h => h.trans_le hab) ih

theorem ErrsStep.nonNeg (h : ErrsStep xs ys) (hx : ErrsNonNeg xs) : ErrsNonNeg ys := by
  cases h with
  | keep h => exact ErrsLe.nonNeg h hx
  | push he h => exact List.forall_mem_cons.2 ⟨he, ErrsLe.nonNeg h hx⟩
  | pop he h =>
    simp only [ErrsNonNeg, List.mem_cons, forall_eq_or_imp] at hx
    exact List.forall_mem_cons.2 ⟨by linarith [hx.1, hx.2.1], ErrsLe.nonNeg h hx.2.2⟩

theorem ErrsStep.failed (h : ErrsStep xs ys) (hx : ErrsNonNeg xs) (hf : ErrsFailed xs) :
    ErrsFailed ys := by
  cases h with
  | keep h => exact ErrsLe.failed h hf
  | push _ h => exact (ErrsLe.failed h hf).imp fun e he => ⟨List.mem_cons_of_mem _ he.1, he.2⟩
  | pop he h =>
    simp only [ErrsNonNeg, ErrsFailed, List.mem_cons, forall_eq_or_imp, exists_eq_or_imp] at hx hf ⊢
    rcases hf with h₀ | h₁ | hf
    · exact .inl (by linarith [hx.2.1])
    · exact .inl (by linarith [hx.1])
    · exact .inr (ErrsLe.failed h hf)

end Counts

section Grow

variable (grow : Nat) (ok : Bool)

theorem psDynBufGrow_errs {ms : List DynBuf} : ∀ {h : Heap} {db : DynBuf} {head tail loc : Nat}
    {g : DynState}, psDynBufGrow grow ok h db ms head tail = some (loc, g) →
      ErrsLe (⟨h, db, ms⟩ : DynState).errs g.errs ∧ (loc = 0 → 0 ≤ db.err → 0 < g.top.err) := by
  induction ms with
  | nil =>
    intro h db head tail loc g hg
    by_cases herr : db.err = 0
    swap
    · rw [psDynBufGrow_of_err herr] at hg
      obtain ⟨rfl, rfl⟩ := Prod.mk.inj (Option.some.inj hg)
      exact ⟨ErrsLe.refl _, fun _ h0 => lt_of_le_of_ne h0 (Ne.symm herr)⟩
    · simp only [psDynBufGrow, herr, ne_eq, not_true_eq_false, if_false] at hg
      split_ifs at hg with hnew
      · cases hg
        exact ⟨.cons (by simp [herr]) .nil, fun _ _ => by simp⟩
      · obtain ⟨new, -, hg⟩ := Option.bind_eq_some.1 hg
        split_ifs at hg with hloc
        cases hg
        exact ⟨.cons (by simp [herr]) .nil, fun h0 => absurd h0 hloc⟩
  | cons master ms ih =>
    intro h db head tail loc g hg
    by_cases herr : db.err = 0
    swap
    · rw [psDynBufGrow_of_err herr] at hg
      obtain ⟨rfl, rfl⟩ := Prod.mk.inj (Option.some.inj hg)
      exact ⟨ErrsLe.refl _, fun _ h0 => lt_of_le_of_ne h0 (Ne.symm herr)⟩
    rw [psDynBufGrow.eq_2] at hg
    simp only [herr, ne_eq, not_true_eq_false, if_false] at hg
    obtain ⟨h1, -, hg⟩ := Option.bind_eq_some.1 hg
    obtain ⟨⟨loc', g'⟩, hg', hg⟩ := Option.bind_eq_some.1 hg
    obtain ⟨hle, -⟩ := ih hg'
    by_cases hloc : loc' = 0
    · rw [if_pos hloc] at hg
      obtain ⟨h2, -, hg⟩ := Option.bind_eq_some.1 hg
      cases hg
      exact ⟨.cons (by simp [herr]) hle, fun _ _ => by simp⟩
    · rw [if_neg hloc] at hg
      obtain ⟨h2, -, hg⟩ := Option.bind_eq_some.1 hg
      cases hg
      exact ⟨.cons (by simp [herr]) hle, fun h0 => absurd h0 hloc⟩

theorem psDynBufAppendSize_errs {s s' : DynState} {sz loc : Nat}
    (h : psDynBufAppendSize grow ok s sz = some (loc, s')) :
    ErrsLe s.errs s'.errs ∧ (loc = 0 → 0 ≤ s.top.err → 0 < s'.top.err) := by
  simp only [psDynBufAppendSize] at h
  split_ifs at h with hfast
  · cases h
    exact ⟨ErrsLe.refl _, fun h0 => absurd h0 hfast⟩
  · obtain ⟨⟨g, sg⟩, hg, h⟩ := Option.bind_eq_some.1 h
    obtain ⟨hle, hnull⟩ := psDynBufGrow_errs grow ok hg
    split_ifs at h with hg0 hloc
    · cases h
      exact ⟨hle, fun _ => hnull hg0⟩
    · cases h
      exact ⟨hle, fun h0 => absurd h0 hloc⟩

theorem psDynBufPrependSize_errs {s s' : DynState} {sz loc : Nat}
    (h : psDynBufPrependSize grow ok s sz = some (loc, s')) :
    ErrsLe s.errs s'.errs ∧ (loc = 0 → 0 ≤ s.top.err → 0 < s'.top.err) := by
  simp only [psDynBufPrependSize] at h
  split_ifs at h with hfast
  · cases h
    exact ⟨ErrsLe.refl _, fun h0 => absurd h0 hfast⟩
  · obtain ⟨⟨g, sg⟩, hg, h⟩ := Option.bind_eq_some.1 h
    obtain ⟨hle, hnull⟩ := psDynBufGrow_errs grow ok hg
    split_ifs at h with hg0 hloc
    · cases h
      exact ⟨hle, fun _ => hnull hg0⟩
    · cases h
      exact ⟨hle, fun h0 => absurd h0 hloc⟩

theorem psDynBufAppendUtf8_errs {s s' : DynState} {chr : Int} {loc : Nat}
    (h : psDynBufAppendUtf8 grow ok s chr = some (loc, s')) :
    ErrsLe s.errs s'.errs ∧ (loc = 0 → 0 ≤ s.top.err → 0 < s'.top.err) := by
  simp only [psDynBufAppendUtf8] at h
  split_ifs at h with hch
  · cases h
    exact ⟨.cons (by simp) (ErrsLe.refl _), fun _ h0 => by simp only; linarith⟩
  · obtain ⟨⟨enc, s1⟩, h1, h⟩ := Option.bind_eq_some.1 h
    obtain ⟨hle, hnull⟩ := psDynBufAppendSize_errs grow ok h1
    split_ifs at h with henc
    · cases h
      exact ⟨hle, fun _ => hnull henc⟩
    · cases h
      exact ⟨hle, fun h0 => absurd h0 henc⟩

theorem psDynBufAppendAsn1TagGen_errs {s s' : DynState} {tag : UInt8} {bytes : List UInt8} {loc : Nat}
    (h : psDynBufAppendAsn1TagGen grow ok s tag bytes = some (loc, s')) :
    ErrsLe s.errs s'.errs ∧ (loc = 0 → 0 ≤ s.top.err → 0 < s'.top.err) := by
  simp only [psDynBufAppendAsn1TagGen] at h
  obtain ⟨⟨t, s1⟩, h1, h⟩ := Option.bind_eq_some.1 h
  obtain ⟨hle, hnull⟩ := psDynBufAppendSize_errs grow ok h1
  split_ifs at h with ht
  · cases h
    exact ⟨hle, fun _ => hnull ht⟩
  · cases h
    exact ⟨hle, fun h0 => absurd h0 ht⟩

theorem psDynBufSubInit_errs {s s' : DynState} {cap loc : Nat}
    (h : psDynBufSubInit grow ok s cap = some (loc, s')) :
    ErrsStep s.errs s'.errs ∧ (loc = 0 → 0 < s'.top.err) := by
  simp only [psDynBufSubInit] at h
  obtain ⟨⟨mem, s1⟩, h1, h⟩ := Option.bind_eq_some.1 h
  have hle := (psDynBufAppendSize_errs grow ok h1).1
  split_ifs at h with hmem
  · obtain ⟨h2, -, h⟩ := Option.bind_eq_some.1 h
    cases h
    exact ⟨.push le_rfl hle, fun h0 => absurd h0 hmem⟩
  · cases h
    exact ⟨.push zero_le_one (ErrsLe.trans hle (.cons (by simp) (ErrsLe.refl _))), fun _ => one_pos⟩

end Grow

theorem psDynBufSubInitAt_errs {s s' : DynState} {sub : DynBuf} {«at» length loc : Nat}
    (hsub : 0 ≤ sub.err) (h : psDynBufSubInitAt s sub «at» length = some (loc, s')) :
    ErrsStep s.errs s'.errs := by
  simp only [psDynBufSubInitAt] at h
  split_ifs at h with hc
  · obtain ⟨h2, -, h⟩ := Option.bind_eq_some.1 h
    cases h
    exact .push le_rfl (ErrsLe.refl _)
  · cases h
    exact .push (show (0 : Int) ≤ sub.err + 1 by linarith) (.cons (by simp) (ErrsLe.refl _))

theorem psDynBufSubFinish_errs {s s' : DynState} {loc : Nat} (h : psDynBufSubFinish s = some (loc, s')) :
    ErrsStep s.errs s'.errs := by
  obtain ⟨heap, top, _ | ⟨db, ms⟩⟩ := s
  · cases h
  simp only [psDynBufSubFinish] at h
  by_cases herr : top.err = 0
  · rw [if_neg (not_not.2 herr)] at h
    obtain ⟨h2, -, h⟩ := Option.bind_eq_some.1 h
    cases h
    exact .pop (by simp [herr]) (ErrsLe.refl _)
  · rw [if_pos herr] at h
    cases h
    exact .pop le_rfl (ErrsLe.refl _)

theorem psDynBufReservePrepend_errs {s s' : DynState} {sz : Nat}
    (h : psDynBufReservePrepend s sz = some s') : s'.errs = s.errs := by
  simp only [psDynBufReservePrepend] at h
  split_ifs at h
  · obtain ⟨b, -, h⟩ := Option.bind_eq_some.1 h
    cases h
    rfl
  · cases h
    rfl

/-- The sub-buffer struct an operation hands to `psDynBufSubInitAt` holds a count
of at least `0`, as a zeroed struct does. -/
def DynOp.SubNonNeg : DynOp → Bool
  | .subInitAt sub _ _ => decide (0 ≤ sub.err)
  | _ => true

/-- The operations whose `NULL` says that they failed. `psDynBufSubInitAt` is
left out: on success it returns the address `start + at` of the sub-buffer,
which only the chain invariant keeps away from `0`. -/
def DynOp.Reports : DynOp → Bool
  | .appendSize _ | .prependSize _ | .appendUtf8 _ | .appendAsn1TagGen _ _ | .subInit _
  | .beginConstructedTag | .endConstructedTag _ => true
  | _ => false

theorem failed_of_top {s : DynState} (h : 0 < s.top.err) : ErrsFailed s.errs := ⟨_, s.top_mem_errs, h⟩

section Step

variable (grow : Nat) (ok : Bool)

theorem dynStep_errs {s s' : DynState} {op : DynOp} {loc : Nat} (hop : op.SubNonNeg)
    (h : dynStep grow ok s op = some (loc, s')) :
    ErrsStep s.errs s'.errs ∧ (op.Reports → loc = 0 → ErrsNonNeg s.errs → ErrsFailed s'.errs) := by
  cases op with
  | appendSize sz =>
    obtain ⟨hle, hnull⟩ := psDynBufAppendSize_errs grow ok h
    exact ⟨.keep hle, fun _ h0 hn => failed_of_top (hnull h0 (hn _ s.top_mem_errs))⟩
  | prependSize sz =>
    obtain ⟨hle, hnull⟩ := psDynBufPrependSize_errs grow ok h
    exact ⟨.keep hle, fun _ h0 hn => failed_of_top (hnull h0 (hn _ s.top_mem_errs))⟩
  | appendUtf8 chr =>
    obtain ⟨hle, hnull⟩ := psDynBufAppendUtf8_errs grow ok h
    exact ⟨.keep hle, fun _ h0 hn => failed_of_top (hnull h0 (hn _ s.top_mem_errs))⟩
  | appendAsn1TagGen tag bytes =>
    obtain ⟨hle, hnull⟩ := psDynBufAppendAsn1TagGen_errs grow ok h
    exact ⟨.keep hle, fun _ h0 hn => failed_of_top (hnull h0 (hn _ s.top_mem_errs))⟩
  | reservePrepend sz =>
    obtain ⟨s'', h', h⟩ := Option.map_eq_some'.1 h
    cases h
    exact ⟨.keep (psDynBufReservePrepend_errs h' ▸ ErrsLe.refl _), fun h => by simp [DynOp.Reports] at h⟩
  | subInit cap =>
    obtain ⟨hst, hnull⟩ := psDynBufSubInit_errs grow ok h
    exact ⟨hst, fun _ h0 _ => failed_of_top (hnull h0)⟩
  | subInitAt sub «at» length =>
    exact ⟨psDynBufSubInitAt_errs (of_decide_eq_true hop) h, fun h => by simp [DynOp.Reports] at h⟩
  | subFinish => exact ⟨psDynBufSubFinish_errs h, fun h => by simp [DynOp.Reports] at h⟩
  | beginConstructedTag =>
    simp only [dynStep, psDynBufBeginConstructedTag] at h
    obtain ⟨⟨t, s1⟩, h1, h⟩ := Option.bind_eq_some.1 h
    obtain ⟨hst, hnull⟩ := psDynBufSubInit_errs grow ok h1
    split_ifs at h with ht
    · obtain ⟨s2, h2, h⟩ := Option.bind_eq_some.1 h
      cases h
      exact ⟨hst.le_right (psDynBufReservePrepend_errs h2 ▸ ErrsLe.refl _), fun _ h0 => absurd h0 ht⟩
    · cases h
      exact ⟨hst, fun _ _ _ => failed_of_top (hnull (not_not.1 ht))⟩
  | endConstructedTag tag =>
    simp only [dynStep, psDynBufEndConstructedTag] at h
    obtain ⟨⟨t, s1⟩, h1, h⟩ := Option.bind_eq_some.1 h
    obtain ⟨hle, hnull⟩ := psDynBufPrependSize_errs grow ok h1
    obtain ⟨⟨r, s3⟩, h3, h⟩ := Option.bind_eq_some.1 h
    cases h
    split_ifs at h3 <;>
    · have hfin := psDynBufSubFinish_errs h3
      exact ⟨hfin.le_left hle, fun _ h0 hn => hfin.failed (ErrsLe.nonNeg hle hn)
        (failed_of_top (hnull h0 (hn _ s.top_mem_errs)))⟩

theorem dynRun_errs {ops : List (DynOp × Bool)} (hops : ∀ p ∈ ops, p.1.SubNonNeg) :
    ∀ {s s' : DynState}, dynRun grow s ops = some s' → ErrsNonNeg s.errs →
      ErrsNonNeg s'.errs ∧ (ErrsFailed s.errs → ErrsFailed s'.errs) := by
  induction ops with
  | nil =>
    rintro s s' ⟨⟩ hn
    exact ⟨hn, id⟩
  | cons p ops ih =>
    intro s s' h hn
    obtain ⟨⟨loc, s1⟩, h1, h⟩ := Option.bind_eq_some.1 h
    have hst := (dynStep_errs grow p.2 (hops p (List.mem_cons_self _ _)) h1).1
    obtain ⟨hn', hf'⟩ := ih (fun q hq => hops q (List.mem_cons_of_mem _ hq)) h (hst.nonNeg hn)
    exact ⟨hn', fun hf => hf' (hst.failed hn hf)⟩

end Step

theorem psDynBufInit_errs (ok : Bool) (h : Heap) (pool cap : Nat) :
    ErrsNonNeg (psDynBufInit ok h pool cap).2.errs := by
  simp only [ErrsNonNeg, DynState.errs, psDynBufInit, List.map_cons, List.map_nil, List.mem_singleton,
    forall_eq]
  split_ifs <;> simp

/-- Dynamic-buffer failures reach the root. Take any run from `psDynBufInit` in
which every sub-buffer struct handed to `psDynBufSubInitAt` holds a count of at
least `0`. An operation that reports its failure by returning `NULL`
(`psDynBufAppendSize`, `psDynBufPrependSize`, `psDynBufAppendUtf8`,
`psDynBufAppendAsn1TagGen`, `psDynBufSubInit`, `psDynBufBeginConstructedTag`,
`psDynBufEndConstructedTag`) leaves some open buffer with a positive count. Once
some open buffer has one, every continuation of the same kind that closes every
sub-buffer ends with the root's count positive, and `psDynBufDetach` on the root
returns `NULL`. -/
theorem dyn_failure_reaches_root {grow : Nat} {ok : Bool} {h : Heap} {pool cap : Nat}
    {ops : List (DynOp × Bool)} {s : DynState} (hops : ∀ p ∈ ops, p.1.SubNonNeg)
    (hrun : dynRun grow (psDynBufInit ok h pool cap).2 ops = some s) :
    (∀ op ok' s', op.SubNonNeg → op.Reports → dynStep grow ok' s op = some (0, s') →
      ErrsFailed s'.errs) ∧
    (∀ ops' s', ErrsFailed s.errs → (∀ p ∈ ops', p.1.SubNonNeg) → dynRun grow s ops' = some s' →
      s'.masters = [] → 0 < s'.top.err ∧ ∀ ok', (psDynBufDetach ok' s'.heap s'.top).1 = 0) := by
  have hn := (dynRun_errs grow hops hrun (psDynBufInit_errs ok h pool cap)).1
  refine ⟨fun op ok' s' hop hrep h => (dynStep_errs grow ok' hop h).2 hrep rfl hn,
    fun ops' s' hf hops' h hup => ?_⟩
  obtain ⟨-, hf'⟩ := dynRun_errs grow hops' h hn
  obtain ⟨e, he, hpos⟩ := hf' hf
  simp only [DynState.errs, hup, List.map_cons, List.map_nil, List.mem_singleton] at he
  subst he
  exact ⟨hpos, fun ok' => by rw [psDynBufDetach_of_err hpos.ne']⟩

/-- A code point above `0x1FFFF` is refused: the root's count goes to `1`, and
`psDynBufDetach` returns `NULL` after any continuation. -/
theorem dyn_failure_reaches_root_utf8 :
    ∃ s, dynRun 8 (psDynBufInit true ⟨fun _ => 0, 1, Nat.one_pos⟩ 7 16).2 [(.appendUtf8 0x20000, true)] =
        some s ∧
      (∀ op ok' s', op.SubNonNeg → op.Reports → dynStep 8 ok' s op = some (0, s') → ErrsFailed s'.errs) ∧
      (∀ ops' s', ErrsFailed s.errs → (∀ p ∈ ops', p.1.SubNonNeg) → dynRun 8 s ops' = some s' →
        s'.masters = [] → 0 < s'.top.err ∧ ∀ ok', (psDynBufDetach ok' s'.heap s'.top).1 = 0) :=
  ⟨_, rfl, @dyn_failure_reaches_root 8 true ⟨fun _ => 0, 1, Nat.one_pos⟩ 7 16 [(.appendUtf8 0x20000, true)] _
    (by decide) rfl⟩

/-- A sub-buffer refuses a code point; closing it puts the count in the root. -/
example : (dynRun 8 (psDynBufInit true ⟨fun _ => 0, 1, Nat.one_pos⟩ 7 16).2
    [(.subInit 4, true), (.appendUtf8 0x20000, true), (.subFinish, true)]).map DynState.errs = some [1] := by
  decide

end MatrixSsl
