import MatrixSsl.Asn1.Integer

/-!
# `getAsnOID` and `getAsnAlgorithmIdentifier`

`getAsnOID` reads an OBJECT IDENTIFIER: the tag, a definite length, the sum of
the content bytes as a first guess at the OID's number, refined against the
table of known OIDs by `checkAsnOidDatabase`, and with `checkForParams` the
byte after the content, which tells whether a NULL parameter follows.
`getAsnAlgorithmIdentifier` opens the SEQUENCE around it and hands its content
length to `getAsnOID`.

Three reads are not bounded by `len`: the tag byte is read before `len` is
looked at, the length field of an OID with `len = 0` is read with the size
`(uint32_t)(end - p) = 2^32 - 1`, and the parameter test reads the byte after
an OID that ends the input. `getAsnOID_reads_past_input` exhibits each, for
every OID table.
-/

namespace MatrixSsl.Asn1

/-- Modelled from the spec: the table of `checkAsnOidDatabase` and the constants
`OID_COLLISION` and `OID_NOT_FOUND` are defined in headers that are not part of
the repository. Each `case` of the `switch` pairs a known OID sum with the
`_HEX` string of the OID's encoding (tag, length byte, content). -/
structure OidDb where
  cases : List (Nat × List UInt8)
  collision : Nat
  collision_pos : 0 < collision
  notFound : Nat

/-- The largest OID sum in the table. -/
def OidDb.maxKey (db : OidDb) : Nat := db.cases.foldr (fun c acc => max c.1 acc) 0

theorem OidDb.le_maxKey_of_lookup {cases : List (Nat × List UInt8)} {oi : Nat}
    {hex : List UInt8} (h : cases.lookup oi = some hex) :
    oi ≤ cases.foldr (fun c acc => max c.1 acc) 0 := by
  induction cases with
  | nil => cases h
  | cons c cs ih =>
    obtain ⟨k, v⟩ := c
    simp only [List.lookup, List.foldr_cons] at h ⊢
    by_cases hk : oi = k
    · subst hk; exact le_max_left _ _
    · rw [show (oi == k) = false from beq_false_of_ne hk] at h
      exact le_trans (ih h) (le_max_right _ _)

/-- The `while (1)` loop of `checkAsnOidDatabase`: look the sum up, compare the
content with the table's encoding when the lengths agree, and on a mismatch try
the next multiple of `OID_COLLISION`. It ends because every sum it revisits is
a larger key of the finite table. -/
def checkAsnOidDatabase (db : OidDb) (m : Mem) (oi oidStart oidLen : Nat) : Option Nat :=
  match _hlookup : db.cases.lookup oi with
  | none => some (oi ||| db.notFound)
  | some hex => do
    let same ← (if oidLen = (hex.getD 1 0).toNat then
        (readBytes m oidLen oidStart).map (· == (hex.drop 2).take oidLen)
      else pure false)
    if same then pure oi else checkAsnOidDatabase db m (oi + db.collision) oidStart oidLen
termination_by db.maxKey + 1 - oi
decreasing_by
  have := OidDb.le_maxKey_of_lookup _hlookup
  have := db.collision_pos
  simp only [OidDb.maxKey]
  omega

/-- The values `getAsnOID` leaves in its return value, `*pp`, `*oi` and
`*paramLen` (`none` where it does not write). -/
structure OidOut where
  rc : Rc
  pp : Nat
  oi : Option Nat
  paramLen : Option Nat
  deriving DecidableEq, Repr

/-- The `while (arcLen > 0)` loop: `*oi += *p` over the content. The model does
not wrap the `int32_t` sum, which only an OID of more than 8 MiB would overflow. -/
def sumBytes (m : Mem) : Nat → Nat → Nat → Option Nat
  | 0, _, oi => some oi
  | arcLen + 1, pos, oi => do
    let b ← m pos
    sumBytes m arcLen (pos + 1) (oi + b.toNat)

def getAsnOID (db : OidDb) (m : Mem) (pp len : Nat) (checkForParams : Bool) : Option OidOut :=
  let e : Int := pp + len
  let fail (rc : Rc) (oi paramLen : Option Nat) : Option OidOut := some ⟨rc, pp, oi, paramLen⟩
  do
  let t ← m pp
  if t ≠ asnOid then fail .psParseFail none none else do
  let r ← getAsnLength32 m (pp + 1) ((len + 2 ^ 32 - 1) % 2 ^ 32) false
  if r.rc.neg then fail r.rc none none else
  if e - r.pp < r.len then fail .psLimitFail none none else
  if e - r.pp < 2 then fail .psLimitFail none none else do
  let sum ← sumBytes m r.len r.pp 0
  let oi ← checkAsnOidDatabase db m sum r.pp r.len
  let p := r.pp + r.len
  if checkForParams then do
    -- `plen` is the `int32_t` `end - *pp`, less `end - p`; `*paramLen` is the
    -- `uint32_t` `len - plen` stored in a `uint16_t`
    let plen : Int := toInt32 ((toInt32 len - (e - p)) % 2 ^ 32).toNat
    let paramLen : Nat := ((len - plen) % 2 ^ 32 % 2 ^ 16).toNat
    let b ← m p
    if b ≠ asnNull then some ⟨.psSuccess, p, some oi, some paramLen⟩ else
    if e - p < 2 then fail .psLimitFail (some oi) (some paramLen) else
    if paramLen < 2 then fail .psLimitFail (some oi) (some paramLen) else
    some ⟨.psSuccess, p + 2, some oi, some (paramLen - 2)⟩
  else some ⟨.psSuccess, p, some oi, some 0⟩

/-- `*pp` is set to the cursor that `getAsnOID` leaves, which on its failure is
the start of the SEQUENCE's content. -/
def getAsnAlgorithmIdentifier (db : OidDb) (m : Mem) (pp len : Nat) : Option OidOut :=
  if len < 1 then some ⟨.psParseFail, pp, none, none⟩ else do
  let s ← getAsnSequence32 m pp len 0 false
  if s.rc.neg then some ⟨s.rc, pp, none, none⟩ else
  if (pp + len : Int) - s.pp < 1 then some ⟨.psLimitFail, pp, none, none⟩ else
  getAsnOID db m s.pp s.len true

theorem checkAsnOidDatabase_isSome (db : OidDb) {m : Mem} {s : Nat} {cs : List UInt8}
    (hm : Holds m s cs) (oi : Nat) : (checkAsnOidDatabase db m oi s cs.length).isSome := by
  refine checkAsnOidDatabase.induct db m
    (motive := fun oi s' l => s' = s → l = cs.length → (checkAsnOidDatabase db m oi s' l).isSome)
    ?_ ?_ oi s cs.length rfl rfl
  · rintro oi _ _ h rfl rfl
    rw [checkAsnOidDatabase, h]
    rfl
  · rintro oi _ _ hex h ih rfl rfl
    rw [checkAsnOidDatabase, h]
    simp only [readBytes_eq hm, Option.map_some', Option.bind_eq_bind]
    split_ifs <;> simp only [Option.pure_def, Option.some_bind, ih rfl rfl] <;> split_ifs <;>
      simp [ih rfl rfl]

/-- Whether the table's encoding `hex` is the OID `cs`, as the loop compares them:
the length byte, then `|cs|` content bytes. -/
def OidMatch (cs hex : List UInt8) : Prop :=
  cs.length = (hex.getD 1 0).toNat ∧ (hex.drop 2).take cs.length = cs

instance (cs hex : List UInt8) : Decidable (OidMatch cs hex) :=
  inferInstanceAs (Decidable (_ ∧ _))

/-- The table as the spec describes it: each encoding is a tag, a length byte
below `0x80` and that many content bytes. -/
def OidDb.WellFormed (db : OidDb) : Prop :=
  ∀ oi hex, (oi, hex) ∈ db.cases → ∃ t c, c.length < 0x80 ∧ hex = t :: c.length.toUInt8 :: c

theorem oidMatch_iff {cs : List UInt8} {t : UInt8} {c : List UInt8} (hc : c.length < 0x80) :
    OidMatch cs (t :: c.length.toUInt8 :: c) ↔ c = cs := by
  have hc' : c.length % 256 = c.length := Nat.mod_eq_of_lt (by omega)
  simp only [OidMatch, List.getD_cons_succ, List.getD_cons_zero, toUInt8_toNat, hc',
    List.drop_succ_cons, List.drop_zero]
  constructor
  · rintro ⟨hl, ht⟩
    rwa [hl, List.take_length] at ht
  · rintro rfl
    exact ⟨rfl, List.take_length _⟩

theorem checkAsnOidDatabase_of_lookup_none (db : OidDb) (m : Mem) {oi : Nat} (s l : Nat)
    (h : db.cases.lookup oi = none) :
    checkAsnOidDatabase db m oi s l = some (oi ||| db.notFound) := by
  rw [checkAsnOidDatabase, h]

theorem checkAsnOidDatabase_of_lookup_some (db : OidDb) {m : Mem} {s : Nat} {cs : List UInt8}
    (hm : Holds m s cs) {oi : Nat} {hex : List UInt8} (h : db.cases.lookup oi = some hex) :
    checkAsnOidDatabase db m oi s cs.length =
      if OidMatch cs hex then some oi
      else checkAsnOidDatabase db m (oi + db.collision) s cs.length := by
  rw [checkAsnOidDatabase, h]
  simp only [readBytes_eq hm, Option.map_some', Option.bind_eq_bind]
  by_cases hl : cs.length = (hex.getD 1 0).toNat
  · rw [if_pos hl]
    by_cases hc : (hex.drop 2).take cs.length = cs
    · rw [if_pos (show OidMatch cs hex from And.intro hl hc)]
      simp [hc]
    · rw [if_neg (fun h' : OidMatch cs hex => hc h'.2)]
      simp [Ne.symm hc]
  · rw [if_neg hl, if_neg (fun h' : OidMatch cs hex => hl h'.1)]
    rfl

/-- The loop probes `oi`, `oi + OID_COLLISION`, … and stops at some `k`-th probe:
every earlier probe is a key whose encoding differs from `cs`, and the `k`-th is
either a key whose encoding is `cs`, returned as it is, or not a key, returned
with `OID_NOT_FOUND` set. -/
theorem checkAsnOidDatabase_chain (db : OidDb) {m : Mem} {s : Nat} {cs : List UInt8}
    (hm : Holds m s cs) (oi : Nat) :
    ∃ k, (∀ j < k, ∃ hex, db.cases.lookup (oi + j * db.collision) = some hex ∧
        ¬ OidMatch cs hex) ∧
      ((∃ hex, db.cases.lookup (oi + k * db.collision) = some hex ∧ OidMatch cs hex ∧
          checkAsnOidDatabase db m oi s cs.length = some (oi + k * db.collision)) ∨
        (db.cases.lookup (oi + k * db.collision) = none ∧
          checkAsnOidDatabase db m oi s cs.length =
            some ((oi + k * db.collision) ||| db.notFound))) := by
  refine checkAsnOidDatabase.induct db m
    (motive := fun oi s' l => s' = s → l = cs.length → ∃ k,
      (∀ j < k, ∃ hex, db.cases.lookup (oi + j * db.collision) = some hex ∧
        ¬ OidMatch cs hex) ∧
      ((∃ hex, db.cases.lookup (oi + k * db.collision) = some hex ∧ OidMatch cs hex ∧
          checkAsnOidDatabase db m oi s cs.length = some (oi + k * db.collision)) ∨
        (db.cases.lookup (oi + k * db.collision) = none ∧
          checkAsnOidDatabase db m oi s cs.length =
            some ((oi + k * db.collision) ||| db.notFound))))
    ?_ ?_ oi s cs.length rfl rfl
  · rintro oi _ _ h rfl rfl
    exact ⟨0, fun _ hj => absurd hj (Nat.not_lt_zero _), Or.inr
      ⟨by simpa using h, by simpa using checkAsnOidDatabase_of_lookup_none db m _ _ h⟩⟩
  · rintro oi _ _ hex h ih rfl rfl
    rw [checkAsnOidDatabase_of_lookup_some db hm h]
    by_cases hmatch : OidMatch cs hex
    · exact ⟨0, fun _ hj => absurd hj (Nat.not_lt_zero _),
        Or.inl ⟨hex, by simpa using h, hmatch, by simp [hmatch]⟩⟩
    obtain ⟨k, hpre, hstop⟩ := ih rfl rfl
    have hshift : ∀ j, oi + db.collision + j * db.collision = oi + (j + 1) * db.collision :=
      fun j => by ring
    refine ⟨k + 1, fun j hj => ?_, ?_⟩
    · cases j with
      | zero => exact ⟨hex, by simpa using h, hmatch⟩
      | succ j => simpa [hshift] using hpre j (by omega)
    · simpa [hmatch, hshift] using hstop

theorem mem_keys_of_lookup_isSome {cases : List (Nat × List UInt8)} {oi : Nat}
    (h : (cases.lookup oi).isSome) : oi ∈ cases.map Prod.fst := by
  obtain ⟨p, hp, hk⟩ := List.lookup_isSome_iff.1 h
  exact List.mem_map.2 ⟨p, hp, (beq_iff_eq.1 hk).symm⟩

theorem probes_le_length (db : OidDb) {oi k : Nat}
    (h : ∀ j < k, (db.cases.lookup (oi + j * db.collision)).isSome) : k ≤ db.cases.length := by
  have hinj : Function.Injective fun j => oi + j * db.collision := fun a b hab =>
    Nat.eq_of_mul_eq_mul_right db.collision_pos (by simpa using hab)
  have hsub : (List.range k).map (fun j => oi + j * db.collision) ⊆ db.cases.map Prod.fst := by
    intro x hx
    obtain ⟨j, hj, rfl⟩ := List.mem_map.1 hx
    exact mem_keys_of_lookup_isSome (h j (List.mem_range.1 hj))
  simpa using (List.subperm_of_subset ((List.nodup_range k).map hinj) hsub).length_le

theorem lookup_wellFormed {db : OidDb} (hw : db.WellFormed) {oi : Nat} {hex : List UInt8}
    (h : db.cases.lookup oi = some hex) : ∃ t c, c.length < 0x80 ∧ hex = t :: c.length.toUInt8 :: c := by
  obtain ⟨l₁, l₂, hl, -⟩ := List.lookup_eq_some_iff.1 h
  exact hw oi hex (by rw [hl]; simp)

theorem or_notFound_and (v n : Nat) : (v ||| n) &&& n = n :=
  Nat.eq_of_testBit_eq fun i => by
    rw [Nat.testBit_and, Nat.testBit_or]
    cases v.testBit i <;> cases n.testBit i <;> rfl

/-- For every table and every OID `cs` in memory, from any first sum `oi`:
`checkAsnOidDatabase` stops at the `k`-th probe `oi + k * OID_COLLISION` for some
`k` at most the table's size, after `k` probes that are keys whose encodings
differ from `cs`, and returns that probe if its encoding is `cs`, or the probe
with `OID_NOT_FOUND` set if it is not a key. With the table's encodings well
formed and `OID_NOT_FOUND` non-zero, a result without that bit is a key whose
encoding is the tag, the length byte `|cs|` and `cs` itself. -/
theorem checkAsnOidDatabase_first_match (db : OidDb) {m : Mem} {s : Nat} {cs : List UInt8}
    (hm : Holds m s cs) (oi : Nat) :
    (∃ k ≤ db.cases.length,
      (∀ j < k, ∃ hex, db.cases.lookup (oi + j * db.collision) = some hex ∧
        ¬ OidMatch cs hex) ∧
      ((∃ hex, db.cases.lookup (oi + k * db.collision) = some hex ∧ OidMatch cs hex ∧
          checkAsnOidDatabase db m oi s cs.length = some (oi + k * db.collision)) ∨
        (db.cases.lookup (oi + k * db.collision) = none ∧
          checkAsnOidDatabase db m oi s cs.length =
            some ((oi + k * db.collision) ||| db.notFound)))) ∧
    (db.WellFormed → db.notFound ≠ 0 → ∀ r, checkAsnOidDatabase db m oi s cs.length = some r →
      r &&& db.notFound = 0 → ∃ t, db.cases.lookup r = some (t :: cs.length.toUInt8 :: cs)) := by
  obtain ⟨k, hpre, hstop⟩ := checkAsnOidDatabase_chain db hm oi
  refine ⟨⟨k, @probes_le_length db oi k fun j hj => ?_, hpre, hstop⟩, fun hw hnf r hr hbit => ?_⟩
  · obtain ⟨hex, hj', -⟩ := hpre j hj
    simp [hj']
  rcases hstop with ⟨hex, hl, hmatch, he⟩ | ⟨-, he⟩
  · rw [he, Option.some.injEq] at hr
    subst hr
    obtain ⟨t, c, hc, rfl⟩ := lookup_wellFormed hw hl
    obtain rfl := (oidMatch_iff hc).1 hmatch
    exact ⟨t, hl⟩
  · rw [he, Option.some.injEq] at hr
    subst hr
    exact absurd (or_notFound_and _ _) (by rw [hbit]; exact Ne.symm hnf)

theorem checkAsnOidDatabase_first_match_collision :
    (∃ hex, [(46, [0x06, 0x02, 0x2A, 0x04]), (1046, [0x06, 0x02, 0x2B, 0x03])].lookup 46 = some hex ∧
      ¬ OidMatch [0x2B, 0x03] hex) ∧
    checkAsnOidDatabase ⟨[(46, [0x06, 0x02, 0x2A, 0x04]), (1046, [0x06, 0x02, 0x2B, 0x03])],
      1000, by decide, 0x8000⟩ (Mem.ofList [0x2B, 0x03]) 46 0 2 = some 1046 := by
  obtain ⟨⟨k, hk, hpre, hstop⟩, -⟩ := checkAsnOidDatabase_first_match
    ⟨[(46, [0x06, 0x02, 0x2A, 0x04]), (1046, [0x06, 0x02, 0x2B, 0x03])], 1000, by decide, 0x8000⟩
    (holds_ofList [0x2B, 0x03]) 46
  refine ⟨⟨_, rfl, by decide⟩, ?_⟩
  replace hk : k ≤ 2 := hk
  interval_cases k
  · rcases hstop with ⟨hex, hl, hm, -⟩ | ⟨hl, -⟩
    · cases hl
      exact absurd hm (by decide)
    · cases hl
  · rcases hstop with ⟨-, -, -, h⟩ | ⟨hl, -⟩
    · exact h
    · cases hl
  · obtain ⟨hex, hl, hm⟩ := hpre 1 (by decide)
    cases hl
    exact absurd (by decide) hm

/-- The `int32_t` and `uint32_t` wraps of the parameter length cancel: for a
cursor `p` within the `L` bytes from `q`, what `getAsnOID` stores in `*paramLen`
is the bytes from `p` to the end, modulo `2^16`, whatever `L` is. -/
theorem paramLen_wraps_cancel {q L p : Nat} (h : p ≤ q + L) :
    ((L - toInt32 ((toInt32 L - ((q + L : Int) - p)) % 2 ^ 32).toNat) % 2 ^ 32 % 2 ^ 16).toNat =
      (q + L - p) % 2 ^ 16 := by
  have h1 := toInt32_emod L
  have h2 := toInt32_emod ((toInt32 L - ((q + L : Int) - p)) % 2 ^ 32).toNat
  omega

theorem getAsnOID_of_params {db : OidDb} {m : Mem} {q L sum oi : Nat} {l : LenOut} {b : UInt8}
    (ht : m q = some asnOid)
    (hl : getAsnLength32 m (q + 1) ((L + 2 ^ 32 - 1) % 2 ^ 32) false = some l) (hneg : l.rc.neg = false)
    (hfit : l.pp + l.len ≤ q + L) (h2 : l.pp + 2 ≤ q + L)
    (hsum : sumBytes m l.len l.pp 0 = some sum) (hoi : checkAsnOidDatabase db m sum l.pp l.len = some oi)
    (hb : m (l.pp + l.len) = some b) (hbn : b ≠ asnNull) :
    getAsnOID db m q L true =
      some ⟨.psSuccess, l.pp + l.len, some oi, some ((q + L - (l.pp + l.len)) % 2 ^ 16)⟩ := by
  have h1 : ¬ (q + L : Int) - l.pp < l.len := by omega
  have h2' : ¬ (q + L : Int) - l.pp < 2 := by omega
  unfold getAsnOID
  simp only [Option.bind_eq_bind]
  rw [ht, Option.some_bind, if_neg (not_not.2 rfl), hl, Option.some_bind,
    if_neg (by rw [hneg]; exact Bool.false_ne_true), if_neg h1, if_neg h2', hsum, Option.some_bind,
    hoi, Option.some_bind, if_pos trivial, hb, Option.some_bind, if_pos hbn, paramLen_wraps_cancel hfit]

theorem getAsnOID_of_params_none {db : OidDb} {m : Mem} {q L sum oi : Nat} {l : LenOut}
    (ht : m q = some asnOid)
    (hl : getAsnLength32 m (q + 1) ((L + 2 ^ 32 - 1) % 2 ^ 32) false = some l) (hneg : l.rc.neg = false)
    (hfit : l.pp + l.len ≤ q + L) (h2 : l.pp + 2 ≤ q + L)
    (hsum : sumBytes m l.len l.pp 0 = some sum) (hoi : checkAsnOidDatabase db m sum l.pp l.len = some oi)
    (hb : m (l.pp + l.len) = none) : getAsnOID db m q L true = none := by
  have h1 : ¬ (q + L : Int) - l.pp < l.len := by omega
  have h2' : ¬ (q + L : Int) - l.pp < 2 := by omega
  unfold getAsnOID
  simp only [Option.bind_eq_bind]
  rw [ht, Option.some_bind, if_neg (not_not.2 rfl), hl, Option.some_bind,
    if_neg (by rw [hneg]; exact Bool.false_ne_true), if_neg h1, if_neg h2', hsum, Option.some_bind,
    hoi, Option.some_bind, if_pos trivial, hb, Option.none_bind]

theorem getAsnAlgorithmIdentifier_of_seq {db : OidDb} {m : Mem} {pp len : Nat} {s : LenOut}
    (hl : 1 ≤ len) (hs : getAsnSequence32 m pp len 0 false = some s) (hneg : s.rc.neg = false)
    (hin : s.pp < pp + len) : getAsnAlgorithmIdentifier db m pp len = getAsnOID db m s.pp s.len true := by
  have h1 : ¬ (pp + len : Int) - s.pp < 1 := by omega
  simp only [getAsnAlgorithmIdentifier, Nat.not_lt.2 hl, if_false, hs, Option.bind_eq_bind, Option.some_bind,
    hneg, Bool.false_eq_true, h1]

/-- For every OID table: `getAsnOID` reads the tag of an empty input, and the
byte after an OID that ends its input when asked for parameters; and
`getAsnAlgorithmIdentifier` reads past a SEQUENCE with empty content, and past
one that holds only an OID, at the end of the input. -/
theorem getAsnOID_reads_past_input (db : OidDb) :
    getAsnOID db (Mem.ofList []) 0 0 false = none ∧
      getAsnOID db (Mem.ofList [0x06, 0x02, 0x2A, 0x03]) 0 4 true = none ∧
      getAsnAlgorithmIdentifier db (Mem.ofList [0x30, 0x00, 0x06]) 0 3 = none ∧
      getAsnAlgorithmIdentifier db (Mem.ofList [0x30, 0x04, 0x06, 0x02, 0x2A, 0x03]) 0 6 = none := by
  have hoid : Holds (Mem.ofList [0x06, 0x02, 0x2A, 0x03]) 2 [0x2A, 0x03] := by
    simpa using (holds_ofList [0x06, 0x02, 0x2A, 0x03]).drop 2
  have halg : Holds (Mem.ofList [0x30, 0x04, 0x06, 0x02, 0x2A, 0x03]) 4 [0x2A, 0x03] := by
    simpa using (holds_ofList [0x30, 0x04, 0x06, 0x02, 0x2A, 0x03]).drop 4
  obtain ⟨oi, hoi⟩ := Option.isSome_iff_exists.1 (checkAsnOidDatabase_isSome db hoid 45)
  obtain ⟨oi', hoi'⟩ := Option.isSome_iff_exists.1 (checkAsnOidDatabase_isSome db halg 45)
  refine ⟨rfl, ?_, rfl, ?_⟩
  · have hl : getAsnLength32 (Mem.ofList [0x06, 0x02, 0x2A, 0x03]) (0 + 1) ((4 + 2 ^ 32 - 1) % 2 ^ 32) false =
        some ⟨.psSuccess, 2, 2⟩ := rfl
    have hs : sumBytes (Mem.ofList [0x06, 0x02, 0x2A, 0x03]) 2 2 0 = some 45 := rfl
    exact getAsnOID_of_params_none rfl hl rfl (by decide) (by decide) hs hoi rfl
  · have hs : getAsnSequence32 (Mem.ofList [0x30, 0x04, 0x06, 0x02, 0x2A, 0x03]) 0 6 0 false =
        some ⟨.psSuccess, 2, 4⟩ := rfl
    have hl : getAsnLength32 (Mem.ofList [0x30, 0x04, 0x06, 0x02, 0x2A, 0x03]) (2 + 1)
        ((4 + 2 ^ 32 - 1) % 2 ^ 32) false = some ⟨.psSuccess, 4, 2⟩ := rfl
    have hsum : sumBytes (Mem.ofList [0x30, 0x04, 0x06, 0x02, 0x2A, 0x03]) 2 4 0 = some 45 := rfl
    rw [getAsnAlgorithmIdentifier_of_seq (by decide) hs rfl (by decide)]
    exact getAsnOID_of_params_none rfl hl rfl (by decide) (by decide) hsum hoi' rfl

/-- For every OID table: an AlgorithmIdentifier whose SEQUENCE holds an OID and
then a parameter block of `2^16` bytes is accepted with `*paramLen = 0`, while
`2^16` bytes follow the returned `*pp` inside the SEQUENCE. -/
theorem getAsnAlgorithmIdentifier_paramLen_truncated (db : OidDb) :
    let m : Mem := fun a => if a < 9 then
      Mem.ofList [0x30, 0x83, 0x01, 0x00, 0x04, 0x06, 0x02, 0x2A, 0x03] a
      else if a < 65545 then some 0x04 else none
    getAsnSequence32 m 0 65545 0 false = some ⟨.psSuccess, 5, 65540⟩ ∧
      ∃ oi, getAsnAlgorithmIdentifier db m 0 65545 = some ⟨.psSuccess, 9, some oi, some 0⟩ := by
  intro m
  have hs : getAsnSequence32 m 0 65545 0 false = some ⟨.psSuccess, 5, 65540⟩ := rfl
  have hl : getAsnLength32 m (5 + 1) ((65540 + 2 ^ 32 - 1) % 2 ^ 32) false = some ⟨.psSuccess, 7, 2⟩ := rfl
  have hsum : sumBytes m 2 7 0 = some 45 := rfl
  have hoid : Holds m 7 [0x2A, 0x03] := holds_cons.2 ⟨rfl, holds_cons.2 ⟨rfl, holds_nil _ _⟩⟩
  have h9 : m 9 = some 0x04 := rfl
  have h5 : m 5 = some 0x06 := rfl
  obtain ⟨oi, hoi⟩ := Option.isSome_iff_exists.1 (checkAsnOidDatabase_isSome db hoid 45)
  refine ⟨hs, oi, ?_⟩
  simp only [List.length_cons, List.length_nil, Nat.reduceAdd] at hoi
  rw [getAsnAlgorithmIdentifier_of_seq (by decide) hs rfl (by decide),
    getAsnOID_of_params h5 hl rfl (by decide) (by decide) hsum hoi h9 (by decide)]
  rfl

end MatrixSsl.Asn1
