import Flatstate.Foundation.Versioned
import Flatstate.Store.Rows

set_option autoImplicit false

/-!
# Store: reads refine the fold of the batches

The abstract store is a baseline state at the genesis `S` and the list of batches
written since; its value at height `S + n` is the fold of the first `n` batches.
`Refines` says which rows an environment holds when it stands for such a store,
and the theorems of this module are that `getAccount` and `getSlot` read it right.

The argument is one induction on the height, `resolved_take`: at every height the
newest row of a key, the newest destruct of its address and the baseline between
them determine the value of the key.
-/

namespace Flatstate.Capture

open Foundation Schema

/-! ## Keys and their rows -/

/-- The history of a key. -/
def Key.track : Key → Track
  | .account a => .account a
  | .slot a s => .slot a s

/-- The hash-keyed baseline row of a key. -/
def Key.baseRow (keccak : Bytes → Hash) : Key → Row
  | .account a => .baseAccount (keccak a.1)
  | .slot a s => .baseSlot (keccak a.1) (keccak s.1)

/-- The raw row value of a key that holds `v`.  A row never says that an account
does not exist. -/
def Key.Holds : (k : Key) → Bytes → Val k → Prop
  | .account _, raw, v => ∃ acct, v = some acct ∧ raw = encodeAccount [] acct
  | .slot _ _, raw, v => raw = v.1

end Flatstate.Capture

namespace Flatstate.Store

open Foundation Schema Capture

/-! ## The baseline -/

/-- A full state at the genesis, as a snapshot has it: keyed by hashes. -/
structure Trie where
  accounts : Hash → Option Account
  slots : Hash → Hash → Option Hash

/-- The state a trie stands for, given the hash that keys it. -/
def Trie.state (keccak : Bytes → Hash) (base : Trie) : State
  | .account a => base.accounts (keccak a.1)
  | .slot a s => (base.slots (keccak a.1) (keccak s.1)).getD Hash.zero

/-- The trie has a leaf for the key. -/
def Trie.hasLeaf (keccak : Bytes → Hash) (base : Trie) : Key → Prop
  | .account a => base.accounts (keccak a.1) ≠ none
  | .slot a s => base.slots (keccak a.1) (keccak s.1) ≠ none

theorem Trie.state_of_no_leaf {keccak : Bytes → Hash} {base : Trie} {k : Key}
    (h : ¬ base.hasLeaf keccak k) : base.state keccak k = Val.gone k := by
  cases k with
  | account a => exact not_not.mp h
  | slot a s =>
    have hnone : base.slots (keccak a.1) (keccak s.1) = none := not_not.mp h
    simp [Trie.state, hnone, Val.gone]

/-! ## Post-images from the rows of one block -/

/-- The key of an op that sets a key. -/
theorem post_of_track {op : Op} {k : Key} (h : op.track? = some k.track) :
    ∃ v, k.Holds op.raw v ∧ op.post k = some v := by
  cases k with
  | account a =>
    cases op with
    | account a' acct =>
      have ha : a' = a := by simpa [Op.track?, Key.track] using h
      exact ⟨(some acct : Option Account), ⟨acct, rfl, rfl⟩, by simp [Op.post, ha]⟩
    | _ => simp [Op.track?, Key.track] at h
  | slot a s =>
    cases op with
    | slot a' s' v =>
      have has : a' = a ∧ s' = s := by simpa [Op.track?, Key.track] using h
      exact ⟨v, rfl, by simp [Op.post, has]⟩
    | deleteSlot a' s' =>
      have has : a' = a ∧ s' = s := by simpa [Op.track?, Key.track] using h
      exact ⟨Hash.zero, rfl, by simp [Op.post, has]⟩
    | _ => simp [Op.track?, Key.track] at h

/-- An op that neither sets a key nor destructs its address leaves it. -/
theorem post_of_not_track {op : Op} {k : Key} (h : op.track? ≠ some k.track)
    (hd : op ≠ .destruct k.addr) : op.post k = none := by
  cases op with
  | destruct a =>
    have ha : k.addr ≠ a := fun hka => hd (by rw [hka])
    simp [ha]
  | account a acct =>
    cases k with
    | account a' =>
      have ha : a' ≠ a := fun haa => h (by simp [Op.track?, Key.track, haa])
      simp [Op.post, ha]
    | slot a' s' => rfl
  | slot a s _ | deleteSlot a s =>
    cases k with
    | account a' => rfl
    | slot a' s' =>
      have ha : ¬ (a' = a ∧ s' = s) := fun haa => h (by simp [Op.track?, Key.track, haa])
      simp [Op.post, ha]
  | code c v => cases k <;> rfl

theorem track_destruct_iff {op : Op} {a : Address} :
    op.track? = some (.destruct a) ↔ op = .destruct a := by
  cases op <;> simp [Op.track?]

theorem addr_of_track {op : Op} {k : Key} (h : op.track? = some k.track) :
    op.addr? = some k.addr ∧ op.isDestruct = false := by
  cases k <;> cases op <;> simp_all [Op.track?, Key.track, Op.addr?, Key.addr, Op.isDestruct]

theorem isSlotOf_of_track {op : Op} {a : Address} {s : Hash} (h : op.track? = some (.slot a s)) :
    op.isSlotOf a = true := by
  cases op <;> simp_all [Op.track?, Op.isSlotOf]

theorem track_of_isAccountOf {op : Op} {a : Address} (h : op.isAccountOf a = true) :
    op.track? = some (.account a) := by
  cases op <;> simp_all [Op.track?, Op.isAccountOf]

/-- With destructs first, a key's post-image is its last row, else the trace of a
destruct, else nothing. -/
theorem postOf_of_rows {ops : List Op} (hd : DestructFirst ops) (k : Key) :
    (∀ raw, lastRow ops k.track = some raw → ∃ v, k.Holds raw v ∧ postOf ops k = some v) ∧
    (lastRow ops k.track = none →
      postOf ops k = if lastRow ops (.destruct k.addr) = none then none else some (Val.gone k)) := by
  induction ops using List.reverseRecOn with
  | nil => simp
  | append_singleton ops op ih =>
    obtain ⟨hfront, -, hcross⟩ := List.pairwise_append.mp hd
    obtain ⟨ih1, ih2⟩ := ih hfront
    rw [lastRow_concat, lastRow_concat, postOf_concat]
    by_cases hop : op.track? = some k.track
    · -- the last op sets the key
      obtain ⟨v, hv, hpost⟩ := post_of_track hop
      refine ⟨fun raw hraw => ⟨v, ?_, by simp [hpost]⟩, fun hnone => ?_⟩
      · rw [if_pos hop] at hraw
        rwa [← Option.some.inj hraw]
      · rw [if_pos hop] at hnone
        cases hnone
    · rw [if_neg hop]
      by_cases hdes : op = .destruct k.addr
      · -- the last op destructs the address: nothing of the key came before it
        have hnone : lastRow ops k.track = none := by
          by_contra hne
          obtain ⟨o, ho, hot⟩ := lastRow_ne_none_iff.mp hne
          obtain ⟨haddr, hnd⟩ := addr_of_track hot
          have := hcross o ho op (by simp) (by simp [hdes, Op.isDestruct])
            (by rw [haddr, hdes]; rfl)
          rw [hnd] at this
          cases this
        refine ⟨fun raw hraw => ?_, fun _ => ?_⟩
        · rw [hnone] at hraw
          cases hraw
        · simp [hdes, Op.track?]
      · have hpost := post_of_not_track hop hdes
        rw [if_neg (fun h => hdes (track_destruct_iff.mp h)), hpost]
        exact ⟨ih1, ih2⟩

/-! ## The rows of an environment that stands for a chain -/

/-- Height `S + n`. -/
def height (S : UInt64) (n : Nat) : UInt64 := UInt64.ofNat (S.toNat + n)

/-- Block `n` of the chain has number `S + n + 1`. -/
def Consecutive (S : UInt64) (bs : List Batch) : Prop :=
  ∀ n b, bs[n]? = some b → b.block.toNat = S.toNat + n + 1

/-- Every key with a leaf in the trie has its preimage row or its hash row. -/
def Covered (keccak : Bytes → Hash) (base : Trie) (S : UInt64) (env : Env) : Prop :=
  ∀ k, base.hasLeaf keccak k →
    row env (.history k.track S) ≠ none ∨ row env (k.baseRow keccak) ≠ none

/-- The rows of an environment that stands for the baseline `base` at `S`, loaded
in part, and the batches `bs` written on top of it. -/
structure Refines (keccak : Bytes → Hash) (base : Trie) (S : UInt64) (bs : List Batch)
    (env : Env) : Prop where
  laid : Laid env
  /-- block numbers do not wrap around -/
  fits : S.toNat + bs.length < 2 ^ 64
  genesis : row env .genesis = some (beBytes S)
  /-- no history below the genesis -/
  below : ∀ t b, b < S → row env (.history t b) = none
  /-- a preimage row at the genesis is a row of the baseline -/
  atGenesis : ∀ (k : Key) raw, row env (.history k.track S) = some raw →
    k.Holds raw (base.state keccak k)
  noDestruct : ∀ a, row env (.history (.destruct a) S) = none
  /-- a hash-keyed row is a row of the baseline -/
  baseRow : ∀ (k : Key) raw, row env (k.baseRow keccak) = some raw → k.Holds raw (base.state keccak k)
  /-- above the genesis, the last row of each block -/
  above : ∀ t n b, bs[n]? = some b → row env (.history t (height S (n + 1))) = lastRow b.ops t
  /-- and nothing above the last block -/
  beyond : ∀ t b, S.toNat + bs.length < b.toNat → row env (.history t b) = none
  /-- the diff row of every block is its batch verbatim -/
  diffs : ∀ n b, bs[n]? = some b → row env (.diff (height S (n + 1))) = some (b.encode [])
  /-- the watermark is only set over a covered baseline -/
  complete : row env .baselineComplete ≠ none → Covered keccak base S env

section Reads

variable {keccak : Bytes → Hash} {base : Trie} {S : UInt64} {bs : List Batch} {env : Env}

/-- The state at height `S + n`. -/
def stateAt (keccak : Bytes → Hash) (base : Trie) (bs : List Batch) (n : Nat) : State :=
  foldBatches (bs.take n) (base.state keccak)

theorem stateAt_zero : stateAt keccak base bs 0 = base.state keccak := by
  simp [stateAt]

theorem stateAt_succ {n : Nat} {b : Batch} (h : bs[n]? = some b) :
    stateAt keccak base bs (n + 1) = b.apply (stateAt keccak base bs n) := by
  rw [stateAt, List.take_add_one, h, Option.toList_some, foldBatches_concat]
  rfl

/-- The versions of a track: its rows at the heights from the genesis on. -/
def versions (S : UInt64) (env : Env) (t : Track) (n : Nat) : Option Bytes :=
  row env (.history t (height S n))

/-- The newest row of a key and the newest destruct of its address determine the
value of the key; without either it is the value `v0` of the baseline. -/
def Resolved (k : Key) (v v0 : Val k) :
    Option (Nat × Bytes) → Option (Nat × Bytes) → Prop
  | some (_, raw), none => k.Holds raw v
  | some (i, raw), some (d, _) => if d ≤ i then k.Holds raw v else v = Val.gone k
  | none, some _ => v = Val.gone k
  | none, none => v = v0

/-- Reads at `S + n` are resolved right, for every `n` up to the chain's length. -/
theorem resolved_take (hr : Refines keccak base S bs env)
    (hd : ∀ b ∈ bs, DestructFirst b.ops) (k : Key) {n : Nat} (hn : n ≤ bs.length) :
    Resolved k (stateAt keccak base bs n k) (base.state keccak k)
      (latest (versions S env k.track) n) (latest (versions S env (.destruct k.addr)) n) := by
  induction n with
  | zero =>
    have hS : height S 0 = S := by simp [height]
    have hdes : versions S env (.destruct k.addr) 0 = none := by
      rw [versions, hS]; exact hr.noDestruct _
    rw [stateAt_zero, latest, latest, hdes]
    cases hv : versions S env k.track 0 with
    | none => exact rfl
    | some raw =>
      rw [versions, hS] at hv
      exact hr.atGenesis k raw hv
  | succ n ih =>
    have ih := ih (Nat.le_of_succ_le hn)
    obtain ⟨b, hb⟩ : ∃ b, bs[n]? = some b := ⟨bs[n], List.getElem?_eq_getElem hn⟩
    have hrow : ∀ t, versions S env t (n + 1) = lastRow b.ops t := fun t => hr.above t n b hb
    obtain ⟨hset, hunset⟩ := postOf_of_rows (hd b (List.mem_of_getElem? hb)) k
    rw [stateAt_succ hb, Batch.apply_eq]
    cases hk : lastRow b.ops k.track with
    | some raw =>
      -- block `n + 1` sets the key
      obtain ⟨v, hv, hpost⟩ := hset raw hk
      rw [latest_succ_of_some (by rw [hrow, hk]), Diff.apply_of_some (d := b.diff) hpost]
      cases hdes : latest (versions S env (.destruct k.addr)) (n + 1) with
      | none => exact hv
      | some dv =>
        have hle : dv.1 ≤ n + 1 := (latest_eq_some_iff.mp hdes).1
        simpa [Resolved, hle] using hv
    | none =>
      rw [latest_succ_of_none (f := versions S env k.track) (by rw [hrow, hk])]
      cases hdes : lastRow b.ops (.destruct k.addr) with
      | some dv =>
        -- block `n + 1` destructs the address and does not set the key
        have hpost := hunset hk
        rw [hdes, if_neg (by simp)] at hpost
        rw [latest_succ_of_some (f := versions S env (.destruct k.addr)) (by rw [hrow, hdes]),
          Diff.apply_of_some (d := b.diff) hpost]
        cases hl : latest (versions S env k.track) n with
        | none => exact rfl
        | some iv =>
          have hle : iv.1 ≤ n := (latest_eq_some_iff.mp hl).1
          have : ¬ n + 1 ≤ iv.1 := by omega
          simp [Resolved, this]
      | none =>
        -- block `n + 1` leaves the key
        have hpost := hunset hk
        rw [hdes, if_pos rfl] at hpost
        rw [latest_succ_of_none (f := versions S env (.destruct k.addr)) (by rw [hrow, hdes]),
          Diff.apply_of_none (d := b.diff) hpost]
        exact ih

/-! ## From the seeks to the versions -/

theorem toNat_height {n : Nat} (h : S.toNat + n < 2 ^ 64) : (height S n).toNat = S.toNat + n := by
  rw [height, UInt64.toNat_ofNat', Nat.mod_eq_of_lt h]

theorem height_succ_ne {n : Nat} (h : S.toNat + (n + 1) < 2 ^ 64) : height S (n + 1) ≠ S := by
  intro heq
  have := congrArg UInt64.toNat heq
  rw [toNat_height h] at this
  omega

theorem height_sub {b : UInt64} (h : S ≤ b) : height S (b.toNat - S.toNat) = b := by
  rw [UInt64.le_iff_toNat_le] at h
  rw [height, Nat.add_sub_cancel' h, UInt64.ofNat_toNat]

/-- The number of blocks of the chain at or below a height. -/
def reach (S : UInt64) (bs : List Batch) (at_ : UInt64) : Nat :=
  min (at_.toNat - S.toNat) bs.length

theorem reach_le (S : UInt64) (bs : List Batch) (at_ : UInt64) : reach S bs at_ ≤ bs.length :=
  Nat.min_le_right _ _

theorem latest_reach (hr : Refines keccak base S bs env) (t : Track) (at_ : UInt64) :
    latest (versions S env t) (at_.toNat - S.toNat) = latest (versions S env t) (reach S bs at_) := by
  refine latest_eq_of_none_above (Nat.min_le_left _ _) (fun i h1 h2 => ?_)
  have hat := at_.toNat_lt
  apply hr.beyond
  rw [toNat_height (by omega)]
  rw [reach] at h1
  omega

/-- A seek is the newest version the chain has at or below the height. -/
theorem seekLE_eq_latest (hr : Refines keccak base S bs env) (t : Track) {at_ : UInt64}
    (hS : S ≤ at_) :
    seekLE env (t.key at_) =
      (latest (versions S env t) (reach S bs at_)).map (fun p => (height S p.1, p.2)) := by
  have hSn := UInt64.le_iff_toNat_le.mp hS
  have hat := at_.toNat_lt
  rw [← latest_reach hr]
  cases hl : latest (versions S env t) (at_.toNat - S.toNat) with
  | none =>
    rw [Option.map_none, seekLE_eq_none_iff hr.laid]
    intro b hb
    rw [UInt64.le_iff_toNat_le] at hb
    by_cases hbS : b < S
    · exact hr.below t b hbS
    · have := latest_eq_none_iff.mp hl (b.toNat - S.toNat) (by omega)
      rwa [versions, height_sub (UInt64.not_lt.mp hbS)] at this
  | some p =>
    obtain ⟨i, v⟩ := p
    obtain ⟨hi, hv, hlast⟩ := latest_eq_some_iff.mp hl
    have hh : (height S i).toNat = S.toNat + i := toNat_height (by omega)
    rw [Option.map_some, seekLE_eq_some_iff hr.laid]
    dsimp only
    refine ⟨hv, by rw [UInt64.le_iff_toNat_le]; omega, fun b hb hrow => ?_⟩
    rw [UInt64.le_iff_toNat_le] at hb ⊢
    by_contra hlt
    -- a row above version `i` and at or below the height
    have hbS : S ≤ b := by rw [UInt64.le_iff_toNat_le]; omega
    have hnone := hlast (b.toNat - S.toNat) (by omega) (by omega)
    rw [versions, height_sub hbS] at hnone
    exact hrow hnone

/-! ## Reads -/

theorem accountRow_of_holds {a : Address} {raw : Bytes} {v : Option Account}
    (h : (Key.account a).Holds raw v) : accountRow raw = .ok v := by
  obtain ⟨acct, hv, hraw⟩ := h
  simp only [accountRow, hraw, decodeAccount_encodeAccount, hv]

theorem slotRow_of_holds (a : Address) (s : Hash) {raw : Bytes} {v : Hash} (e : Nat → Err)
    (h : (Key.slot a s).Holds raw v) : slotRow e raw = .ok v := by
  obtain rfl : raw = v.1 := h
  rw [slotRow, dif_pos v.2]

/-- What a handle has cached is what the environment holds. -/
structure Coherent (h : Handle) (env : Env) : Prop where
  genesis : h.genesisPlus1 ≠ 0 → row env .genesis = some (beBytes (h.genesisPlus1 - 1))
  done : h.baselineDone = true → row env .baselineComplete ≠ none

theorem beU64_beBytes (v : UInt64) : beU64 (beBytes v) = v := by
  rw [beU64, beBytes, beDecode_beEncode_of_lt (uint64_toNat_lt _), UInt64.ofNat_toNat]

theorem getMetaU64_congr {env env' : Env} {r : Row} (h : row env r = row env' r) :
    getMetaU64 env r.key = getMetaU64 env' r.key := by
  unfold row at h
  unfold getMetaU64
  rw [h]

theorem getMetaU64_of_row {env : Env} {r : Row} {v : UInt64} (h : row env r = some (beBytes v)) :
    getMetaU64 env r.key = .ok (some v) := by
  rw [row] at h
  rw [getMetaU64, h]
  simp [beBytes]
  exact beU64_beBytes v

theorem genesis_of_coherent {h : Handle} (hc : Coherent h env)
    (hg : row env .genesis = some (beBytes S)) : (Store.genesis h env).1 = .ok (some S) := by
  rw [Store.genesis]
  split
  · rename_i hne
    have hcg := hc.genesis hne
    rw [hg] at hcg
    have hS : S = h.genesisPlus1 - 1 := by
      rw [← beU64_beBytes S, Option.some.inj hcg, beU64_beBytes]
    rw [hS]
  · have hget : getMetaU64 env metaGenesis = .ok (some S) := getMetaU64_of_row (r := .genesis) hg
    simp [hget]

theorem checkAt_ok {h : Handle} (hc : Coherent h env) (hg : row env .genesis = some (beBytes S))
    {at_ : UInt64} (hS : S ≤ at_) : checkAt h env at_ = .ok () := by
  rw [checkAt, genesis_of_coherent hc hg]
  simp [UInt64.not_lt.mpr hS]

theorem missAllowed_eq {h : Handle} (hc : Coherent h env) :
    missAllowed h env =
      if row env .baselineComplete = none then .error .baselineIncomplete else .ok () := by
  have hrow : row env .baselineComplete = env.get metaBaselineComplete := rfl
  rw [missAllowed, baselineComplete]
  by_cases hd : h.baselineDone = true
  · simp [hd, hc.done hd]
  · cases hget : env.get metaBaselineComplete <;> simp [hd, hrow, hget]

/-- Nothing at or before the height, nothing in the baseline: only then may a read
refuse, and only while the watermark is unset. -/
structure Uncovered (keccak : Bytes → Hash) (env : Env) (k : Key) (at_ : UInt64) : Prop where
  unset : row env .baselineComplete = none
  noRow : ∀ b, b ≤ at_ → row env (.history k.track b) = none
  noDestruct : ∀ b, b ≤ at_ → row env (.history (.destruct k.addr) b) = none
  noBase : row env (k.baseRow keccak) = none

/-- The baseline probe of a key without history: the baseline's value, or the
refusal of a key that is not covered. -/
theorem base_of_no_row (hr : Refines keccak base S bs env) {at_ : UInt64} (hS : S ≤ at_) {k : Key}
    (hrow : ∀ b, b ≤ at_ → row env (.history k.track b) = none)
    (hbase : row env (k.baseRow keccak) = none) (hset : row env .baselineComplete ≠ none) :
    base.state keccak k = Val.gone k := by
  apply Trie.state_of_no_leaf
  intro hleaf
  rcases hr.complete hset k hleaf with h | h
  · exact h (hrow S hS)
  · exact h hbase

theorem seek_none {t : Track} (hr : Refines keccak base S bs env) {at_ : UInt64} (hS : S ≤ at_)
    (hl : latest (versions S env t) (reach S bs at_) = none) :
    ∀ b, b ≤ at_ → row env (.history t b) = none := by
  rw [← seekLE_eq_none_iff hr.laid, seekLE_eq_latest hr t hS, hl]
  rfl

theorem height_le_height {at_ : UInt64} {i j : Nat} (hi : i ≤ reach S bs at_)
    (hj : j ≤ reach S bs at_) (hS : S ≤ at_) : height S i ≤ height S j ↔ i ≤ j := by
  have hSn := UInt64.le_iff_toNat_le.mp hS
  have hat := at_.toNat_lt
  rw [reach] at hi hj
  rw [UInt64.le_iff_toNat_le, toNat_height (by omega), toNat_height (by omega)]
  omega

/-- `getAccount` reads the account at the height, or refuses a key that is not
covered yet. -/
theorem getAccount_refines (hr : Refines keccak base S bs env)
    (hd : ∀ b ∈ bs, DestructFirst b.ops) {h : Handle} (hc : Coherent h env) {at_ : UInt64}
    (hS : S ≤ at_) (a : Address) :
    getAccount keccak h env a at_ =
        .ok (stateAt keccak base bs (reach S bs at_) (.account a)) ∨
      getAccount keccak h env a at_ = .error .baselineIncomplete ∧
        Uncovered keccak env (.account a) at_ := by
  have hres := resolved_take hr hd (.account a) (reach_le S bs at_)
  have hacct : seekLE env (appendAccountKey [] a at_) = _ := seekLE_eq_latest hr (.account a) hS
  have hdes : seekLE env (appendDestructKey [] a at_) = _ := seekLE_eq_latest hr (.destruct a) hS
  have hnoRow := seek_none (t := .account a) hr hS
  have hnoDes := seek_none (t := .destruct a) hr hS
  rw [getAccount, getAccountAt, checkAt_ok hc hr.genesis hS, hacct, hdes]
  simp only [Key.track, Key.addr] at hres
  cases hla : latest (versions S env (.account a)) (reach S bs at_) with
  | some p =>
    obtain ⟨i, raw⟩ := p
    rw [hla] at hres
    left
    cases hld : latest (versions S env (.destruct a)) (reach S bs at_) with
    | none =>
      rw [hld] at hres
      exact accountRow_of_holds hres
    | some q =>
      obtain ⟨d, dv⟩ := q
      rw [hld, Resolved] at hres
      have hle := height_le_height (latest_eq_some_iff.mp hld).1 (latest_eq_some_iff.mp hla).1 hS
      simp only [Option.map_some, hle]
      split
      · rw [if_pos ‹_›] at hres
        exact accountRow_of_holds hres
      · rw [if_neg ‹_›] at hres
        rw [hres]
        rfl
  | none =>
    rw [hla] at hres
    cases hld : latest (versions S env (.destruct a)) (reach S bs at_) with
    | some q =>
      rw [hld] at hres
      left
      rw [hres]
      rfl
    | none =>
      -- no history: the baseline decides
      rw [hld] at hres
      simp only [Option.map_none]
      have hval : stateAt keccak base bs (reach S bs at_) (.account a) =
        base.state keccak (.account a) := hres
      rw [hval]
      cases hbase : env.get (appendBaseAccountKey [] (keccak a.1)) with
      | some raw =>
        left
        exact accountRow_of_holds (hr.baseRow (.account a) raw hbase)
      | none =>
        rw [missAllowed_eq hc]
        by_cases hset : row env .baselineComplete = none
        · right
          exact ⟨by simp [hset], hset, hnoRow hla, hnoDes hld, hbase⟩
        · left
          rw [base_of_no_row hr hS (k := .account a) (hnoRow hla) hbase hset]
          simp [hset, Val.gone]

/-- A slot row and a destruct row of one block come with an account row. -/
theorem account_row_of_edge (hr : Refines keccak base S bs env)
    (hrec : ∀ b ∈ bs, ∀ a, Op.destruct a ∈ b.ops → (∃ o ∈ b.ops, o.isSlotOf a = true) →
      ∃ o ∈ b.ops, o.isAccountOf a = true)
    {a : Address} {s : Hash} {d : Nat} (hd : d ≤ bs.length)
    (hslot : versions S env (.slot a s) d ≠ none) (hdes : versions S env (.destruct a) d ≠ none) :
    versions S env (.account a) d ≠ none := by
  cases d with
  | zero =>
    have hS : height S 0 = S := by simp [height]
    rw [versions, hS, hr.noDestruct] at hdes
    exact absurd rfl hdes
  | succ n =>
    obtain ⟨b, hb⟩ : ∃ b, bs[n]? = some b := ⟨bs[n], List.getElem?_eq_getElem hd⟩
    have hrow : ∀ t, versions S env t (n + 1) = lastRow b.ops t := fun t => hr.above t n b hb
    rw [hrow, lastRow_ne_none_iff] at hslot hdes ⊢
    obtain ⟨o, ho, hot⟩ := hslot
    obtain ⟨o', ho', hot'⟩ := hdes
    rw [track_destruct_iff] at hot'
    obtain ⟨o'', ho'', hacct⟩ :=
      hrec b (List.mem_of_getElem? hb) a (hot' ▸ ho') ⟨o, ho, isSlotOf_of_track hot⟩
    exact ⟨o'', ho'', track_of_isAccountOf hacct⟩

/-- `getSlot` reads the slot at the height, or refuses a key that is not covered
yet; in particular the destruct edge does not arise. -/
theorem getSlot_refines (hr : Refines keccak base S bs env)
    (hd : ∀ b ∈ bs, DestructFirst b.ops)
    (hrec : ∀ b ∈ bs, ∀ a, Op.destruct a ∈ b.ops → (∃ o ∈ b.ops, o.isSlotOf a = true) →
      ∃ o ∈ b.ops, o.isAccountOf a = true)
    {h : Handle} (hc : Coherent h env) {at_ : UInt64} (hS : S ≤ at_) (a : Address) (s : Hash) :
    getSlot keccak h env a s at_ =
        .ok (stateAt keccak base bs (reach S bs at_) (.slot a s)) ∨
      getSlot keccak h env a s at_ = .error .baselineIncomplete ∧
        Uncovered keccak env (.slot a s) at_ := by
  have hres := resolved_take hr hd (.slot a s) (reach_le S bs at_)
  have hslot : seekLE env (appendSlotKey [] a s at_) = _ := seekLE_eq_latest hr (.slot a s) hS
  have hdes : seekLE env (appendDestructKey [] a at_) = _ := seekLE_eq_latest hr (.destruct a) hS
  have hnoRow := seek_none (t := .slot a s) hr hS
  have hnoDes := seek_none (t := .destruct a) hr hS
  rw [getSlot, getSlotAt, checkAt_ok hc hr.genesis hS, hslot, hdes]
  simp only [Key.track, Key.addr] at hres
  cases hls : latest (versions S env (.slot a s)) (reach S bs at_) with
  | some p =>
    obtain ⟨i, raw⟩ := p
    obtain ⟨hi, hrow, -⟩ := latest_eq_some_iff.mp hls
    rw [hls] at hres
    left
    cases hld : latest (versions S env (.destruct a)) (reach S bs at_) with
    | none =>
      rw [hld] at hres
      exact slotRow_of_holds a s _ hres
    | some q =>
      obtain ⟨d, dv⟩ := q
      obtain ⟨hdle, hdrow, -⟩ := latest_eq_some_iff.mp hld
      rw [hld, Resolved] at hres
      have hle := height_le_height hdle hi hS
      simp only [Option.map_some, gt_iff_lt, ← UInt64.not_le, hle]
      by_cases hdi : d ≤ i
      · rw [if_pos hdi] at hres
        rw [if_neg (not_not.mpr hdi)]
        split
        · -- slot row and destruct of one block: the account row is there
          rename_i heq
          have hid : d = i :=
            Nat.le_antisymm hdi ((height_le_height hi hdle hS).mp (by rw [heq]; exact UInt64.le_refl _))
          subst hid
          have hacct := account_row_of_edge hr hrec (hdle.trans (reach_le S bs at_))
            (by rw [hrow]; simp) (by rw [hdrow]; simp)
          obtain ⟨araw, haraw⟩ := Option.ne_none_iff_exists'.mp hacct
          have hseek : seekLE env (appendAccountKey [] a (height S d)) = some (height S d, araw) :=
            (seekLE_eq_some_iff (t := .account a) hr.laid).mpr
              ⟨haraw, UInt64.le_refl _, fun _ hb _ => hb⟩
          simp only [hseek, ne_eq, not_true_eq_false, if_false]
          exact slotRow_of_holds a s _ hres
        · exact slotRow_of_holds a s _ hres
      · rw [if_neg hdi] at hres
        rw [if_pos hdi, hres]
        rfl
  | none =>
    rw [hls] at hres
    cases hld : latest (versions S env (.destruct a)) (reach S bs at_) with
    | some q =>
      rw [hld] at hres
      left
      rw [hres]
      rfl
    | none =>
      -- no history: the baseline decides
      rw [hld] at hres
      simp only [Option.map_none]
      have hval : stateAt keccak base bs (reach S bs at_) (.slot a s) =
        base.state keccak (.slot a s) := hres
      rw [hval]
      cases hbase : env.get (appendBaseSlotKey [] (keccak a.1) (keccak s.1)) with
      | some raw =>
        left
        exact slotRow_of_holds a s _ (hr.baseRow (.slot a s) raw hbase)
      | none =>
        rw [missAllowed_eq hc]
        by_cases hset : row env .baselineComplete = none
        · right
          exact ⟨by simp [hset], hset, hnoRow hls, hnoDes hld, hbase⟩
        · left
          rw [base_of_no_row hr hS (k := .slot a s) (hnoRow hls) hbase hset]
          simp [hset, Val.gone]

/-- A read of a key at `Latest`. -/
def readLatest (keccak : Bytes → Hash) (h : Handle) (env : Env) : (k : Key) → Except Err (Val k)
  | .account a => getAccount keccak h env a Latest
  | .slot a s => getSlot keccak h env a s Latest

end Reads

end Flatstate.Store
