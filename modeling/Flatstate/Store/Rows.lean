import Flatstate.Store.Read

set_option autoImplicit false

/-!
# Store: the environment as a set of rows

Every key in the environment is the key of a row (`Laid`), and no two rows share
a key, so that a put or a delete changes one row and no other.  Over a laid-out
environment `seekLE` is the newest row of a track at or before a block.
-/

namespace Flatstate.Capture

open Foundation Schema

/-- The history an op adds to; code is stored by its hash. -/
def Op.track? : Op → Option Track
  | .account a _ => some (.account a)
  | .slot a s _ => some (.slot a s)
  | .deleteSlot a s => some (.slot a s)
  | .destruct a => some (.destruct a)
  | .code _ _ => none

/-- The row an op writes. -/
def Op.row (block : UInt64) : Op → Row
  | .account a _ => .history (.account a) block
  | .slot a s _ => .history (.slot a s) block
  | .deleteSlot a s => .history (.slot a s) block
  | .destruct a => .history (.destruct a) block
  | .code h _ => .code h

/-- The bytes an op writes. -/
def Op.raw : Op → Bytes
  | .account _ acct => encodeAccount [] acct
  | .slot _ _ v => v.1
  | .deleteSlot _ _ => Hash.zero.1
  | .destruct _ => []
  | .code _ c => c

end Flatstate.Capture

namespace Flatstate.Store

open Foundation Schema Capture

/-- The value of a row. -/
def row (env : Env) (r : Row) : Option Bytes := env.get r.key

/-- Every key is the key of a row. -/
def Laid (env : Env) : Prop := ∀ k v, env.get k = some v → ∃ r : Row, k = r.key

theorem row_put (env : Env) (r r' : Row) (v : Bytes) :
    row (env.put r.key v) r' = if r' = r then some v else row env r' := by
  simp only [row, OrdMap.get_put, Row.key_inj]

theorem row_put_of_ne (env : Env) {r r' : Row} (v : Bytes) (h : r' ≠ r) :
    row (env.put r.key v) r' = row env r' := by
  rw [row_put, if_neg h]

theorem row_put_ne_none {env : Env} {r : Row} (r' : Row) (v : Bytes) (h : row env r ≠ none) :
    row (env.put r'.key v) r ≠ none := by
  rw [row_put]
  split
  · simp
  · exact h

theorem row_del (env : Env) (r r' : Row) :
    row (env.del r.key) r' = if r' = r then none else row env r' := by
  simp only [row, OrdMap.get_del, Row.key_inj]

@[simp] theorem row_empty (r : Row) : row OrdMap.empty r = none := rfl

theorem Laid.empty : Laid OrdMap.empty := by
  intro k v h
  simp at h

theorem Laid.put {env : Env} (h : Laid env) (r : Row) (v : Bytes) : Laid (env.put r.key v) := by
  intro k w hk
  rw [OrdMap.get_put] at hk
  split at hk
  · exact ⟨r, ‹_›⟩
  · exact h k w hk

theorem Laid.del {env : Env} (h : Laid env) (r : Row) : Laid (env.del r.key) := by
  intro k w hk
  rw [OrdMap.get_del] at hk
  split at hk
  · cases hk
  · exact h k w hk

/-! ## The seek -/

section Seek

variable {env : Env} {t : Track} {at_ b : UInt64} {v : Bytes}

/-- A key that passes the checks of `seekLE` is a key of the track. -/
theorem eq_key_of_checks {k : Bytes} (hlen : k.length = (t.key at_).length)
    (htake : k.take ((t.key at_).length - 8) = (t.key at_).take ((t.key at_).length - 8)) :
    k = t.key (decodeInvBlock (k.drop ((t.key at_).length - 8))) := by
  have hdrop : (k.drop ((t.key at_).length - 8)).length = 8 := by
    rw [List.length_drop, hlen, Track.key_eq, List.length_append, length_beEncode]
    omega
  rw [Track.key_eq, beEncode_decodeInvBlock hdrop, ← Track.take_key t at_, ← htake,
    List.take_append_drop]

/-- What a hit of `seekLE` says. -/
theorem seekLE_hit (h : seekLE env (t.key at_) = some (b, v)) :
    row env (.history t b) = some v ∧ b ≤ at_ ∧
      ∀ b', b' ≤ at_ → row env (.history t b') ≠ none → b' ≤ b := by
  rw [seekLE] at h
  cases hs : env.setRange (t.key at_) with
  | none => rw [hs] at h; cases h
  | some kv =>
    obtain ⟨k, w⟩ := kv
    rw [hs] at h
    dsimp only at h
    split at h
    · cases h
    · rename_i hchk
      obtain ⟨hlen, htake⟩ := not_or.mp hchk
      obtain ⟨rfl, rfl⟩ := Prod.mk.inj (Option.some.inj h)
      have hk := eq_key_of_checks (not_not.mp hlen) (not_not.mp htake)
      obtain ⟨hget, hle, hmin⟩ := OrdMap.setRange_eq_some hs
      rw [hk] at hget hle
      refine ⟨hget, (Track.key_le_iff _ _ _).mp hle, fun b' hb' hrow => ?_⟩
      obtain ⟨w', hw'⟩ := Option.ne_none_iff_exists'.mp hrow
      have hkb := hmin (t.key b') w' hw' ((Track.key_le_iff _ _ _).mpr hb')
      rw [hk] at hkb
      exact (Track.key_le_iff _ _ _).mp hkb

/-- A row at the block itself is found, whatever else is there. -/
theorem seekLE_self (h : row env (.history t at_) = some v) :
    seekLE env (t.key at_) = some (at_, v) := by
  have hget : env.get (t.key at_) = some v := h
  unfold seekLE
  cases hs : env.setRange (t.key at_) with
  | none => exact absurd (OrdMap.setRange_eq_none hs _ v hget) (lt_irrefl _)
  | some kv =>
    obtain ⟨k, w⟩ := kv
    obtain ⟨hk, hle, hmin⟩ := OrdMap.setRange_eq_some hs
    obtain rfl : t.key at_ = k := le_antisymm hle (hmin _ v hget le_rfl)
    rw [hget] at hk
    obtain rfl := Option.some.inj hk
    have hlen : (t.key at_).length - 8 = t.stem.length := by
      rw [Track.key_eq, List.length_append, length_beEncode, Nat.add_sub_cancel]
    have hdrop : (t.key at_).drop ((t.key at_).length - 8) = beEncode 8 (~~~at_).toNat := by
      rw [hlen, Track.key_eq, List.drop_left]
    dsimp only
    rw [if_neg (by simp), hdrop, decodeInvBlock, beDecode_beEncode_of_lt (uint64_toNat_lt _),
      UInt64.ofNat_toNat, UInt64.not_not]

/-- A seek that does not stop at its own block says that there is no row. -/
theorem row_eq_none_of_seekLE {found : Option (UInt64 × Bytes)} (h : seekLE env (t.key at_) = found)
    (hne : ∀ w, found ≠ some (at_, w)) : row env (.history t at_) = none := by
  cases hrow : row env (.history t at_) with
  | none => rfl
  | some w => exact absurd (h.symm.trans (seekLE_self hrow)) (hne w)

/-- What a miss of `seekLE` says: the least key at or above the seek key is not a
key of the track, and between two keys of a track there are only its own keys. -/
theorem seekLE_miss (hw : Laid env) (h : seekLE env (t.key at_) = none) :
    ∀ b, b ≤ at_ → row env (.history t b) = none := by
  intro b hb
  by_contra hrow
  obtain ⟨v, hv⟩ := Option.ne_none_iff_exists'.mp hrow
  have hle := (Track.key_le_iff t at_ b).mpr hb
  rw [seekLE] at h
  cases hs : env.setRange (t.key at_) with
  | none => exact absurd (OrdMap.setRange_eq_none hs (t.key b) v hv) (not_lt.mpr hle)
  | some kv =>
    obtain ⟨k, w⟩ := kv
    obtain ⟨hget, hle', hmin⟩ := OrdMap.setRange_eq_some hs
    obtain ⟨r, rfl⟩ := hw k w hget
    obtain ⟨b', rfl, -, -⟩ := exists_block_of_between hle' (hmin (t.key b) v hv hle)
    have htake : (t.key b').take ((t.key at_).length - 8) =
        (t.key at_).take ((t.key at_).length - 8) := by
      rw [Track.take_key t at_, Track.length_key_eq t at_ b', Track.take_key t b']
    rw [hs] at h
    dsimp only at h
    rw [if_neg (by
      rw [Row.key, htake]
      simpa using Track.length_key_eq t b' at_)] at h
    cases h

/-- `seekLE` finds the newest write of the track at or before the block. -/
theorem seekLE_eq_some_iff (hw : Laid env) :
    seekLE env (t.key at_) = some (b, v) ↔
      row env (.history t b) = some v ∧ b ≤ at_ ∧
        ∀ b', b' ≤ at_ → row env (.history t b') ≠ none → b' ≤ b := by
  constructor
  · exact seekLE_hit
  · rintro ⟨hrow, hb, hmax⟩
    cases hs : seekLE env (t.key at_) with
    | none => rw [seekLE_miss hw hs b hb] at hrow; cases hrow
    | some bv =>
      obtain ⟨b', v'⟩ := bv
      obtain ⟨hrow', hb', hmax'⟩ := seekLE_hit hs
      have h1 := hmax b' hb' (by rw [hrow']; simp)
      have h2 := hmax' b hb (by rw [hrow]; simp)
      have hbb : b = b' := UInt64.le_antisymm h2 h1
      rw [← hbb, hrow] at hrow'
      rw [hbb, Option.some.inj hrow']

/-- `seekLE` reports nothing iff there is nothing. -/
theorem seekLE_eq_none_iff (hw : Laid env) :
    seekLE env (t.key at_) = none ↔ ∀ b, b ≤ at_ → row env (.history t b) = none := by
  constructor
  · exact seekLE_miss hw
  · intro h
    cases hs : seekLE env (t.key at_) with
    | none => rfl
    | some bv =>
      obtain ⟨b, v⟩ := bv
      obtain ⟨hrow, hb, -⟩ := seekLE_hit hs
      rw [h b hb] at hrow
      cases hrow

/-- The newest of the rows under `key` at or before a block, or nothing if there are none. -/
def Newest (env : Env) (key : UInt64 → Bytes) (at_ : UInt64) : Option (UInt64 × Bytes) → Prop
  | some (b, v) => env.get (key b) = some v ∧ b ≤ at_ ∧
      ∀ b', b' ≤ at_ → env.get (key b') ≠ none → b' ≤ b
  | none => ∀ b, b ≤ at_ → env.get (key b) = none

theorem seekLE_track (hw : Laid env) (t : Track) (at_ : UInt64) :
    Newest env t.key at_ (seekLE env (t.key at_)) := by
  cases hs : seekLE env (t.key at_) with
  | none => exact (seekLE_eq_none_iff hw).mp hs
  | some bv =>
    obtain ⟨b, v⟩ := bv
    exact (seekLE_eq_some_iff hw).mp hs

/-- `seekLE` on the key of an account, a slot or a destruct for a block finds the greatest
write at or before the block among the rows of exactly that key, whatever other rows share the
key space, and nothing only if there is none. -/
theorem seekLE_finds_newest (hw : Laid env) (addr : Address) (slot : Hash) (at_ : UInt64) :
    Newest env (appendAccountKey [] addr) at_ (seekLE env (appendAccountKey [] addr at_)) ∧
    Newest env (appendSlotKey [] addr slot) at_ (seekLE env (appendSlotKey [] addr slot at_)) ∧
    Newest env (appendDestructKey [] addr) at_ (seekLE env (appendDestructKey [] addr at_)) :=
  ⟨seekLE_track hw (.account addr) at_, seekLE_track hw (.slot addr slot) at_,
    seekLE_track hw (.destruct addr) at_⟩

end Seek

namespace SeekSample

/-- Two neighbouring addresses. -/
def addr : Address := FixedBytes.ofNat 20 7

def neighbour : Address := FixedBytes.ofNat 20 8

def slot : Hash := FixedBytes.ofNat 32 1

/-- Rows of several keyspaces: the address was written at the first block, at 5 and at the last
one, and never destructed. -/
def rows : List (Row × Bytes) :=
  [(.genesis, beBytes 0), (.history (.account addr) 0, [1]), (.history (.account addr) 5, [2]),
    (.history (.account addr) 0xffffffffffffffff, [3]), (.history (.account neighbour) 3, [4]),
    (.history (.slot addr slot) 4, [5]), (.history (.destruct neighbour) 2, []), (.diff 4, [6]),
    (.baseAccount slot, [7])]

def store : Env := rows.foldl (fun env r => env.put r.1.key r.2) OrdMap.empty

theorem store_laid : Laid store :=
  ((((((((Laid.empty.put _ _).put _ _).put _ _).put _ _).put _ _).put _ _).put _ _).put _ _).put _ _

end SeekSample

open SeekSample in
/-- The seeks at the last block, at the first block and in between. -/
theorem seekLE_finds_newest_sample :
    seekLE store (appendAccountKey [] addr 0xffffffffffffffff) = some (0xffffffffffffffff, [3]) ∧
    seekLE store (appendAccountKey [] addr 4) = some (0, [1]) ∧
    seekLE store (appendDestructKey [] addr 0xffffffffffffffff) = none ∧
    Newest store (appendAccountKey [] addr) 4 (some (0, [1])) := by
  have hseek : seekLE store (appendAccountKey [] addr 4) = some (0, [1]) := by decide +kernel
  have hnewest := (seekLE_finds_newest store_laid addr slot 4).1
  rw [hseek] at hnewest
  exact ⟨by decide +kernel, hseek, by decide +kernel, hnewest⟩

/-! ## What a block writes -/

theorem putOp_eq (block : UInt64) (env : Env) (op : Op) :
    putOp block env op = env.put (op.row block).key (op.raw) := by
  cases op <;> rfl

/-- The last value a list of ops writes to a history. -/
def lastRow (ops : List Op) (t : Track) : Option Bytes :=
  ops.foldl (fun acc op => if op.track? = some t then some (op.raw) else acc) none

@[simp] theorem lastRow_nil (t : Track) : lastRow [] t = none := rfl

theorem lastRow_concat (ops : List Op) (op : Op) (t : Track) :
    lastRow (ops ++ [op]) t =
      if op.track? = some t then some (op.raw) else lastRow ops t := by
  simp [lastRow]

theorem lastRow_ne_none_iff {ops : List Op} {t : Track} :
    lastRow ops t ≠ none ↔ ∃ op ∈ ops, op.track? = some t := by
  induction ops using List.reverseRecOn with
  | nil => simp
  | append_singleton ops op ih =>
    rw [lastRow_concat]
    by_cases hop : op.track? = some t
    · simp only [hop, if_true, ne_eq, reduceCtorEq, not_false_eq_true, true_iff]
      exact ⟨op, by simp, hop⟩
    · simp only [if_neg hop, ih, List.mem_append, List.mem_singleton]
      constructor
      · rintro ⟨o, ho, hot⟩
        exact ⟨o, Or.inl ho, hot⟩
      · rintro ⟨o, ho | rfl, hot⟩
        · exact ⟨o, ho, hot⟩
        · exact absurd hot hop

theorem Op.row_eq_history {block b : UInt64} {op : Op} {t : Track} :
    op.row block = .history t b ↔ b = block ∧ op.track? = some t := by
  cases op <;> simp [Op.row, Op.track?, and_comm, eq_comm]

theorem putOps_concat (block : UInt64) (ops : List Op) (op : Op) (env : Env) :
    putOps block (ops ++ [op]) env = putOp block (putOps block ops env) op := by
  simp [putOps]

theorem Laid.putOps {env : Env} (h : Laid env) (block : UInt64) (ops : List Op) :
    Laid (putOps block ops env) := by
  induction ops using List.reverseRecOn with
  | nil => exact h
  | append_singleton ops op ih =>
    rw [putOps_concat, putOp_eq]
    exact ih.put _ _

theorem Laid.writeBlock {env : Env} (h : Laid env) (b : Batch) : Laid (writeBlock env b) :=
  (h.putOps b.block b.ops).put (.diff b.block) _

theorem row_putOps_history (block b : UInt64) (ops : List Op) (env : Env) (t : Track) :
    row (putOps block ops env) (.history t b) =
      if b = block then (lastRow ops t).or (row env (.history t b))
      else row env (.history t b) := by
  induction ops using List.reverseRecOn with
  | nil => simp [putOps]
  | append_singleton ops op ih =>
    rw [putOps_concat, putOp_eq, row_put, ih, lastRow_concat]
    by_cases hb : b = block
    · by_cases hop : op.track? = some t
      · have heq : op.row block = .history t block := Op.row_eq_history.mpr ⟨rfl, hop⟩
        simp [hb, hop, heq]
      · have hne : Row.history t block ≠ op.row block :=
          fun h => hop (Op.row_eq_history.mp h.symm).2
        simp [hb, hop, hne]
    · have hne : Row.history t b ≠ op.row block :=
        fun h => hb (Op.row_eq_history.mp h.symm).1
      simp [hb, hne]

/-- A block's ops write history and code rows and nothing else. -/
theorem row_putOps_other (block : UInt64) (ops : List Op) (env : Env) {r : Row}
    (hh : ∀ t b, r ≠ .history t b) (hc : ∀ h, r ≠ .code h) :
    row (putOps block ops env) r = row env r := by
  induction ops using List.reverseRecOn with
  | nil => rfl
  | append_singleton ops op ih =>
    rw [putOps_concat, putOp_eq, row_put_of_ne, ih]
    cases op with
    | code h c => exact hc h
    | _ => exact hh _ _

theorem row_writeBlock_history (env : Env) (b : Batch) (t : Track) (h : UInt64) :
    row (writeBlock env b) (.history t h) =
      if h = b.block then (lastRow b.ops t).or (row env (.history t h))
      else row env (.history t h) := by
  have hne : Row.history t h ≠ Row.diff b.block := by simp
  rw [← row_putOps_history]
  exact row_put_of_ne _ _ hne

theorem row_writeBlock_diff (env : Env) (b : Batch) (h : UInt64) :
    row (writeBlock env b) (.diff h) = if h = b.block then some (b.encode []) else row env (.diff h) := by
  have hput : row (writeBlock env b) (.diff h) = _ :=
    row_put (putOps b.block b.ops env) (.diff b.block) (.diff h) (b.encode [])
  rw [hput, row_putOps_other _ _ _ (by simp) (by simp)]
  simp

/-- The puts of a block, in order. -/
theorem writeBlock_eq_putAll (env : Env) (b : Batch) :
    writeBlock env b =
      env.putAll (b.ops.map (fun op => ((op.row b.block).key, op.raw)) ++
        [((Row.diff b.block).key, b.encode [])]) := by
  rw [OrdMap.putAll, List.foldl_append, List.foldl_map, writeBlock, putOps,
    show putOp b.block = fun env op => env.put (op.row b.block).key op.raw from
      funext₂ (putOp_eq b.block)]
  rfl

/-- A block that is written again changes nothing. -/
theorem writeBlock_writeBlock (env : Env) (b : Batch) :
    writeBlock (writeBlock env b) b = writeBlock env b := by
  rw [writeBlock_eq_putAll (writeBlock env b), writeBlock_eq_putAll, OrdMap.putAll_putAll]

/-- What a block leaves in a row: its diff, or what the last op on the row writes. -/
def rowOf (b : Batch) (r : Row) : Option Bytes :=
  if r = .diff b.block then some (b.encode [])
  else (b.ops.reverse.find? (fun op => op.row b.block = r)).map Op.raw

theorem row_writeBlock (env : Env) (b : Batch) (r : Row) :
    row (writeBlock env b) r = (rowOf b r).or (row env r) := by
  have hops : ∀ ops : List Op, row (putOps b.block ops env) r =
      ((ops.reverse.find? (fun op => op.row b.block = r)).map Op.raw).or (row env r) := by
    intro ops
    induction ops using List.reverseRecOn with
    | nil => rfl
    | append_singleton ops op ih =>
      rw [putOps_concat, putOp_eq, row_put, ih, List.reverse_concat, List.find?_cons]
      by_cases hop : op.row b.block = r
      · simp [hop]
      · simp [hop, Ne.symm hop]
  have hput : row (writeBlock env b) r = _ :=
    row_put (putOps b.block b.ops env) (.diff b.block) r (b.encode [])
  rw [hput, hops, rowOf]
  split <;> rfl

/-- Every row of a block is in the store, with the value the block leaves there. -/
def BlockStored (env : Env) (b : Batch) : Prop := ∀ r raw, rowOf b r = some raw → row env r = some raw

/-- Exactly a block that is stored already can be written without a trace. -/
theorem writeBlock_eq_self_iff (env : Env) (b : Batch) : writeBlock env b = env ↔ BlockStored env b := by
  constructor
  · intro hw r raw hr
    rw [← hw, row_writeBlock, hr]
    rfl
  · intro hs
    refine OrdMap.ext_get (fun k => ?_)
    by_cases hk : ∃ r : Row, k = r.key
    · obtain ⟨r, rfl⟩ := hk
      have hrow := row_writeBlock env b r
      cases hr : rowOf b r with
      | none => rwa [hr] at hrow
      | some raw =>
        rw [hr] at hrow
        exact hrow.trans (hs r raw hr).symm
    · rw [writeBlock_eq_putAll]
      refine OrdMap.get_putAll_of_not_mem env fun hmem => hk ?_
      obtain ⟨w, hw, rfl⟩ := List.mem_map.mp hmem
      rcases List.mem_append.mp hw with hw | hw
      · obtain ⟨op, -, rfl⟩ := List.mem_map.mp hw
        exact ⟨_, rfl⟩
      · exact ⟨.diff b.block, congrArg Prod.fst (List.mem_singleton.mp hw)⟩

/-- A block's write leaves the meta rows, the baseline and the queue alone. -/
theorem row_writeBlock_other (env : Env) (b : Batch) {r : Row} (hh : ∀ t h, r ≠ .history t h)
    (hc : ∀ h, r ≠ .code h) (hd : ∀ h, r ≠ .diff h) : row (writeBlock env b) r = row env r :=
  (row_put_of_ne _ _ (hd b.block)).trans (row_putOps_other _ _ _ hh hc)

/-! ## What the loader writes -/

/-- The row an op of the loader is about. -/
def LoadRow.target (s : UInt64) : LoadRow → Row
  | .account addr _ => .history (.account addr) s
  | .slot addr key _ => .history (.slot addr key) s
  | .code hash _ => .code hash
  | .baseAccount addrHash _ => .baseAccount addrHash
  | .baseSlot addrHash slotHash _ => .baseSlot addrHash slotHash
  | .queueStorage addrHash _ | .dequeueStorage addrHash => .storageQueue addrHash

/-- What it leaves there. -/
def LoadRow.value : LoadRow → Option Bytes
  | .account _ a | .baseAccount _ a => some (encodeAccount [] a)
  | .slot _ _ val | .baseSlot _ _ val => some val.1
  | .code _ c => some c
  | .queueStorage _ root => some root.1
  | .dequeueStorage _ => none

theorem LoadRow.run_op (env : Env) (s : UInt64) (r : LoadRow) :
    (r.op s).run env =
      match r.value with
      | none => env.del (r.target s).key
      | some v => env.put (r.target s).key v := by
  cases r <;> rfl

theorem row_run (env : Env) (s : UInt64) (r : LoadRow) (r' : Row) :
    row ((r.op s).run env) r' = if r' = r.target s then r.value else row env r' := by
  rw [LoadRow.run_op]
  cases r.value with
  | none => exact row_del env _ r'
  | some v => exact row_put env _ r' v

theorem row_run_of_ne (env : Env) {s : UInt64} {r : LoadRow} {r' : Row} (h : r' ≠ r.target s) :
    row ((r.op s).run env) r' = row env r' := by
  rw [row_run, if_neg h]

theorem Laid.run {env : Env} (h : Laid env) (s : UInt64) (r : LoadRow) :
    Laid ((r.op s).run env) := by
  rw [LoadRow.run_op]
  cases r.value with
  | none => exact h.del _
  | some v => exact h.put _ v

theorem genesis_done (h : Handle) (env : Env) :
    (genesis h env).2.baselineDone = h.baselineDone := by
  unfold genesis
  split
  · rfl
  · split <;> rfl

/-- A loader that starts has nothing buffered, and at most the genesis is new. -/
theorem newBaseline_ok {h h' : Handle} {env env' : Env} {height : UInt64} {bl : Baseline}
    (hok : newBaseline h env height = .ok (bl, env', h')) :
    bl = ⟨height, [], none⟩ ∧
      (env' = env ∨ env' = env.put (Row.key .genesis) (beBytes height)) ∧
      h'.baselineDone = h.baselineDone := by
  have hdone := genesis_done h env
  unfold newBaseline at hok
  cases hg : genesis h env with
  | mk r h₁ =>
    rw [hg] at hok hdone
    cases r with
    | error e => cases hok
    | ok cur =>
      cases cur with
      | none =>
        obtain ⟨rfl, hrest⟩ := Prod.mk.inj (Except.ok.inj hok)
        obtain ⟨rfl, rfl⟩ := Prod.mk.inj hrest
        exact ⟨rfl, Or.inr rfl, hdone⟩
      | some cur =>
        dsimp only at hok
        split at hok
        · cases hok
        · obtain ⟨rfl, hrest⟩ := Prod.mk.inj (Except.ok.inj hok)
          obtain ⟨rfl, rfl⟩ := Prod.mk.inj hrest
          exact ⟨rfl, Or.inl rfl, hdone⟩

end Flatstate.Store
