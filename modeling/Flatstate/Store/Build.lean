import Flatstate.Store.Refine

set_option autoImplicit false

/-!
# Store: how a store is built, and that its reads are right

A store starts with `NewBaseline(S)`.  From then on the loader adds rows of the
baseline in chunks, the writer writes the blocks above `S` one after the other,
and handles of any process cache what they see.  Every store built this way
refines its baseline and its batches, whatever the interleaving.
-/

namespace Flatstate.Store

open Foundation Schema Capture

variable {keccak : Bytes → Hash} {base : Trie} {S : UInt64} {bs : List Batch} {env : Env}

/-! ## One lemma per kind of write -/

/-- The rows that reads at a height look at. -/
def readRow : Row → Bool
  | .genesis | .baselineComplete | .history _ _ | .diff _ | .baseAccount _ | .baseSlot _ _ => true
  | _ => false

/-- Rows that no read looks at do not matter. -/
theorem Refines.frame (hr : Refines keccak base S bs env) {env' : Env} (hl : Laid env')
    (heq : ∀ r, readRow r = true → row env' r = row env r) : Refines keccak base S bs env' where
  laid := hl
  fits := hr.fits
  genesis := (heq .genesis rfl).trans hr.genesis
  below t b hb := (heq (.history t b) rfl).trans (hr.below t b hb)
  atGenesis k raw h := hr.atGenesis k raw (by rwa [heq (.history k.track S) rfl] at h)
  noDestruct a := (heq (.history (.destruct a) S) rfl).trans (hr.noDestruct a)
  baseRow k raw h := hr.baseRow k raw (by rwa [heq _ (by cases k <;> rfl)] at h)
  above t n b hb := (heq (.history t _) rfl).trans (hr.above t n b hb)
  beyond t b hb := (heq (.history t b) rfl).trans (hr.beyond t b hb)
  diffs n b hb := (heq (.diff _) rfl).trans (hr.diffs n b hb)
  complete h k hk := by
    rw [heq _ rfl, heq _ (by cases k <;> rfl)]
    exact hr.complete (by rwa [heq .baselineComplete rfl] at h) k hk

/-- A row of the loader states a leaf of the baseline. -/
def LoadRow.Of (keccak : Bytes → Hash) (base : Trie) : LoadRow → Prop
  | .account addr a => base.accounts (keccak addr.1) = some a
  | .slot addr key val => base.slots (keccak addr.1) (keccak key.1) = some val
  | .baseAccount addrHash a => base.accounts addrHash = some a
  | .baseSlot addrHash slotHash val => base.slots addrHash slotHash = some val
  | .code _ _ | .queueStorage _ _ | .dequeueStorage _ => True

/-- A put of a key's baseline value, under its preimage key or its hash key. -/
theorem Refines.put_base (hr : Refines keccak base S bs env) {r : Row} {raw : Bytes}
    (hkind : (∃ k : Key, r = .history k.track S) ∨ (∃ h, r = .baseAccount h) ∨ ∃ h h', r = .baseSlot h h')
    (hpre : ∀ k : Key, r = .history k.track S → k.Holds raw (base.state keccak k))
    (hbase : ∀ k : Key, r = k.baseRow keccak → k.Holds raw (base.state keccak k)) :
    Refines keccak base S bs (env.put r.key raw) := by
  -- the row is at the genesis height, or not a history row at all
  have hhist : ∀ t b, r = .history t b → b = S ∧ ∃ k : Key, t = k.track := by
    intro t b h
    rcases hkind with ⟨k, hk⟩ | ⟨h', hk⟩ | ⟨h', h'', hk⟩ <;> rw [hk] at h
    · obtain ⟨rfl, rfl⟩ := Row.history.inj h
      exact ⟨rfl, k, rfl⟩
    · cases h
    · cases h
  have hmeta : r ≠ .genesis ∧ r ≠ .baselineComplete ∧ ∀ b, r ≠ .diff b := by
    rcases hkind with ⟨k, hk⟩ | ⟨h', hk⟩ | ⟨h', h'', hk⟩ <;> simp [hk]
  have hne : ∀ t b, b ≠ S → row (env.put r.key raw) (.history t b) = row env (.history t b) :=
    fun t b hb => row_put_of_ne _ _ (fun h => hb (hhist t b h.symm).1)
  refine ⟨hr.laid.put r raw, hr.fits, ?_, ?_, ?_, ?_, ?_, ?_, ?_, ?_, ?_⟩
  · rw [row_put_of_ne _ _ hmeta.1.symm]
    exact hr.genesis
  · intro t b hb
    rw [hne t b (fun h => UInt64.lt_irrefl S (h ▸ hb))]
    exact hr.below t b hb
  · intro k raw' h
    rw [row_put] at h
    split at h
    · rename_i heq
      exact Option.some.inj h ▸ hpre k heq.symm
    · exact hr.atGenesis k raw' h
  · intro a
    rw [row_put_of_ne _ _ (fun h => by
      obtain ⟨-, k, hk⟩ := hhist _ _ h.symm
      cases k <;> cases hk)]
    exact hr.noDestruct a
  · intro k raw' h
    rw [row_put] at h
    split at h
    · rename_i heq
      exact Option.some.inj h ▸ hbase k heq.symm
    · exact hr.baseRow k raw' h
  · intro t n b hb
    have hlt : n < bs.length := (List.getElem?_eq_some_iff.mp hb).1
    have hfits := hr.fits
    rw [hne t _ (height_succ_ne (by omega))]
    exact hr.above t n b hb
  · intro t b hb
    rw [hne t b (fun h => by rw [h] at hb; omega)]
    exact hr.beyond t b hb
  · intro n b hb
    rw [row_put_of_ne _ _ (hmeta.2.2 _).symm]
    exact hr.diffs n b hb
  · intro h k hk
    rw [row_put_of_ne _ _ hmeta.2.1.symm] at h
    exact (hr.complete h k hk).imp (row_put_ne_none r raw) (row_put_ne_none r raw)

/-- Rows that no read looks at, put or deleted. -/
theorem Refines.put_other (hr : Refines keccak base S bs env) {r : Row} (h : readRow r = false)
    (raw : Bytes) : Refines keccak base S bs (env.put r.key raw) :=
  hr.frame (hr.laid.put r raw) (fun r' hr' => row_put_of_ne _ _ (fun heq => by
    rw [heq, h] at hr'
    cases hr'))

theorem Refines.del_other (hr : Refines keccak base S bs env) {r : Row} (h : readRow r = false) :
    Refines keccak base S bs (env.del r.key) :=
  hr.frame (hr.laid.del r) (fun r' hr' => by
    rw [row_del, if_neg]
    intro heq
    rw [heq, h] at hr'
    cases hr')

/-- The loader writes one row. -/
theorem Refines.load (hr : Refines keccak base S bs env) {r : LoadRow} (h : r.Of keccak base) :
    Refines keccak base S bs ((r.op S).run env) := by
  cases r with
  | account addr a =>
    refine hr.put_base (r := .history (.account addr) S) (Or.inl ⟨.account addr, rfl⟩) ?_ ?_
    · intro k hk
      cases k with
      | account a' =>
        obtain ⟨rfl, -⟩ : addr = a' ∧ True := by simpa [Key.track] using hk
        exact ⟨a, h, rfl⟩
      | slot a' s' => simp [Key.track] at hk
    · intro k hk
      cases k <;> cases hk
  | slot addr key val =>
    refine hr.put_base (r := .history (.slot addr key) S) (Or.inl ⟨.slot addr key, rfl⟩) ?_ ?_
    · intro k hk
      cases k with
      | account a' => simp [Key.track] at hk
      | slot a' s' =>
        obtain ⟨rfl, rfl⟩ : addr = a' ∧ key = s' := by simpa [Key.track] using hk
        have hval : base.slots (keccak addr.1) (keccak key.1) = some val := h
        simp [Key.Holds, Trie.state, hval]
    · intro k hk
      cases k <;> cases hk
  | baseAccount addrHash a =>
    refine hr.put_base (r := .baseAccount addrHash) (Or.inr (Or.inl ⟨addrHash, rfl⟩)) ?_ ?_
    · intro k hk
      cases hk
    · intro k hk
      cases k with
      | account a' =>
        obtain rfl : addrHash = keccak a'.1 := by simpa [Key.baseRow] using hk
        exact ⟨a, h, rfl⟩
      | slot a' s' => cases hk
  | baseSlot addrHash slotHash val =>
    refine hr.put_base (r := .baseSlot addrHash slotHash) (Or.inr (Or.inr ⟨_, _, rfl⟩)) ?_ ?_
    · intro k hk
      cases hk
    · intro k hk
      cases k with
      | account a' => cases hk
      | slot a' s' =>
        obtain ⟨rfl, rfl⟩ : addrHash = keccak a'.1 ∧ slotHash = keccak s'.1 := by
          simpa [Key.baseRow] using hk
        have hval : base.slots (keccak a'.1) (keccak s'.1) = some val := h
        simp [Key.Holds, Trie.state, hval]
  | code hash c => exact hr.put_other (r := .code hash) rfl _
  | queueStorage addrHash root => exact hr.put_other (r := .storageQueue addrHash) rfl _
  | dequeueStorage addrHash => exact hr.del_other (r := .storageQueue addrHash) rfl

/-- One block on top of the chain. -/
theorem Refines.writeBlock (hr : Refines keccak base S bs env) {b : Batch}
    (hb : b.block.toNat = S.toNat + bs.length + 1) :
    Refines keccak base S (bs ++ [b]) (writeBlock env b) := by
  have hlt := b.block.toNat_lt
  have hne : ∀ t h, h.toNat ≠ b.block.toNat →
      row (Store.writeBlock env b) (.history t h) = row env (.history t h) := by
    intro t h hne
    rw [row_writeBlock_history, if_neg (fun heq => hne (by rw [heq]))]
  have hother : ∀ r, (∀ t h, r ≠ .history t h) → (∀ h, r ≠ .diff h) → readRow r = true →
      row (Store.writeBlock env b) r = row env r := by
    intro r hh hd hread
    exact row_writeBlock_other env b hh (by rintro h rfl; cases hread) hd
  have hkey : ∀ k : Key, row (Store.writeBlock env b) (k.baseRow keccak) =
      row env (k.baseRow keccak) := by
    intro k
    exact hother _ (by cases k <;> simp [Key.baseRow]) (by cases k <;> simp [Key.baseRow])
      (by cases k <;> rfl)
  have hh : height S (bs.length + 1) = b.block := by
    apply UInt64.toNat_inj.mp
    rw [toNat_height (by omega)]
    omega
  have hdiff : ∀ h, h.toNat ≠ b.block.toNat →
      row (Store.writeBlock env b) (.diff h) = row env (.diff h) := by
    intro h hne
    rw [row_writeBlock_diff, if_neg (fun heq => hne (by rw [heq]))]
  refine ⟨hr.laid.writeBlock b, by simp; omega, ?_, ?_, ?_, ?_, ?_, ?_, ?_, ?_, ?_⟩
  · rw [hother _ (by simp) (by simp) rfl]
    exact hr.genesis
  · intro t h hS
    have hS' := UInt64.lt_iff_toNat_lt.mp hS
    rw [hne t h (by omega)]
    exact hr.below t h hS
  · intro k raw h
    rw [hne _ S (by omega)] at h
    exact hr.atGenesis k raw h
  · intro a
    rw [hne _ S (by omega)]
    exact hr.noDestruct a
  · intro k raw h
    rw [hkey] at h
    exact hr.baseRow k raw h
  · intro t n b' hn
    rcases Nat.lt_trichotomy n bs.length with hlt' | rfl | hgt
    · rw [List.getElem?_append_left hlt'] at hn
      rw [hne t _ (by rw [toNat_height (by omega)]; omega)]
      exact hr.above t n b' hn
    · -- the new block: nothing was there before
      obtain rfl : b = b' := by simpa using hn
      rw [hh, row_writeBlock_history, if_pos rfl, hr.beyond t b.block (by omega), Option.or_none]
    · rw [List.getElem?_eq_none (by simp; omega)] at hn
      cases hn
  · intro t h hlt'
    rw [List.length_append, List.length_singleton] at hlt'
    rw [hne t h (by omega)]
    exact hr.beyond t h (by omega)
  · intro n b' hn
    rcases Nat.lt_trichotomy n bs.length with hlt' | rfl | hgt
    · rw [List.getElem?_append_left hlt'] at hn
      rw [hdiff _ (by rw [toNat_height (by omega)]; omega)]
      exact hr.diffs n b' hn
    · obtain rfl : b = b' := by simpa using hn
      rw [hh, row_writeBlock_diff, if_pos rfl]
    · rw [List.getElem?_eq_none (by simp; omega)] at hn
      cases hn
  · intro h k hk
    rw [hother _ (by simp) (by simp) rfl] at h
    rw [hne _ S (by omega), hkey]
    exact hr.complete h k hk

/-- The watermark, over a covered baseline. -/
theorem Refines.mark (hr : Refines keccak base S bs env) (hcov : Covered keccak base S env)
    (raw : Bytes) : Refines keccak base S bs (env.put metaBaselineComplete raw) := by
  have heq : ∀ r, r ≠ .baselineComplete → row (env.put metaBaselineComplete raw) r = row env r :=
    fun r h => row_put_of_ne (r := .baselineComplete) env raw h
  refine ⟨hr.laid.put .baselineComplete raw, hr.fits, ?_, ?_, ?_, ?_, ?_, ?_, ?_, ?_, ?_⟩
  · rw [heq _ (by simp)]; exact hr.genesis
  · intro t b hb
    rw [heq _ (by simp)]; exact hr.below t b hb
  · intro k raw' h
    rw [heq _ (by simp)] at h; exact hr.atGenesis k raw' h
  · intro a
    rw [heq _ (by simp)]; exact hr.noDestruct a
  · intro k raw' h
    rw [heq _ (by cases k <;> simp [Key.baseRow])] at h
    exact hr.baseRow k raw' h
  · intro t n b hb
    rw [heq _ (by simp)]; exact hr.above t n b hb
  · intro t b hb
    rw [heq _ (by simp)]; exact hr.beyond t b hb
  · intro n b hb
    rw [heq _ (by simp)]; exact hr.diffs n b hb
  · intro _ k hk
    rw [heq _ (by simp), heq _ (by cases k <;> simp [Key.baseRow])]
    exact hcov k hk

/-! ## Flushes and handles -/

theorem Refines.run_ops (hr : Refines keccak base S bs env) {ops : List BlOp}
    (hops : ∀ op ∈ ops, ∃ r : LoadRow, r.Of keccak base ∧ op = r.op S) :
    Refines keccak base S bs (ops.foldl BlOp.run env) := by
  induction ops generalizing env with
  | nil => exact hr
  | cons op ops ih =>
    obtain ⟨r, hof, rfl⟩ := hops op (by simp)
    exact ih (hr.load hof) (fun o ho => hops o (by simp [ho]))

theorem Refines.flushed (hr : Refines keccak base S bs env) {bl : Baseline}
    (hops : ∀ op ∈ bl.ops, ∃ r : LoadRow, r.Of keccak base ∧ op = r.op S) :
    Refines keccak base S bs (bl.flushed env) := by
  have hrun := hr.run_ops hops
  rw [Baseline.flushed]
  cases bl.progress with
  | none => exact hrun
  | some p => exact hrun.put_other (r := .baselineProgress) rfl p

/-- The caches stay right while the genesis stays and the watermark is not unset. -/
theorem Coherent.of_rows {h : Handle} {env' : Env} (hc : Coherent h env)
    (hg : row env' .genesis = row env .genesis)
    (hd : row env .baselineComplete ≠ none → row env' .baselineComplete ≠ none) :
    Coherent h env' :=
  ⟨fun hne => hg.trans (hc.genesis hne), fun hdone => hd (hc.done hdone)⟩

theorem Coherent.fresh (env : Env) : Coherent {} env :=
  ⟨fun h => absurd rfl h, fun h => absurd h (by decide)⟩

/-- Looking at the genesis keeps the caches right. -/
theorem Coherent.genesis_snd {h : Handle} (hc : Coherent h env)
    (hg : row env .genesis = some (beBytes S)) : Coherent (Store.genesis h env).2 env := by
  have hget : getMetaU64 env metaGenesis = .ok (some S) := getMetaU64_of_row (r := .genesis) hg
  rw [Store.genesis]
  split
  · exact hc
  · rw [hget]
    refine ⟨fun _ => ?_, hc.done⟩
    rw [hg, UInt64.add_sub_cancel]

/-- Looking at the watermark keeps the caches right. -/
theorem Coherent.complete_snd {h : Handle} (hc : Coherent h env) :
    Coherent (Store.baselineComplete h env).2 env := by
  rw [Store.baselineComplete]
  split
  · exact hc
  · split
    · rename_i hsome
      exact ⟨hc.genesis, fun _ => Option.isSome_iff_ne_none.mp hsome⟩
    · exact hc

/-! ## Building a store -/

/-- A store being built: the environment, the loader and two handles, that of the
writer process and that of another one. -/
structure Site where
  env : Env
  bl : Baseline
  writer : Handle
  reader : Handle

/-- The stores built on the baseline `base` at `S`, with the batches written so far.
Flush transactions may fail. -/
inductive Built (keccak : Bytes → Hash) (base : Trie) (S : UInt64) : Site → List Batch → Prop where
  | start {bl : Baseline} {env : Env} {h : Handle}
      (hnew : newBaseline {} OrdMap.empty S = .ok (bl, env, h)) :
      Built keccak base S ⟨env, bl, h, {}⟩ []
  /-- the loader starts again, in the same process or after a restart of it -/
  | restart {w : Site} {bs : List Batch} (hw : Built keccak base S w bs) {h h' : Handle}
      (hh : h = w.writer ∨ h = {}) {bl : Baseline} {env : Env}
      (hnew : newBaseline h w.env S = .ok (bl, env, h')) :
      Built keccak base S { w with env := env, bl := bl, writer := h' } bs
  /-- the loader adds a row of the baseline -/
  | load {w : Site} {bs : List Batch} (hw : Built keccak base S w bs) (ok : Bool) {r : LoadRow}
      (hr : r.Of keccak base) :
      Built keccak base S
        { w with bl := (w.bl.load ok w.env r).2.1, env := (w.bl.load ok w.env r).2.2 } bs
  | setProgress {w : Site} {bs : List Batch} (hw : Built keccak base S w bs) (p : Bytes) :
      Built keccak base S { w with bl := w.bl.setProgress p } bs
  | flush {w : Site} {bs : List Batch} (hw : Built keccak base S w bs) (ok : Bool) :
      Built keccak base S
        { w with bl := (w.bl.flush ok w.env).2.1, env := (w.bl.flush ok w.env).2.2 } bs
  | putBaseAccount {w : Site} {bs : List Batch} (hw : Built keccak base S w bs) {h : Hash}
      {a : Account} (ha : base.accounts h = some a) :
      Built keccak base S { w with env := putBaseAccount w.env h a } bs
  | putBaseSlot {w : Site} {bs : List Batch} (hw : Built keccak base S w bs) {h h' v : Hash}
      (hv : base.slots h h' = some v) :
      Built keccak base S { w with env := putBaseSlot w.env h h' v } bs
  /-- `Finish`, once all rows are in or buffered -/
  | finish {w : Site} {bs : List Batch} (hw : Built keccak base S w bs) (okFlush okMark : Bool)
      (hall : Covered keccak base S (w.bl.clearProgress.flushed w.env)) :
      Built keccak base S
        { w with
          bl := (w.bl.finish okFlush okMark w.env w.writer).2.1
          env := (w.bl.finish okFlush okMark w.env w.writer).2.2.1
          writer := (w.bl.finish okFlush okMark w.env w.writer).2.2.2 } bs
  /-- the next block -/
  | writeBlock {w : Site} {bs : List Batch} (hw : Built keccak base S w bs) {b : Batch}
      (hb : b.block.toNat = S.toNat + bs.length + 1)
      (hc : Contract (foldBatches bs (base.state keccak)) b) :
      Built keccak base S { w with env := writeBlock w.env b } (bs ++ [b])
  | setFinalized {w : Site} {bs : List Batch} (hw : Built keccak base S w bs) (h : UInt64) :
      Built keccak base S { w with env := setFinalized w.env h } bs
  /-- a read of the writer process fills its caches -/
  | writerSees {w : Site} {bs : List Batch} (hw : Built keccak base S w bs) {h : Handle}
      (hh : h = (genesis w.writer w.env).2 ∨ h = (baselineComplete w.writer w.env).2) :
      Built keccak base S { w with writer := h } bs
  /-- the other process opens the store, or a read of it fills its caches -/
  | readerSees {w : Site} {bs : List Batch} (hw : Built keccak base S w bs) {h : Handle}
      (hh : h = {} ∨ h = (genesis w.reader w.env).2 ∨ h = (baselineComplete w.reader w.env).2) :
      Built keccak base S { w with reader := h } bs

/-- What holds of every store built this way. -/
structure SiteInv (keccak : Bytes → Hash) (base : Trie) (S : UInt64) (w : Site)
    (bs : List Batch) : Prop where
  refines : Refines keccak base S bs w.env
  loader : w.bl.s = S
  /-- only rows of the baseline are buffered -/
  buffered : ∀ op ∈ w.bl.ops, ∃ r : LoadRow, r.Of keccak base ∧ op = r.op S
  writer : Coherent w.writer w.env
  reader : Coherent w.reader w.env
  consecutive : Consecutive S bs
  chain : ContractChain (base.state keccak) bs

/-- A write that keeps the genesis and the watermark, and what the rows stand for. -/
theorem SiteInv.of_env {w : Site} (hi : SiteInv keccak base S w bs) {env : Env} {bl : Baseline}
    (hr : Refines keccak base S bs env) (hbl : bl.s = S)
    (hops : ∀ op ∈ bl.ops, ∃ r : LoadRow, r.Of keccak base ∧ op = r.op S)
    (hd : row w.env .baselineComplete ≠ none → row env .baselineComplete ≠ none) :
    SiteInv keccak base S { w with env := env, bl := bl } bs where
  refines := hr
  loader := hbl
  buffered := hops
  writer := hi.writer.of_rows (hr.genesis.trans hi.refines.genesis.symm) hd
  reader := hi.reader.of_rows (hr.genesis.trans hi.refines.genesis.symm) hd
  consecutive := hi.consecutive
  chain := hi.chain

/-- The rows a loader writes before it finishes. -/
def loaderRow : Row → Bool
  | .genesis | .baselineComplete | .finalized | .diff _ => false
  | _ => true

theorem loaderRow_target (S : UInt64) (r : LoadRow) : loaderRow (r.target S) = true := by
  cases r <;> rfl

/-- The loader touches no other row. -/
theorem row_run_other (env : Env) (S : UInt64) (r : LoadRow) {r' : Row} (h : loaderRow r' = false) :
    row ((r.op S).run env) r' = row env r' := by
  refine row_run_of_ne env ?_
  rintro rfl
  rw [loaderRow_target] at h
  cases h

theorem row_run_ops_other {ops : List BlOp}
    (hops : ∀ op ∈ ops, ∃ r : LoadRow, r.Of keccak base ∧ op = r.op S) {r' : Row}
    (h : loaderRow r' = false) : row (ops.foldl BlOp.run env) r' = row env r' := by
  induction ops generalizing env with
  | nil => rfl
  | cons op ops ih =>
    obtain ⟨r, -, rfl⟩ := hops op (by simp)
    rw [List.foldl_cons, ih (fun o ho => hops o (by simp [ho])), row_run_other _ _ _ h]

theorem row_flushed_other {bl : Baseline}
    (hops : ∀ op ∈ bl.ops, ∃ r : LoadRow, r.Of keccak base ∧ op = r.op S) {r' : Row}
    (h : loaderRow r' = false) : row (bl.flushed env) r' = row env r' := by
  rw [Baseline.flushed]
  cases bl.progress with
  | none => exact row_run_ops_other hops h
  | some p =>
    refine (row_put_of_ne (r := .baselineProgress) _ p ?_).trans (row_run_ops_other hops h)
    rintro rfl
    cases h

/-- A flush, whether its transaction commits or fails. -/
theorem SiteInv.flush {w : Site} (hi : SiteInv keccak base S w bs) (ok : Bool) :
    SiteInv keccak base S
      { w with bl := (w.bl.flush ok w.env).2.1, env := (w.bl.flush ok w.env).2.2 } bs := by
  rw [Baseline.flush]
  split
  · exact hi
  · split
    · refine hi.of_env (hi.refines.flushed hi.buffered) hi.loader (by simp) ?_
      rw [row_flushed_other hi.buffered rfl]
      exact id
    · exact hi.of_env hi.refines hi.loader (by simp) id

/-- The genesis row alone. -/
theorem Refines.initial (keccak : Bytes → Hash) (base : Trie) (S : UInt64) :
    Refines keccak base S [] (putMeta OrdMap.empty metaGenesis (beBytes S)) := by
  have hrow : ∀ r, row (putMeta OrdMap.empty metaGenesis (beBytes S)) r =
      if r = .genesis then some (beBytes S) else none := by
    intro r
    exact row_put OrdMap.empty .genesis r (beBytes S)
  have hS := S.toNat_lt
  refine ⟨Laid.empty.put .genesis _, by simpa using hS, ?_, ?_, ?_, ?_, ?_, ?_, ?_, ?_, ?_⟩
  · rw [hrow, if_pos rfl]
  · intro t b _
    rw [hrow, if_neg (by simp)]
  · intro k raw h
    rw [hrow, if_neg (by simp)] at h
    cases h
  · intro a
    rw [hrow, if_neg (by simp)]
  · intro k raw h
    rw [hrow, if_neg (by cases k <;> simp [Key.baseRow])] at h
    cases h
  · intro t n b hb
    simp at hb
  · intro t b _
    rw [hrow, if_neg (by simp)]
  · intro n b hb
    simp at hb
  · intro h
    rw [hrow, if_neg (by simp)] at h
    exact absurd rfl h

theorem SiteInv.start {bl : Baseline} {h : Handle}
    (hnew : newBaseline {} OrdMap.empty S = .ok (bl, env, h)) :
    SiteInv keccak base S ⟨env, bl, h, {}⟩ [] := by
  have hcalc : newBaseline {} OrdMap.empty S =
      .ok (⟨S, [], none⟩, putMeta OrdMap.empty metaGenesis (beBytes S),
        ({ genesisPlus1 := S + 1 } : Handle)) := rfl
  rw [hcalc] at hnew
  obtain ⟨rfl, rfl, rfl⟩ : _ ∧ _ ∧ _ := by simpa using hnew
  have hr := Refines.initial keccak base S
  refine ⟨hr, rfl, by simp, ⟨fun _ => ?_, fun h => by cases h⟩, Coherent.fresh _, ?_, trivial⟩
  · rw [hr.genesis, UInt64.add_sub_cancel]
  · intro n b hb
    simp at hb

theorem SiteInv.restart {w : Site} (hi : SiteInv keccak base S w bs) {h h' : Handle}
    (hh : Coherent h w.env) {bl : Baseline} (hnew : newBaseline h w.env S = .ok (bl, env, h')) :
    SiteInv keccak base S { w with env := env, bl := bl, writer := h' } bs := by
  have hg := genesis_of_coherent hh hi.refines.genesis
  have hc := hh.genesis_snd hi.refines.genesis
  rw [newBaseline] at hnew
  cases hgen : Store.genesis h w.env with
  | mk r h'' =>
    rw [hgen] at hg hc hnew
    obtain rfl : r = .ok (some S) := hg
    simp only [ne_eq, not_true_eq_false, if_false, Except.ok.injEq, Prod.mk.injEq] at hnew
    obtain ⟨rfl, rfl, rfl⟩ := hnew
    exact ⟨hi.refines, rfl, by simp, hc, hi.reader, hi.consecutive, hi.chain⟩

theorem SiteInv.load {w : Site} (hi : SiteInv keccak base S w bs) (ok : Bool) {r : LoadRow}
    (hr : r.Of keccak base) :
    SiteInv keccak base S
      { w with bl := (w.bl.load ok w.env r).2.1, env := (w.bl.load ok w.env r).2.2 } bs := by
  have hops : ∀ op ∈ w.bl.ops ++ [r.op w.bl.s], ∃ r' : LoadRow, r'.Of keccak base ∧ op = r'.op S := by
    intro op hop
    rcases List.mem_append.mp hop with h | h
    · exact hi.buffered op h
    · exact ⟨r, hr, by rw [List.mem_singleton.mp h, hi.loader]⟩
  have hi' : SiteInv keccak base S { w with bl := { w.bl with ops := w.bl.ops ++ [r.op w.bl.s] } } bs :=
    hi.of_env hi.refines hi.loader hops id
  rw [Baseline.load, Baseline.add]
  dsimp only
  split
  · exact hi'.flush ok
  · exact hi'

theorem SiteInv.finish {w : Site} (hi : SiteInv keccak base S w bs) (okFlush okMark : Bool)
    (hall : Covered keccak base S (w.bl.clearProgress.flushed w.env)) :
    SiteInv keccak base S
      { w with
        bl := (w.bl.finish okFlush okMark w.env w.writer).2.1
        env := (w.bl.finish okFlush okMark w.env w.writer).2.2.1
        writer := (w.bl.finish okFlush okMark w.env w.writer).2.2.2 } bs := by
  have hi0 : SiteInv keccak base S { w with bl := w.bl.clearProgress } bs :=
    hi.of_env hi.refines hi.loader hi.buffered id
  have hif := hi0.flush okFlush
  have hcov : ∀ e bl', w.bl.clearProgress.flush okFlush w.env = (.ok (), bl', e) →
      Covered keccak base S e := by
    intro e bl' hfl
    rw [Baseline.flush] at hfl
    split at hfl
    · -- nothing buffered: the environment is the flushed one already
      rename_i hempty
      obtain ⟨-, rfl⟩ : _ ∧ _ := by simpa using hfl
      simpa [Baseline.flushed, hempty.1, hempty.2] using hall
    · split at hfl
      · obtain ⟨-, rfl⟩ : _ ∧ _ := by simpa using hfl
        exact hall
      · simp at hfl
  rw [Baseline.finish]
  cases hfl : w.bl.clearProgress.flush okFlush w.env with
  | mk res rest =>
    obtain ⟨bl', e⟩ := rest
    rw [hfl] at hif
    cases res with
    | error err => exact hif
    | ok u =>
      dsimp only
      split
      · exact hif
      · cases okMark with
        | false => exact hif
        | true =>
          have hcov := hcov e bl' hfl
          have hdel := hif.refines.del_other (r := .baselineProgress) rfl
          have hmark := hdel.mark (fun k hk => by
            rw [row_del, if_neg (by simp), row_del, if_neg (by cases k <;> simp [Key.baseRow])]
            exact hcov k hk) [1]
          have hset : row ((e.del metaBaselineProgress).put metaBaselineComplete [1])
              .baselineComplete ≠ none := by
            rw [row, show Row.baselineComplete.key = metaBaselineComplete from rfl,
              OrdMap.get_put_self]
            simp
          have hi' := hif.of_env hmark hif.loader hif.buffered (fun _ => hset)
          exact { hi' with writer := ⟨hi'.writer.genesis, fun _ => hset⟩ }

theorem Consecutive.concat (hc : Consecutive S bs) {b : Batch}
    (hb : b.block.toNat = S.toNat + bs.length + 1) : Consecutive S (bs ++ [b]) := by
  intro n b' hn
  rcases Nat.lt_trichotomy n bs.length with hlt | rfl | hgt
  · exact hc n b' (by rwa [List.getElem?_append_left hlt] at hn)
  · obtain rfl : b = b' := by simpa using hn
    exact hb
  · rw [List.getElem?_eq_none (by simp; omega)] at hn
    cases hn

theorem SiteInv.writeBlock {w : Site} (hi : SiteInv keccak base S w bs) {b : Batch}
    (hb : b.block.toNat = S.toNat + bs.length + 1)
    (hc : Contract (foldBatches bs (base.state keccak)) b) :
    SiteInv keccak base S { w with env := writeBlock w.env b } (bs ++ [b]) := by
  have hr := hi.refines.writeBlock hb
  have hg := hr.genesis.trans hi.refines.genesis.symm
  have hd : row w.env .baselineComplete ≠ none →
      row (Store.writeBlock w.env b) .baselineComplete ≠ none := by
    rw [row_writeBlock_other _ _ (by simp) (by simp) (by simp)]
    exact id
  exact ⟨hr, hi.loader, hi.buffered, hi.writer.of_rows hg hd, hi.reader.of_rows hg hd,
    hi.consecutive.concat hb, ContractChain.append.mpr ⟨hi.chain, hc, trivial⟩⟩

/-- The invariant holds of every store built. -/
theorem Built.inv {w : Site} (hw : Built keccak base S w bs) : SiteInv keccak base S w bs := by
  induction hw with
  | start hnew => exact SiteInv.start hnew
  | @restart w bs hw h h' hh bl env hnew ih =>
    refine ih.restart (h := h) ?_ hnew
    rcases hh with rfl | rfl
    · exact ih.writer
    · exact Coherent.fresh _
  | load hw ok hr ih => exact ih.load ok hr
  | setProgress hw p ih => exact ih.of_env ih.refines ih.loader ih.buffered id
  | flush hw ok ih => exact ih.flush ok
  | @putBaseAccount w bs hw h a ha ih =>
    exact ih.of_env (ih.refines.load (r := .baseAccount h a) ha) ih.loader ih.buffered
      (row_put_ne_none (.baseAccount h) _)
  | @putBaseSlot w bs hw h h' v hv ih =>
    exact ih.of_env (ih.refines.load (r := .baseSlot h h' v) hv) ih.loader ih.buffered
      (row_put_ne_none (.baseSlot h h') _)
  | finish hw okFlush okMark hall ih => exact ih.finish okFlush okMark hall
  | writeBlock hw hb hc ih => exact ih.writeBlock hb hc
  | setFinalized hw h ih =>
    exact ih.of_env (ih.refines.put_other (r := .finalized) rfl _) ih.loader ih.buffered
      (row_put_ne_none .finalized _)
  | writerSees hw hh ih =>
    rcases hh with rfl | rfl
    · exact { ih with writer := ih.writer.genesis_snd ih.refines.genesis }
    · exact { ih with writer := ih.writer.complete_snd }
  | readerSees hw hh ih =>
    rcases hh with rfl | rfl | rfl
    · exact { ih with reader := Coherent.fresh _ }
    · exact { ih with reader := ih.reader.genesis_snd ih.refines.genesis }
    · exact { ih with reader := ih.reader.complete_snd }

/-! ## Diff rows -/

theorem SiteInv.row_flush {w : Site} (hi : SiteInv keccak base S w bs) (ok : Bool) {r : Row}
    (h : loaderRow r = false) : row (w.bl.flush ok w.env).2.2 r = row w.env r := by
  rw [Baseline.flush]
  split
  · rfl
  · split
    · exact row_flushed_other hi.buffered h
    · rfl

/-- Only the blocks above the genesis, up to the newest one, have a diff row. -/
theorem Built.diff_none {w : Site} (hw : Built keccak base S w bs) {h : UInt64}
    (hh : h.toNat ≤ S.toNat ∨ S.toNat + bs.length < h.toNat) : row w.env (.diff h) = none := by
  induction hw with
  | start hnew =>
    have hcalc : newBaseline {} OrdMap.empty S =
        .ok (⟨S, [], none⟩, putMeta OrdMap.empty metaGenesis (beBytes S),
          ({ genesisPlus1 := S + 1 } : Handle)) := rfl
    rw [hcalc] at hnew
    obtain ⟨-, rfl, -⟩ : _ ∧ _ ∧ _ := by simpa using hnew
    exact row_put_of_ne (r := .genesis) _ _ (by simp)
  | @restart w bs hw g g' hg bl env hnew ih =>
    have hc : Coherent g w.env := by
      rcases hg with rfl | rfl
      · exact hw.inv.writer
      · exact Coherent.fresh _
    have hgen := genesis_of_coherent hc hw.inv.refines.genesis
    rw [newBaseline] at hnew
    cases hres : Store.genesis g w.env with
    | mk r g'' =>
      rw [hres] at hgen hnew
      obtain rfl : r = .ok (some S) := hgen
      simp only [ne_eq, not_true_eq_false, if_false, Except.ok.injEq, Prod.mk.injEq] at hnew
      obtain ⟨-, rfl, -⟩ := hnew
      exact ih hh
  | @load w bs hw ok r hr ih =>
    have hi' : SiteInv keccak base S { w with bl := { w.bl with ops := w.bl.ops ++ [r.op w.bl.s] } } bs := by
      refine hw.inv.of_env hw.inv.refines hw.inv.loader (fun op hop => ?_) id
      rcases List.mem_append.mp hop with hm | hm
      · exact hw.inv.buffered op hm
      · exact ⟨r, hr, by rw [List.mem_singleton.mp hm, hw.inv.loader]⟩
    rw [Baseline.load, Baseline.add]
    dsimp only
    split
    · exact (hi'.row_flush ok rfl).trans (ih hh)
    · exact ih hh
  | setProgress hw p ih => exact ih hh
  | flush hw ok ih => exact (hw.inv.row_flush ok rfl).trans (ih hh)
  | @putBaseAccount w bs hw g a ha ih =>
    exact (row_put_of_ne (r := .baseAccount g) _ _ (by simp)).trans (ih hh)
  | @putBaseSlot w bs hw g g' v hv ih =>
    exact (row_put_of_ne (r := .baseSlot g g') _ _ (by simp)).trans (ih hh)
  | @finish w bs hw okFlush okMark hall ih =>
    have hi0 : SiteInv keccak base S { w with bl := w.bl.clearProgress } bs :=
      hw.inv.of_env hw.inv.refines hw.inv.loader hw.inv.buffered id
    have hflush : row (w.bl.clearProgress.flush okFlush w.env).2.2 (.diff h) = none :=
      (hi0.row_flush okFlush rfl).trans (ih hh)
    rw [Baseline.finish]
    rcases hfl : w.bl.clearProgress.flush okFlush w.env with ⟨res, bl', e⟩
    rw [hfl] at hflush
    cases res with
    | error err => exact hflush
    | ok u =>
      dsimp only
      split
      · exact hflush
      · cases okMark with
        | false => exact hflush
        | true =>
          have hdel : row (e.del metaBaselineProgress) (.diff h) = row e (.diff h) :=
            (row_del e .baselineProgress _).trans (if_neg (by simp))
          exact (row_put_of_ne (r := .baselineComplete) _ _ (by simp)).trans (hdel.trans hflush)
  | @writeBlock w bs hw b hb hc ih =>
    rw [List.length_append, List.length_singleton] at hh
    rw [row_writeBlock_diff, if_neg (by rintro rfl; omega)]
    exact ih (by omega)
  | setFinalized hw g ih => exact (row_put_of_ne (r := .finalized) _ _ (by simp)).trans (ih hh)
  | writerSees hw hg ih => exact ih hh
  | readerSees hw hg ih => exact ih hh

/-! ## Reads of a built store -/

/-- The blocks at or below a height are a front part of the chain. -/
theorem filter_block_le (hc : Consecutive S bs) {at_ : UInt64} (hS : S ≤ at_) :
    bs.filter (fun b => decide (b.block ≤ at_)) = bs.take (reach S bs at_) := by
  have hSn := UInt64.le_iff_toNat_le.mp hS
  have hle : ∀ n b, bs[n]? = some b → (b.block ≤ at_ ↔ n < reach S bs at_) := by
    intro n b hn
    have hlen : n < bs.length := (List.getElem?_eq_some_iff.mp hn).1
    rw [UInt64.le_iff_toNat_le, hc n b hn, reach]
    omega
  have hfront : (bs.take (reach S bs at_)).filter (fun b => decide (b.block ≤ at_)) =
      bs.take (reach S bs at_) := by
    rw [List.filter_eq_self]
    intro b hb
    obtain ⟨n, hn⟩ := List.mem_iff_getElem?.mp hb
    rw [List.getElem?_take] at hn
    split at hn
    · exact decide_eq_true ((hle n b hn).mpr ‹_›)
    · cases hn
  have hback : (bs.drop (reach S bs at_)).filter (fun b => decide (b.block ≤ at_)) = [] := by
    rw [List.filter_eq_nil_iff]
    intro b hb
    obtain ⟨n, hn⟩ := List.mem_iff_getElem?.mp hb
    rw [List.getElem?_drop] at hn
    rw [decide_eq_true_eq, hle _ b hn]
    omega
  calc bs.filter (fun b => decide (b.block ≤ at_))
      = (bs.take (reach S bs at_) ++ bs.drop (reach S bs at_)).filter
          (fun b => decide (b.block ≤ at_)) := by rw [List.take_append_drop]
    _ = bs.take (reach S bs at_) := by rw [List.filter_append, hfront, hback, List.append_nil]

theorem ContractChain.mem {σ : State} {b : Batch} (h : ContractChain σ bs) (hb : b ∈ bs) :
    ∃ σ', Contract σ' b := by
  induction bs generalizing σ with
  | nil => simp at hb
  | cons b' bs ih =>
    rcases List.mem_cons.mp hb with rfl | hb
    · exact ⟨σ, h.1⟩
    · exact ih h.2 hb

/-- The value of a key at a height: the ops of all blocks at or below it, folded in
order over the baseline. -/
def valueAt (keccak : Bytes → Hash) (base : Trie) (bs : List Batch) (at_ : UInt64) : State :=
  foldBatches (bs.filter (fun b => decide (b.block ≤ at_))) (base.state keccak)

theorem SiteInv.coherent {w : Site} (hi : SiteInv keccak base S w bs) {h : Handle}
    (hh : h = w.writer ∨ h = w.reader) : Coherent h w.env := by
  rcases hh with rfl | rfl
  · exact hi.writer
  · exact hi.reader

theorem SiteInv.getAccount {w : Site} (hi : SiteInv keccak base S w bs) {h : Handle}
    (hh : h = w.writer ∨ h = w.reader) {at_ : UInt64} (hS : S ≤ at_) (a : Address) :
    Store.getAccount keccak h w.env a at_ =
        .ok (stateAt keccak base bs (reach S bs at_) (.account a)) ∨
      Store.getAccount keccak h w.env a at_ = .error .baselineIncomplete ∧
        Uncovered keccak w.env (.account a) at_ :=
  getAccount_refines hi.refines
    (fun _ hb => (ContractChain.mem hi.chain hb).choose_spec.destructFirst) (hi.coherent hh) hS a

theorem SiteInv.getSlot {w : Site} (hi : SiteInv keccak base S w bs) {h : Handle}
    (hh : h = w.writer ∨ h = w.reader) {at_ : UInt64} (hS : S ≤ at_) (a : Address) (s : Hash) :
    Store.getSlot keccak h w.env a s at_ =
        .ok (stateAt keccak base bs (reach S bs at_) (.slot a s)) ∨
      Store.getSlot keccak h w.env a s at_ = .error .baselineIncomplete ∧
        Uncovered keccak w.env (.slot a s) at_ :=
  getSlot_refines hi.refines
    (fun _ hb => (ContractChain.mem hi.chain hb).choose_spec.destructFirst)
    (fun _ hb => (ContractChain.mem hi.chain hb).choose_spec.recreated) (hi.coherent hh) hS a s

/-- In every store built from a baseline and consecutive blocks that keep the batch
contract, every handle reads at every height from the genesis on what the fold of
the blocks says; a read refuses only a key that the unfinished baseline does not
cover yet. -/
theorem reads_refine_fold {w : Site} (hw : Built keccak base S w bs) {h : Handle}
    (hh : h = w.writer ∨ h = w.reader) {at_ : UInt64} (hS : S ≤ at_) :
    (∀ a, getAccount keccak h w.env a at_ = .ok (valueAt keccak base bs at_ (.account a)) ∨
      getAccount keccak h w.env a at_ = .error .baselineIncomplete ∧
        Uncovered keccak w.env (.account a) at_) ∧
    (∀ a s, getSlot keccak h w.env a s at_ = .ok (valueAt keccak base bs at_ (.slot a s)) ∨
      getSlot keccak h w.env a s at_ = .error .baselineIncomplete ∧
        Uncovered keccak w.env (.slot a s) at_) := by
  have hi := hw.inv
  have hval : valueAt keccak base bs at_ = stateAt keccak base bs (reach S bs at_) := by
    rw [valueAt, filter_block_le hi.consecutive hS, stateAt]
  rw [hval]
  exact ⟨hi.getAccount hh hS, hi.getSlot hh hS⟩

/-! ### A store of one account

The baseline at height 5 holds one account with one slot; block 6 destructs it,
recreates it and writes another slot. -/

namespace Sample

def addr : Address := FixedBytes.ofNat 20 1

def slot0 : Hash := FixedBytes.ofNat 32 0

def slot1 : Hash := FixedBytes.ofNat 32 1

/-- The digests of the preimages above. -/
def digest (b : Bytes) : Hash :=
  if b = addr.1 then
    FixedBytes.ofNat 32 0x1468288056310c82aa4c01a7e12a10f8111a0560e72b700555479031b86c357d
  else if b = slot0.1 then
    FixedBytes.ofNat 32 0x290decd9548b62a8d60345a988386fc84ba6bc95484008f6362f93160ef3e563
  else if b = slot1.1 then
    FixedBytes.ofNat 32 0xb10e2d527612073b26eecdfd717e6a320cf44b4afac2b0732d9fcbe2b7fa0cf6
  else Hash.zero

def acct (balance : Nat) : Account := ⟨BitVec.ofNat 256 balance, 1, Hash.zero⟩

def trie : Trie where
  accounts h := if h = digest addr.1 then some (acct 10) else none
  slots h h' :=
    if h = digest addr.1 ∧ h' = digest slot0.1 then some (FixedBytes.ofNat 32 7) else none

def block6 : Batch where
  block := 6
  hash := FixedBytes.ofNat 32 6
  parent := FixedBytes.ofNat 32 5
  time := 6000
  ops := [.destruct addr, .account addr (acct 20), .slot addr slot1 (FixedBytes.ofNat 32 9)]

theorem block6_contract (σ : State) : Contract σ block6 where
  destructFirst := by decide
  recreated a ha _ := by
    obtain rfl : a = addr := by simpa [block6] using ha
    exact ⟨.account addr (acct 20), by simp [block6], by simp [Op.isAccountOf]⟩
  slotsExist a hs := by
    obtain ⟨o, ho, hso⟩ := hs
    have ha : addr = a := by
      simp only [block6, List.mem_cons, List.not_mem_nil, or_false] at ho
      rcases ho with rfl | rfl | rfl
      · simp [Op.isSlotOf] at hso
      · simp [Op.isSlotOf] at hso
      · simpa [Op.isSlotOf] using hso
    subst ha
    have hval : block6.apply σ (.account addr) = (some (acct 20) : Option Account) := by
      rfl
    rw [hval]
    simp

/-- The rows of the baseline, loaded under their hash keys. -/
def loaded : Env :=
  putBaseSlot (putBaseAccount (putMeta OrdMap.empty metaGenesis (beBytes 5)) (digest addr.1) (acct 10))
    (digest addr.1) (digest slot0.1) (FixedBytes.ofNat 32 7)

theorem loaded_covered : Covered digest trie 5 loaded := by
  intro k hk
  right
  cases k with
  | account a =>
    have ha : digest a.1 = digest addr.1 := by
      by_contra hne
      simp [Trie.hasLeaf, trie, hne] at hk
    rw [Key.baseRow, ha]
    decide
  | slot a s =>
    have has : digest a.1 = digest addr.1 ∧ digest s.1 = digest slot0.1 := by
      by_contra hne
      simp [Trie.hasLeaf, trie, hne] at hk
    rw [Key.baseRow, has.1, has.2]
    decide +kernel

/-- The finished store and its loader's handle. -/
def finished : Site where
  env := (loaded.del metaBaselineProgress).put metaBaselineComplete [1]
  bl := ⟨5, [], none⟩
  writer := ⟨6, true⟩
  reader := {}

theorem finished_built : Built digest trie 5 finished [] := by
  have h0 : Built digest trie 5 ⟨putMeta OrdMap.empty metaGenesis (beBytes 5), ⟨5, [], none⟩, ⟨6, false⟩, {}⟩ [] :=
    .start rfl
  have h1 := h0.putBaseAccount (h := digest addr.1) (a := acct 10) (by decide)
  have hleaf : trie.slots (digest addr.1) (digest slot0.1) = some (FixedBytes.ofNat 32 7) := by decide
  have h2 := h1.putBaseSlot hleaf
  exact h2.finish true true loaded_covered

/-- The finished store with block 6 on top. -/
def site : Site := { finished with env := writeBlock finished.env block6 }

theorem site_built : Built digest trie 5 site [block6] :=
  finished_built.writeBlock (b := block6) rfl (block6_contract _)

end Sample

/-- The theorem at work: the baseline's slot is read at the genesis, and is zero once
block 6 has destructed and recreated the account. -/
theorem reads_refine_fold_sample :
    getSlot Sample.digest Sample.site.writer Sample.site.env Sample.addr Sample.slot0 5 =
        .ok (FixedBytes.ofNat 32 7) ∧
      getSlot Sample.digest Sample.site.reader Sample.site.env Sample.addr Sample.slot0 Latest =
        .ok Hash.zero ∧
      getAccount Sample.digest Sample.site.reader Sample.site.env Sample.addr Latest =
        .ok (some (Sample.acct 20)) := by
  have hset : row Sample.site.env .baselineComplete ≠ none := by decide
  have hle5 : (5 : UInt64) ≤ 5 := by decide
  have hleL : (5 : UInt64) ≤ Latest := by decide
  have h5 := reads_refine_fold Sample.site_built (Or.inl rfl) hle5
  have hL := reads_refine_fold Sample.site_built (Or.inr rfl) hleL
  refine ⟨?_, ?_, ?_⟩
  · rcases h5.2 Sample.addr Sample.slot0 with h | ⟨-, h⟩
    · exact h
    · exact absurd h.unset hset
  · rcases hL.2 Sample.addr Sample.slot0 with h | ⟨-, h⟩
    · exact h
    · exact absurd h.unset hset
  · rcases hL.1 Sample.addr with h | ⟨-, h⟩
    · exact h
    · exact absurd h.unset hset

end Flatstate.Store
