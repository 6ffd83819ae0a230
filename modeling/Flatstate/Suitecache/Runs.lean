import Flatstate.Replay.Session
import Flatstate.Suitecache.File

set_option autoImplicit false

/-!
# Suitecache: cycles over a growing store

Caches of one suite and block are opened, read and closed, in any number of processes, while
blocks are appended to the store.  Nothing is ever invalidated: what a cache has is what the
store returned at the cache's block when it was asked.  That stays true of a height that the
store has reached.  `Open` takes any height, and a read above the newest block is answered
with the newest state.
-/

namespace Flatstate.Suitecache

open Foundation Schema Capture Store
open Replay (HandleOf Complete stateAt_append)

/-! ## Runs -/

/-- The store with its blocks, the file of the suite at the block, and the open caches. -/
structure World where
  w : Site
  bs : List Batch
  file : Option Bytes
  caches : Nat → Option Cache

section Runs

variable (keccak : Bytes → Hash) (base : Trie) (S B : UInt64) (Q : World → Prop)

/-- The runs on the file of block `B`.  `Q` restricts the states in which a cache asks the
store for an account or a slot. -/
inductive CacheRun : World → Prop where
  | start {w : Site} {bs : List Batch} (hw : Complete keccak base S w bs) :
      CacheRun ⟨w, bs, none, fun _ => none⟩
  | grow {x : World} (hx : CacheRun x) {w : Site} {more : List Batch}
      (hw : Complete keccak base S w (x.bs ++ more)) :
      CacheRun { x with w := w, bs := x.bs ++ more }
  | opens {x : World} (hx : CacheRun x) (i : Nat) (attached : Bool) {c : Cache}
      (hc : openCache x.file B attached = .ok c) :
      CacheRun { x with caches := Function.update x.caches i (some c) }
  | account {x : World} (hx : CacheRun x) {i : Nat} {c : Cache} (hc : x.caches i = some c)
      {h : Handle} (hh : HandleOf x.w h) (a : Address) (hQ : c.accounts.get a = none → Q x) :
      CacheRun
        { x with caches := Function.update x.caches i (some (c.account keccak h x.w.env a).2) }
  | slot {x : World} (hx : CacheRun x) {i : Nat} {c : Cache} (hc : x.caches i = some c)
      {h : Handle} (hh : HandleOf x.w h) (a : Address) (k : Hash)
      (hQ : c.slots.get (a, k) = none → Q x) :
      CacheRun
        { x with caches := Function.update x.caches i (some (c.slot keccak h x.w.env a k).2) }
  /-- LMDB takes no value of 4 GiB -/
  | code {x : World} (hx : CacheRun x) {i : Nat} {c : Cache} (hc : x.caches i = some c) (hash : Hash)
      (hfit : ∀ v, getCode x.w.env hash = .ok v → v.length < 2 ^ 32) :
      CacheRun { x with caches := Function.update x.caches i (some (c.codeOf x.w.env hash).2) }
  /-- a dirty cache replaces the file; a clean `Close` and one that fails change nothing -/
  | close {x : World} (hx : CacheRun x) {i : Nat} {c : Cache} (hc : x.caches i = some c)
      (hd : c.dirty = true) {data : Bytes} (hdata : c.Writes data) :
      CacheRun
        { x with
          file := some data
          caches := Function.update x.caches i (some { c with dirty := false }) }
  | exit {x : World} (hx : CacheRun x) (i : Nat) :
      CacheRun { x with caches := Function.update x.caches i none }

/-- The store has reached the block. -/
def Reached (bs : List Batch) : Prop := S ≤ B ∧ B.toNat ≤ S.toNat + bs.length

/-- A record says what the state at the block is. -/
def Record.Holds (bs : List Batch) : Record → Prop
  | .account a e =>
    Reached S B bs ∧ e = Acct.ofStore (stateAt keccak base bs (B.toNat - S.toNat) (.account a))
  | .slot a k v => Reached S B bs ∧ v = stateAt keccak base bs (B.toNat - S.toNat) (.slot a k)
  | .code _ c => c.length < 2 ^ 32

end Runs

/-- A cache has a record in its map. -/
def Cache.Has (c : Cache) : Record → Prop
  | .account a e => c.accounts.get a = some e
  | .slot a k v => c.slots.get (a, k) = some v
  | .code hash v => c.code.get hash = some v

theorem has_insert {c : Cache} {r r' : Record} (h : (c.insert r).Has r') : r' = r ∨ c.Has r' := by
  cases r with
  | account a e =>
    cases r' with
    | account a' e' =>
      have h' : (c.accounts.set a e).get a' = some e' := h
      rw [Table.get_set] at h'
      split at h'
      · rename_i ha
        rw [ha, Option.some.inj h']
        exact Or.inl rfl
      · exact Or.inr h'
    | slot a' k' v' => exact Or.inr h
    | code hash' v' => exact Or.inr h
  | slot a k v =>
    cases r' with
    | slot a' k' v' =>
      have h' : (c.slots.set (a, k) v).get (a', k') = some v' := h
      rw [Table.get_set] at h'
      split at h'
      · rename_i ha
        obtain ⟨rfl, rfl⟩ := Prod.mk.inj ha
        rw [Option.some.inj h']
        exact Or.inl rfl
      · exact Or.inr h'
    | account a' e' => exact Or.inr h
    | code hash' v' => exact Or.inr h
  | code hash v =>
    cases r' with
    | code hash' v' =>
      have h' : (c.code.set hash v).get hash' = some v' := h
      rw [Table.get_set] at h'
      split at h'
      · rename_i ha
        rw [ha, Option.some.inj h']
        exact Or.inl rfl
      · exact Or.inr h'
    | account a' e' => exact Or.inr h
    | slot a' k' v' => exact Or.inr h

theorem has_foldl_insert {c : Cache} {rs : List Record} {r : Record}
    (h : (rs.foldl Cache.insert c).Has r) : r ∈ rs ∨ c.Has r := by
  induction rs generalizing c with
  | nil => exact Or.inr h
  | cons r' rs ih =>
    rcases ih h with hm | hh
    · exact Or.inl (List.mem_cons_of_mem _ hm)
    · rcases has_insert hh with rfl | hh
      · exact Or.inl List.mem_cons_self
      · exact Or.inr hh

theorem block_foldl_insert (rs : List Record) (c : Cache) :
    (rs.foldl Cache.insert c).block = c.block := by
  induction rs generalizing c with
  | nil => rfl
  | cons r rs ih =>
    rw [List.foldl_cons, ih]
    cases r <;> rfl

/-- Everything `Close` writes is in the cache. -/
theorem Cache.Writes.records {c : Cache} {data : Bytes} (h : c.Writes data) :
    ∃ rs, data = fileOf c.block rs ∧ ∀ r ∈ rs, c.Has r := by
  obtain ⟨rs, ⟨as, ss, cs, has, hss, hcs, rfl⟩, rfl⟩ := h
  refine ⟨_, rfl, fun r hr => ?_⟩
  rcases List.mem_append.mp hr with hr | hr
  · obtain ⟨e, he, rfl⟩ := List.mem_map.mp hr
    exact Table.get_eq_some_iff.mpr (has.mem_iff.mp he)
  · rcases List.mem_append.mp hr with hr | hr
    · obtain ⟨e, he, rfl⟩ := List.mem_map.mp hr
      exact Table.get_eq_some_iff.mpr (hss.mem_iff.mp he)
    · obtain ⟨e, he, rfl⟩ := List.mem_map.mp hr
      exact Table.get_eq_some_iff.mpr (hcs.mem_iff.mp he)

/-! ## The store at the block -/

section Store

variable {keccak : Bytes → Hash} {base : Trie} {S B : UInt64} {w : Site} {bs : List Batch}
  {h : Handle}

theorem checkAt_of_getAccount {env : Env} {a : Address} {v : Option Account}
    (hok : getAccount keccak h env a B = .ok v) : checkAt h env B = .ok () := by
  rw [Store.getAccount, getAccountAt] at hok
  cases hc : checkAt h env B with
  | ok u => rfl
  | error e =>
    rw [hc] at hok
    cases hok

theorem checkAt_of_getSlot {env : Env} {a : Address} {k v : Hash}
    (hok : getSlot keccak h env a k B = .ok v) : checkAt h env B = .ok () := by
  rw [Store.getSlot, getSlotAt] at hok
  cases hc : checkAt h env B with
  | ok u => rfl
  | error e =>
    rw [hc] at hok
    cases hok

/-- A height below the genesis is refused. -/
theorem le_of_check (hw : Complete keccak base S w bs) (hh : HandleOf w h)
    (hok : checkAt h w.env B = .ok ()) : S ≤ B := by
  rw [checkAt, genesis_of_coherent (hw.built.inv.coherent hh) hw.built.inv.refines.genesis] at hok
  dsimp only at hok
  split at hok
  · cases hok
  · rename_i hlt
    exact UInt64.not_lt.mp hlt

theorem Reached.reach (hB : Reached S B bs) : Store.reach S bs B = B.toNat - S.toNat :=
  Nat.min_eq_left (by have := hB.2; omega)

/-- What holds at a height that is reached holds when the store has more blocks. -/
theorem Record.Holds.append {r : Record} (hr : r.Holds keccak base S B bs) (more : List Batch) :
    r.Holds keccak base S B (bs ++ more) := by
  have hreach : Reached S B bs → Reached S B (bs ++ more) := by
    intro hB
    refine ⟨hB.1, ?_⟩
    have := hB.2
    rw [List.length_append]
    omega
  have hstate : Reached S B bs → stateAt keccak base (bs ++ more) (B.toNat - S.toNat) =
      stateAt keccak base bs (B.toNat - S.toNat) := by
    intro hB
    apply stateAt_append
    have := hB.2
    omega
  cases r with
  | account a e =>
    obtain ⟨hB, he⟩ := hr
    exact ⟨hreach hB, by rw [hstate hB]; exact he⟩
  | slot a k v =>
    obtain ⟨hB, hv⟩ := hr
    exact ⟨hreach hB, by rw [hstate hB]; exact hv⟩
  | code hash c => exact hr

/-! ## The invariant -/

/-- Every record of a cache of the block holds. -/
structure Cache.Holds (keccak : Bytes → Hash) (base : Trie) (S B : UInt64) (bs : List Batch)
    (c : Cache) : Prop where
  block : c.block = B
  records : ∀ r, c.Has r → r.Holds keccak base S B bs

/-- The file has the records of a cache that was written. -/
def FileHolds (keccak : Bytes → Hash) (base : Trie) (S B : UInt64) (bs : List Batch)
    (file : Option Bytes) : Prop :=
  ∀ data, file = some data → ∃ rs, data = fileOf B rs ∧ ∀ r ∈ rs, r.Holds keccak base S B bs

/-- What holds throughout a run in which the store is asked at heights it has reached. -/
structure WorldInv (keccak : Bytes → Hash) (base : Trie) (S B : UInt64) (x : World) : Prop where
  store : Complete keccak base S x.w x.bs
  file : FileHolds keccak base S B x.bs x.file
  caches : ∀ i c, x.caches i = some c → c.Holds keccak base S B x.bs

theorem Record.Holds.fits {r : Record} (hr : r.Holds keccak base S B bs) : r.Fits := by
  cases r with
  | code hash c => exact hr
  | _ => trivial

theorem Cache.Holds.opened {file : Option Bytes} {attached : Bool} {c : Cache}
    (hf : FileHolds keccak base S B bs file) (hc : openCache file B attached = .ok c) :
    c.Holds keccak base S B bs := by
  have hnew : ∀ r, ¬ (Cache.new B attached).Has r := by
    intro r hr
    cases r <;> cases hr
  cases file with
  | none =>
    obtain rfl := Except.ok.inj hc
    exact ⟨rfl, fun r hr => absurd hr (hnew r)⟩
  | some data =>
    obtain ⟨rs, rfl, hrs⟩ := hf data rfl
    have hload := load_fileOf (c := Cache.new B attached) rs (fun r hr => (hrs r hr).fits)
    rw [openCache] at hc
    rcases hload with hload | hload
    · rw [show fileOf B rs = fileOf (Cache.new B attached).block rs from rfl, hload] at hc
      obtain rfl := Except.ok.inj hc
      refine ⟨block_foldl_insert rs _, fun r hr => ?_⟩
      exact (has_foldl_insert hr).elim (hrs r) (fun h => absurd h (hnew r))
    · rw [show fileOf B rs = fileOf (Cache.new B attached).block rs from rfl, hload] at hc
      cases hc

/-- An account that is added is the one at the block. -/
theorem Cache.Holds.account {c : Cache} (hc : c.Holds keccak base S B bs)
    (hw : Complete keccak base S w bs) (hh : HandleOf w h) (a : Address)
    (hQ : c.accounts.get a = none → B.toNat ≤ S.toNat + bs.length) :
    (c.account keccak h w.env a).2.Holds keccak base S B bs := by
  rw [Cache.account]
  cases hg : c.accounts.get a with
  | some e => exact hc
  | none =>
    dsimp only
    split
    · cases hs : Store.getAccount keccak h w.env a c.block with
      | error e => exact hc
      | ok v =>
        refine ⟨hc.block, fun r hr => ?_⟩
        rcases has_insert (r := .account a (Acct.ofStore v)) hr with rfl | hr
        · rw [hc.block] at hs
          have hB : Reached S B bs := ⟨le_of_check hw hh (checkAt_of_getAccount hs), hQ hg⟩
          rw [hw.getAccount hh hB.1, hB.reach] at hs
          exact ⟨hB, by rw [Except.ok.inj hs]⟩
        · exact hc.records r hr
    · exact hc

theorem Cache.Holds.slot {c : Cache} (hc : c.Holds keccak base S B bs)
    (hw : Complete keccak base S w bs) (hh : HandleOf w h) (a : Address) (k : Hash)
    (hQ : c.slots.get (a, k) = none → B.toNat ≤ S.toNat + bs.length) :
    (c.slot keccak h w.env a k).2.Holds keccak base S B bs := by
  rw [Cache.slot]
  cases hg : c.slots.get (a, k) with
  | some v => exact hc
  | none =>
    dsimp only
    split
    · cases hs : Store.getSlot keccak h w.env a k c.block with
      | error e => exact hc
      | ok v =>
        refine ⟨hc.block, fun r hr => ?_⟩
        rcases has_insert (r := .slot a k v) hr with rfl | hr
        · rw [hc.block] at hs
          have hB : Reached S B bs := ⟨le_of_check hw hh (checkAt_of_getSlot hs), hQ hg⟩
          rw [hw.getSlot hh hB.1, hB.reach] at hs
          exact ⟨hB, (Except.ok.inj hs).symm⟩
        · exact hc.records r hr
    · exact hc

theorem Cache.Holds.codeOf {c : Cache} (hc : c.Holds keccak base S B bs) {env : Env} {hash : Hash}
    (hfit : ∀ v, getCode env hash = .ok v → v.length < 2 ^ 32) :
    (c.codeOf env hash).2.Holds keccak base S B bs := by
  rw [Cache.codeOf]
  cases hg : c.code.get hash with
  | some v => exact hc
  | none =>
    dsimp only
    split
    · cases hs : getCode env hash with
      | error e => exact hc
      | ok v =>
        refine ⟨hc.block, fun r hr => ?_⟩
        rcases has_insert (r := .code hash v) hr with rfl | hr
        · exact hfit v hs
        · exact hc.records r hr
    · exact hc

theorem Cache.Holds.append {c : Cache} (hc : c.Holds keccak base S B bs) (more : List Batch) :
    c.Holds keccak base S B (bs ++ more) :=
  ⟨hc.block, fun r hr => (hc.records r hr).append more⟩

/-- A cache takes the place of another. -/
theorem WorldInv.update {x : World} (hi : WorldInv keccak base S B x) (i : Nat) {c : Cache}
    (hc : c.Holds keccak base S B x.bs) :
    WorldInv keccak base S B { x with caches := Function.update x.caches i (some c) } := by
  refine ⟨hi.store, hi.file, fun j c' hj => ?_⟩
  by_cases hji : j = i
  · subst hji
    obtain rfl : c = c' := by simpa using hj
    exact hc
  · exact hi.caches j c' (by simpa [hji] using hj)

/-- The store has reached the block when it is asked. -/
def AtReached (S B : UInt64) (x : World) : Prop := B.toNat ≤ S.toNat + x.bs.length

theorem CacheRun.inv {x : World} (hx : CacheRun keccak base S B (AtReached S B) x) :
    WorldInv keccak base S B x := by
  induction hx with
  | start hw => exact ⟨hw, by simp [FileHolds], by simp⟩
  | @grow x hx w more hw ih =>
    refine ⟨hw, fun data hd => ?_, fun i c hc => (ih.caches i c hc).append more⟩
    obtain ⟨rs, hrs, hr⟩ := ih.file data hd
    exact ⟨rs, hrs, fun r hm => (hr r hm).append more⟩
  | opens hx i attached hc ih => exact ih.update i (Cache.Holds.opened ih.file hc)
  | account hx hc hh a hQ ih => exact ih.update _ ((ih.caches _ _ hc).account ih.store hh a hQ)
  | slot hx hc hh a k hQ ih => exact ih.update _ ((ih.caches _ _ hc).slot ih.store hh a k hQ)
  | code hx hc hash hfit ih => exact ih.update _ ((ih.caches _ _ hc).codeOf hfit)
  | @close x hx i c hc hd data hdata ih =>
    have hold := ih.caches i c hc
    obtain ⟨rs, hrs, hr⟩ := hdata.records
    have hclean : Cache.Holds keccak base S B x.bs { c with dirty := false } :=
      ⟨hold.block, fun r hm => hold.records r (by cases r <;> exact hm)⟩
    have hupd := ih.update i hclean
    refine ⟨hupd.store, fun data' hd' => ?_, hupd.caches⟩
    obtain rfl := Option.some.inj hd'
    exact ⟨rs, by rw [hrs, hold.block], fun r hm => hold.records r (hr r hm)⟩
  | @exit x hx i ih =>
    refine ⟨ih.store, ih.file, fun j c hj => ?_⟩
    by_cases hji : j = i
    · subst hji
      simp at hj
    · exact ih.caches j c (by simpa [hji] using hj)

/-- In every run in which caches ask the store only at a block that it has reached: whatever a
cache serves, from memory, from a reloaded file or from the store, is what the store returns
at the block at that time. -/
theorem cache_serves_store {x : World} (hx : CacheRun keccak base S B (AtReached S B) x) {i : Nat}
    {c : Cache} (hc : x.caches i = some c) (hh : HandleOf x.w h) (a : Address) :
    (∀ e, (c.account keccak h x.w.env a).1 = .ok e →
      ∃ v, getAccount keccak h x.w.env a B = .ok v ∧ e = Acct.ofStore v) ∧
    (∀ k v, (c.slot keccak h x.w.env a k).1 = .ok v → getSlot keccak h x.w.env a k B = .ok v) := by
  have hi := hx.inv
  have hcache := hi.caches i c hc
  refine ⟨fun e he => ?_, fun k v hv => ?_⟩
  · rw [Cache.account, hcache.block] at he
    cases hg : c.accounts.get a with
    | some e' =>
      rw [hg] at he
      obtain rfl := Except.ok.inj he
      obtain ⟨hB, heq⟩ := hcache.records (.account a e') hg
      exact ⟨_, hi.store.getAccount hh hB.1 a, by rw [hB.reach, heq]⟩
    | none =>
      rw [hg] at he
      dsimp only at he
      split at he
      · cases hs : Store.getAccount keccak h x.w.env a B with
        | error err =>
          rw [hs] at he
          cases he
        | ok v =>
          rw [hs] at he
          exact ⟨v, rfl, (Except.ok.inj he).symm⟩
      · cases he
  · rw [Cache.slot, hcache.block] at hv
    cases hg : c.slots.get (a, k) with
    | some v' =>
      rw [hg] at hv
      obtain rfl := Except.ok.inj hv
      obtain ⟨hB, heq⟩ := hcache.records (.slot a k v') hg
      rw [heq, hi.store.getSlot hh hB.1, hB.reach]
    | none =>
      rw [hg] at hv
      dsimp only at hv
      split at hv
      · cases hs : Store.getSlot keccak h x.w.env a k B with
        | error err =>
          rw [hs] at hv
          cases hv
        | ok v' =>
          rw [hs] at hv
          rw [Except.ok.inj hv]
      · cases hv

end Store

/-! ### A cache above the newest block -/

namespace Sample

open Store.Sample

/-- A cache at block 7 over the store without blocks has read the slot. -/
def early : Cache := ((Cache.new 7 true).slot digest {} finished.env addr slot1).2

/-- Block 6 is appended. -/
def stale : World :=
  ⟨site, [] ++ [block6], none,
    Function.update (Function.update (fun _ => none) 0 (some (Cache.new 7 true))) 0 (some early)⟩

theorem stale_run : CacheRun digest trie 5 7 (fun _ => True) stale :=
  (((CacheRun.start Replay.Sample.finished_whole.toComplete).opens 0 true rfl).slot rfl
    (Or.inr rfl) addr slot1 (fun _ => trivial)).grow Replay.Sample.site_whole.toComplete

/-- What a cache at block 5 that has read the baseline's slot leaves in the file. -/
def kept : Record := .slot addr slot0 (FixedBytes.ofNat 32 7)

/-- A cache without a store that has loaded the file. -/
def reloaded : Cache := (Cache.new 5 false).insert kept

/-- A cache reads the slot and is closed, the next one is opened on its file, and block 6, which
clears the slot, is appended. -/
theorem reloaded_run : ∃ x, CacheRun digest trie 5 5 (AtReached 5 5) x ∧ x.w = site ∧
    x.caches 1 = some reloaded := by
  have hread := ((CacheRun.start (Q := AtReached 5 5) (B := 5)
    Replay.Sample.finished_whole.toComplete).opens 0 true rfl).slot (i := 0) (h := {}) rfl (Or.inr rfl)
    addr slot0 (fun _ => Nat.le_refl _)
  have hload : (Cache.new 5 false).load (fileOf 5 [kept]) = .ok reloaded :=
    load_fileOf_sliced (by simp [kept, Record.Sliced]) _
  have hclosed := hread.close (i := 0) rfl (by decide +kernel)
    (⟨_, ⟨_, _, _, .rfl, .rfl, .rfl, rfl⟩, by decide +kernel⟩ : Cache.Writes _ (fileOf 5 [kept]))
  exact ⟨_, (hclosed.opens 1 false hload).grow Replay.Sample.site_whole.toComplete, rfl, rfl⟩

end Sample

/-- The cache opened at block 7 before the store had block 6 serves zero for a slot that
block 6 sets. -/
theorem cache_serves_stale :
    CacheRun Store.Sample.digest Store.Sample.trie 5 7 (fun _ => True) Sample.stale ∧
      Sample.stale.caches 0 = some Sample.early ∧
      (Sample.early.slot Store.Sample.digest {} Sample.stale.w.env Store.Sample.addr
        Store.Sample.slot1).1 = .ok Hash.zero ∧
      getSlot Store.Sample.digest {} Sample.stale.w.env Store.Sample.addr Store.Sample.slot1 7 =
        .ok (FixedBytes.ofNat 32 9) := by
  exact ⟨Sample.stale_run, rfl, by decide +kernel, by decide +kernel⟩

/-- The cache serves the slot from the file, as the store has it at block 5. -/
theorem cache_serves_store_reloaded :
    ∃ x, CacheRun Store.Sample.digest Store.Sample.trie 5 5 (AtReached 5 5) x ∧
      x.caches 1 = some Sample.reloaded ∧ Sample.reloaded.attached = false ∧
      getSlot Store.Sample.digest {} x.w.env Store.Sample.addr Store.Sample.slot0 5 =
        .ok (FixedBytes.ofNat 32 7) := by
  obtain ⟨x, hrun, hw, hcache⟩ := Sample.reloaded_run
  have hserves := (cache_serves_store hrun hcache (h := {}) (Or.inr (by rw [hw]; rfl))
    Store.Sample.addr).2
  exact ⟨x, hrun, hcache, rfl, hserves Store.Sample.slot0 _ rfl⟩

end Flatstate.Suitecache
