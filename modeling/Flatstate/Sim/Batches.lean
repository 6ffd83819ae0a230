import Flatstate.Engine.Pool
import Flatstate.Engine.Stamps
import Flatstate.Exec.TipCode
import Flatstate.Sim.Executor

set_option autoImplicit false

/-!
# Sim: what a returned batch says

The whole of the simulating process: pooled executors over the tip view of the writer, in
batches of calls, with reads that interleave with each other and with the store's commits,
and with write phases in between.  A batch that `Engine.Execute` returns holds, for every
call, what a new executor computes on the state of the blocks that are visible at that
moment, or a read error.
-/

namespace Flatstate.Sim

open Foundation Schema Capture Store
open Mem (Tip TipChain PinsLag Extends SideBuffer)
open Engine
open Node (Linked)
open Exec (Cached foldCodes)
open Foundation.Prog (Ends ends_ret ends_ask ends_bind)

/-! ## The world -/

section World

variable (keccak : Bytes → Hash) (base : Trie) (S : UInt64) (Tag : Batch → Prop) (root : Hash)
  (bs : List Batch)

/-- The reads of `mem.State`, by the executor with side buffer `i`. -/
def serve (i : Nat) (t : Tip) : (q : MemQ) → q.Ans × Tip
  | .tipInfo => ((t.st.tip, t.st.tipBlock, t.st.tipTime), t)
  | .account a =>
    ((t.st.account keccak t.handle t.env i a).1,
      { t with st := (t.st.account keccak t.handle t.env i a).2 })
  | .slotFetch a s =>
    ((t.st.slotFetch keccak t.handle t.env i a s).1,
      { t with st := (t.st.slotFetch keccak t.handle t.env i a s).2 })
  | .accountFetch a =>
    ((t.st.accountFetch keccak t.handle t.env i a).1,
      { t with st := (t.st.accountFetch keccak t.handle t.env i a).2 })
  | .code h => ((t.st.codeOf t.env i h).1, { t with st := (t.st.codeOf t.env i h).2 })

/-- What goes on without the lock: the store commits the oldest layer's block or moves its
watermark, and a read fills the caches of the handle. -/
inductive Drift : Tip → Tip → Prop where
  | sees {t : Tip} {h : Handle}
      (hh : h = (genesis t.handle t.env).2 ∨ h = (baselineComplete t.handle t.env).2) :
      Drift t { t with handle := h }
  | commit {t : Tip} (hw : t.written = t.fin) {b : Batch} (hb : t.st.batches.head? = some b) :
      Drift t { t with env := writeBlock t.env b, written := t.fin ++ [b] }
  | setFinalized {t : Tip} (h : UInt64) : Drift t { t with env := setFinalized t.env h }

/-- The write phases, for blocks of the kind `Tag` that are linked by their parents; no empty
reset drops layers. -/
inductive WritePhase : Tip → Tip → Prop where
  | applyBlock {t : Tip} {b : Batch} (hb : Extends keccak base S (t.fin ++ t.st.batches) [b])
      (hT : Tag b) (hl : Linked root (S.toNat + bs.length) ((chain t ++ [b]).drop bs.length)) :
      WritePhase t { t with st := t.st.applyBlock b }
  | preferenceReset {t : Tip} {preferred : List Batch} (hb : Extends keccak base S t.fin preferred)
      (hc : t.written = t.fin ∨ ∃ b, preferred.head? = some b ∧ t.written = t.fin ++ [b])
      (hT : ∀ b ∈ preferred, Tag b)
      (hl : Linked root (S.toNat + bs.length) ((t.fin ++ preferred).drop bs.length))
      (hne : preferred = [] → t.st.layers = []) :
      WritePhase t { t with st := t.st.preferenceReset preferred }
  | finalize {t : Tip} {b : Batch} (hw : t.written = t.fin ++ [b]) :
      WritePhase t { t with st := (t.st.finalize b.block b.hash).2, fin := t.fin ++ [b] }
  /-- a `Finalize` that fails has merged the side buffers -/
  | drain {t : Tip} : WritePhase t { t with st := t.st.lockAndDrain }

/-- The tip view of the writer process. -/
def tipWorld : World Tip where
  tip t := t.st.tip
  serve i t q a t' := serve keccak i t q = (a, t')
  drift := Drift
  write := WritePhase keccak base S Tag root bs

/-- The tip view over a store with the blocks `bs`, with `n` registered side buffers. -/
def Tip.start (w : Site) (f : Option UInt64) (n : Nat) : Tip where
  env := w.env
  handle := w.writer
  st := { Mem.State.new f with buffers := List.replicate n SideBuffer.new }
  inflight := []
  fin := bs
  written := bs

end World

/-! ## Snapshots -/

/-- A state of the chain, with its tip. -/
structure Snapshot where
  tip : Hash
  num : UInt64
  time : UInt64
  state : Capture.State
  code : Hash → Bytes

/-- What a view of the snapshot reads. -/
def Snapshot.view (s : Snapshot) : TipView Err where
  tip := s.tip
  num := s.num
  time := s.time
  reads :=
    { account := fun a => .ok (withExists (s.state (.account a)))
      balance := fun a => .ok (withExists (s.state (.account a))).1.balance
      slot := fun a k => .ok (s.state (.slot a k))
      code := fun h => .ok (s.code h) }

/-- An answer of `mem.State` that is right at the snapshot, or an error. -/
def Snapshot.Fits (s : Snapshot) : (q : MemQ) → q.Ans → Prop
  | .tipInfo, x => x = (s.tip, s.num, s.time)
  | .account a, x => ∀ y, x = .ok y → y = s.state (.account a)
  | .slotFetch a k, x => ∀ y b, x = .ok (y, b) → y = s.state (.slot a k)
  | .accountFetch _, _ => True
  | .code h, x => ∀ y, x = .ok y → y = s.code h

/-- The blocks that a tip view shows. -/
def snapOf (keccak : Bytes → Hash) (base : Trie) (code : Hash → Bytes) (t : Tip) : Snapshot where
  tip := t.st.tip
  num := t.st.tipBlock
  time := t.st.tipTime
  state := foldBatches (chain t) (base.state keccak)
  code := code

/-- A read of a view without overrides fits if the answers of `mem.State` do. -/
theorem Snapshot.read_fits (s : Snapshot) (q : ReadQ) {x : q.Ans Err}
    (hx : Ends s.Fits (Engine.View.new.read q) x) : s.view.Fits q x := by
  cases q with
  | tipInfo =>
    obtain ⟨a, ha, hx⟩ := ends_ask.mp hx
    rw [ends_ret.mp hx]
    exact ha
  | account addr | balance addr =>
    obtain ⟨a, ha, hx⟩ := ends_ask.mp hx
    rw [ends_ret.mp hx]
    intro y hy
    cases a with
    | error e => cases hy
    | ok acct =>
      obtain rfl := ha acct rfl
      exact hy
  | slot addr k =>
    obtain ⟨a, ha, hx⟩ := ends_ask.mp hx
    intro y hy
    subst hy
    rcases a with e | ⟨v, needed⟩
    · cases ends_ret.mp hx
    · obtain rfl := ha v needed rfl
      cases needed with
      | false =>
        cases ends_ret.mp hx
        rfl
      | true =>
        obtain ⟨r, -, hx⟩ := ends_ask.mp hx
        cases r with
        | error e => cases ends_ret.mp hx
        | ok u =>
          cases ends_ret.mp hx
          rfl
  | code h =>
    obtain ⟨a, ha, hx⟩ := ends_ask.mp hx
    rw [ends_ret.mp hx]
    intro y hy
    obtain rfl := ha y hy
    rfl

/-! ## The invariant -/

section Invariant

variable (keccak : Bytes → Hash) (base : Trie) (S : UInt64) (Tag : Batch → Prop) (root : Hash)
  (bs : List Batch) (code : Hash → Bytes)

/-- What holds of the tip view in every state. -/
structure TipOk (t : Tip) : Prop where
  chain : TipChain keccak base S t
  pins : PinsLag (t.written.map Batch.diff) (base.state keccak) t.fin.length t.st
  stamp : StampInv S Tag root bs t
  /-- before the first block there is no stamp -/
  unstamped : t.st.tipBlock = 0 → t.st.tip = Hash.zero ∧ t.st.tipTime = 0
  /-- code is content-addressed -/
  rows : ∀ h c, row t.env (.code h) = some c → c = code h
  cached : ∀ h c, Cached t.st h c → c = code h

end Invariant

namespace TipOk

variable {keccak : Bytes → Hash} {base : Trie} {S : UInt64} {Tag : Batch → Prop} {root : Hash}
  {bs : List Batch} {code : Hash → Bytes} {t t' : Tip}

theorem start {w : Site} (hw : Built keccak base S w bs)
    (hrows : ∀ h c, row w.env (.code h) = some c → c = code h) (f : Option UInt64) (n : Nat) :
    TipOk keccak base S Tag root bs code (Tip.start bs w f n) := by
  have hchain : Engine.chain (Tip.start bs w f n) = bs := List.append_nil bs
  refine ⟨(TipChain.init hw f).of_st (t := ⟨w.env, w.writer, Mem.State.new f, [], bs, bs⟩) [] rfl,
    ⟨(PinsLag.new _ _ _ f).base, fun sb hsb => ?_⟩, ?_, fun _ => ⟨rfl, rfl⟩, hrows, ?_⟩
  · rw [List.eq_of_mem_replicate hsb]
    exact Mem.Lags.new _ _ _
  · refine ⟨List.prefix_rfl, ?_, ?_, fun _ => hchain, fun hne => absurd rfl hne⟩
    · rw [hchain, List.drop_length]
      trivial
    · rw [hchain, List.drop_length]
      simp
  · rintro h c (hc | ⟨sb, hsb, hc⟩)
    · cases hc
    · rw [List.eq_of_mem_replicate hsb] at hc
      cases hc

/-- Steps that touch the side buffers only. -/
theorem of_buffers (h : TipOk keccak base S Tag root bs code t) {st : Mem.State}
    (hst : ∃ bufs, st = { t.st with buffers := bufs })
    (hpins : PinsLag (t.written.map Batch.diff) (base.state keccak) t.fin.length st)
    (hcached : ∀ h c, Cached st h c → c = code h) :
    TipOk keccak base S Tag root bs code { t with st := st } ∧
      snapOf keccak base code { t with st := st } = snapOf keccak base code t := by
  obtain ⟨bufs, rfl⟩ := hst
  exact ⟨⟨h.chain.of_st t.inflight rfl, hpins, h.stamp.congr rfl rfl rfl rfl rfl, h.unstamped, h.rows,
    hcached⟩, rfl⟩

theorem fin_le (h : TipOk keccak base S Tag root bs code t) :
    t.fin.length ≤ (t.written.map Batch.diff).length := by
  simpa using h.chain.fin_le_written

/-- A read that does not fail is of the blocks the view shows. -/
theorem peek (h : TipOk keccak base S Tag root bs code t) (hno : NoOrphans (base.state keccak))
    {i : Nat} {k : Key} {v : Val k} (hr : t.st.peek keccak t.handle t.env i k = .ok v) :
    v = (snapOf keccak base code t).state k := by
  refine (h.chain.exact (Mem.peek_sees h.pins h.chain.layers h.fin_le
    (fun j _ => Mem.noOrphans_height hno h.chain.written_chain j) (fun _ => h.chain.answers k) hr)).trans ?_
  rw [snapOf, Engine.chain, foldBatches_append]

theorem codeOf_fits (h : TipOk keccak base S Tag root bs code t) {i : Nat} {hash : Hash} {c : Bytes}
    (hr : (t.st.codeOf t.env i hash).1 = .ok c) : c = code hash := by
  rw [Mem.State.codeOf] at hr
  split at hr
  · next c' hbase =>
    cases hr
    exact h.cached hash c (.inl hbase)
  · split at hr
    · next c' hbuf =>
      cases hr
      rw [Mem.State.buffer, List.getD_eq_getElem?_getD] at hbuf
      cases hi : t.st.buffers[i]? with
      | none =>
        rw [hi] at hbuf
        cases hbuf
      | some sb =>
        rw [hi] at hbuf
        exact h.cached hash c (.inr ⟨sb, List.mem_of_getElem? hi, hbuf⟩)
    · split at hr
      · cases hr
      · next c' hget =>
        cases hr
        refine h.rows hash c ?_
        rw [getCode] at hget
        split at hget
        · cases hget
        · next hrow =>
          cases hget
          exact hrow

theorem codeOf_snd (env : Store.Env) (st : Mem.State) (i : Nat) (hash : Hash) :
    ∃ bufs, (st.codeOf env i hash).2 = { st with buffers := bufs } := by
  rw [Mem.State.codeOf]
  split
  · exact ⟨st.buffers, rfl⟩
  · split
    · exact ⟨st.buffers, rfl⟩
    · split <;> exact ⟨_, rfl⟩

/-- Every read keeps the invariant and the snapshot, and fits it. -/
theorem serve (h : TipOk keccak base S Tag root bs code t) (hno : NoOrphans (base.state keccak))
    (i : Nat) (q : MemQ) :
    TipOk keccak base S Tag root bs code (serve keccak i t q).2 ∧
      snapOf keccak base code (Sim.serve keccak i t q).2 = snapOf keccak base code t ∧
      (snapOf keccak base code t).Fits q (Sim.serve keccak i t q).1 := by
  cases q with
  | tipInfo => exact ⟨h, rfl, rfl⟩
  | account a =>
    obtain ⟨hok, hsnap⟩ := h.of_buffers (Mem.account_snd keccak t.handle t.env t.st i a)
      (h.pins.account h.fin_le fun _ => h.chain.answers _)
      fun hash c hc => h.cached hash c (Exec.cached_account hc)
    exact ⟨hok, hsnap, fun y hy => h.peek hno ((Mem.account_fst t.st i a).symm.trans hy)⟩
  | slotFetch a s =>
    obtain ⟨hok, hsnap⟩ := h.of_buffers (Mem.slotFetch_snd keccak t.handle t.env t.st i a s)
      (h.pins.slotFetch h.fin_le fun _ => h.chain.answers _)
      fun hash c hc => h.cached hash c (Exec.cached_slotFetch hc)
    refine ⟨hok, hsnap, fun y b hy => h.peek hno ((Mem.slotFetch_fst t.st i a s).symm.trans ?_)⟩
    exact congrArg (Except.map Prod.fst) hy
  | accountFetch a =>
    obtain ⟨hok, hsnap⟩ := h.of_buffers (Mem.accountFetch_snd keccak t.handle t.env t.st i a)
      (h.pins.accountFetch h.fin_le (h.chain.answers _))
      fun hash c hc => h.cached hash c (Exec.cached_accountFetch hc)
    exact ⟨hok, hsnap, trivial⟩
  | code hash =>
    obtain ⟨hok, hsnap⟩ := h.of_buffers (codeOf_snd t.env t.st i hash)
      (Exec.TipCodeInv.codeOf_pins h.pins t.env i hash)
      fun hash' c hc => (Exec.cached_codeOf hc).elim (h.cached hash' c) (h.rows hash' c)
    exact ⟨hok, hsnap, fun y hy => h.codeOf_fits hy⟩

/-- The blocks above the finalized ones are of the kind `Tag`. -/
theorem tag_of_batches (h : TipOk keccak base S Tag root bs code t) {b : Batch}
    (hb : b ∈ t.st.batches) : Tag b := by
  refine h.stamp.tags b ?_
  rw [Engine.chain, drop_concat h.stamp.fin]
  exact List.mem_append_right _ hb

/-- A commit writes code under its hash. -/
theorem rows_writeBlock (h : TipOk keccak base S Tag root bs code t)
    (haddr : ∀ b, Tag b → ∀ h c, Op.code h c ∈ b.ops → c = code h) {b : Batch} (hb : Tag b)
    (hash : Hash) (c : Bytes) (hc : row (writeBlock t.env b) (.code hash) = some c) :
    c = code hash := by
  have hold : Exec.Addressed code (fun h => row t.env (.code h)) := h.rows
  rw [Exec.row_writeBlock_code] at hc
  have hops : ∀ h c, Op.code h c ∈ [b].flatMap Batch.ops → c = code h := by
    intro h c hmem
    exact haddr b hb h c (by simpa using hmem)
  exact hold.foldl_addCode hops hash c hc

theorem drift (h : TipOk keccak base S Tag root bs code t)
    (haddr : ∀ b, Tag b → ∀ h c, Op.code h c ∈ b.ops → c = code h) (hs : Drift t t') :
    TipOk keccak base S Tag root bs code t' ∧
      snapOf keccak base code t' = snapOf keccak base code t := by
  cases hs with
  | sees hh =>
    refine ⟨⟨?_, h.pins, h.stamp.congr rfl rfl rfl rfl rfl, h.unstamped, h.rows, h.cached⟩, rfl⟩
    rcases hh with rfl | rfl
    · exact { h.chain with coherent := h.chain.coherent.genesis_snd h.chain.refines.genesis }
    · exact { h.chain with coherent := h.chain.coherent.complete_snd }
  | commit hw hb =>
    rename_i b
    have hT : Tag b := h.tag_of_batches (List.mem_of_mem_head? hb)
    refine ⟨⟨h.chain.commit hw hb, ?_, h.stamp.congr rfl rfl rfl rfl rfl, h.unstamped,
      h.rows_writeBlock haddr hT, h.cached⟩, rfl⟩
    have hpins := h.pins
    rw [hw] at hpins
    rw [List.map_append]
    exact hpins.append _
  | setFinalized f =>
    have hr := h.chain.refines.put_other (r := .finalized) rfl (beBytes f)
    have hrow : ∀ hash, row (Store.setFinalized t.env f) (.code hash) = row t.env (.code hash) :=
      fun hash => row_put_of_ne (r := .finalized) _ _ (by simp)
    refine ⟨⟨{ h.chain with
      refines := hr
      coherent := h.chain.coherent.of_rows (hr.genesis.trans h.chain.refines.genesis.symm)
        (row_put_ne_none .finalized _) }, h.pins, h.stamp.congr rfl rfl rfl rfl rfl, h.unstamped,
      fun hash c hc => h.rows hash c ((hrow hash).symm.trans hc), h.cached⟩, rfl⟩

theorem write (h : TipOk keccak base S Tag root bs code t)
    (hs : WritePhase keccak base S Tag root bs t t') : TipOk keccak base S Tag root bs code t' := by
  cases hs with
  | applyBlock hb hT hl =>
    rename_i b
    have hne : b.block ≠ 0 := block_ne_zero hb (List.mem_singleton_self b)
    exact ⟨h.chain.applyBlock hb, h.pins.applyBlock b, h.stamp.applyBlock h.chain.layers hb hT hl,
      fun h0 => absurd h0 hne, h.rows, fun hash c hc => h.cached hash c (Exec.cached_lockAndDrain hc)⟩
  | preferenceReset hb hc hT hl hne =>
    rename_i preferred
    refine ⟨h.chain.preferenceReset hb hc, h.pins.preferenceReset _,
      h.stamp.preferenceReset hb hT hl hne, fun h0 => ?_, h.rows,
      fun hash c hc => h.cached hash c (Exec.cached_preferenceReset hc)⟩
    cases hlast : preferred.getLast? with
    | none =>
      obtain rfl := List.getLast?_eq_none_iff.mp hlast
      exact h.unstamped h0
    | some b =>
      have hstamp := stamps_preferenceReset t.st hlast
      exact absurd (hstamp.tipBlock.symm.trans h0) (block_ne_zero hb (List.mem_of_getLast? hlast))
  | finalize hw =>
    rename_i b
    obtain ⟨rest, hlay, hbatches⟩ := h.chain.oldest hw
    obtain ⟨-, hfold, -⟩ := Mem.finalize_oldest hlay
    refine ⟨h.chain.finalize hw, ?_, h.stamp.finalize hlay hbatches, fun h0 => ?_, h.rows,
      fun hash c hc => h.cached hash c (Exec.cached_fold hfold hc)⟩
    · dsimp only
      rw [List.length_append, List.length_singleton]
      refine h.pins.fold ?_ hfold
      rw [hw]
      simp
    · -- there is a layer, so there was a block event
      have hstart := h.stamp.start (hfold.tipBlock.symm.trans h0)
      have hlen := congrArg List.length hstart
      have hfin := h.stamp.fin.length_le
      rw [Engine.chain, hbatches, List.length_append, List.length_cons] at hlen
      omega
  | drain =>
    exact ⟨h.chain.of_st t.inflight rfl, h.pins.lockAndDrain, h.stamp.congr rfl rfl rfl rfl rfl,
      h.unstamped, h.rows, fun hash c hc => h.cached hash c (Exec.cached_lockAndDrain hc)⟩

/-- The stamp of a view with blocks is that of one of them. -/
theorem exists_stamp (h : TipOk keccak base S Tag root bs code t) (hne : t.st.tipBlock ≠ 0) :
    ∃ b, Tag b ∧ Stamps t.st b := by
  obtain ⟨b, hb, hs⟩ := h.stamp.stamp hne
  exact ⟨b, h.stamp.tags b (List.mem_of_getLast? hb), hs⟩

/-- The tip hash stands for the snapshot. -/
theorem snap_eq (h : TipOk keccak base S Tag root bs code t)
    (h' : TipOk keccak base S Tag root bs code t')
    (hone : ∀ b b', Tag b → Tag b' → b.hash = b'.hash → b = b')
    (hzero : ∀ b, Tag b → b.hash ≠ Hash.zero) (htip : t.st.tip = t'.st.tip) :
    snapOf keccak base code t = snapOf keccak base code t' := by
  by_cases h0 : t.st.tipBlock = 0 <;> by_cases h0' : t'.st.tipBlock = 0
  · have hc : Engine.chain t = Engine.chain t' := (h.stamp.start h0).trans (h'.stamp.start h0').symm
    rw [snapOf, snapOf, hc, htip, h0, h0', (h.unstamped h0).2, (h'.unstamped h0').2]
  · obtain ⟨b, hb, hs⟩ := h'.exists_stamp h0'
    exact absurd (hs.tip.symm.trans (htip.symm.trans (h.unstamped h0).1)) (hzero b hb)
  · obtain ⟨b, hb, hs⟩ := h.exists_stamp h0
    exact absurd (hs.tip.symm.trans (htip.trans (h'.unstamped h0').1)) (hzero b hb)
  · have hc := h.stamp.chain_eq h'.stamp hone h0 h0' htip
    obtain ⟨b, hb, hs⟩ := h.exists_stamp h0
    obtain ⟨b', hb', hs'⟩ := h'.exists_stamp h0'
    obtain rfl := hone b b' hb hb' (hs.tip.symm.trans (htip.trans hs'.tip))
    rw [snapOf, snapOf, hc, htip, hs.tipBlock, hs'.tipBlock, hs.tipTime, hs'.tipTime]

end TipOk

/-! ## Batches -/

section Batches

variable {keccak : Bytes → Hash} {base : Trie} {S : UInt64} {Tag : Batch → Prop} {root : Hash}
  {bs : List Batch} {code : Hash → Bytes} {Log X : Type} {vm : Vm Log X}

/-- A tip hash names one block in every state of the view. -/
theorem exists_names (hone : ∀ b b', Tag b → Tag b' → b.hash = b'.hash → b = b')
    (hzero : ∀ b, Tag b → b.hash ≠ Hash.zero) :
    ∃ info : Hash → UInt64 × UInt64, ∀ t, TipOk keccak base S Tag root bs code t →
      Names info (snapOf keccak base code t).view := by
  classical
  refine ⟨fun h => if hb : ∃ b, Tag b ∧ b.hash = h then (hb.choose.block, hb.choose.time / 1000)
    else (0, 0), fun t ht => ?_⟩
  change dite _ _ _ = (t.st.tipBlock, t.st.tipTime)
  by_cases h0 : t.st.tipBlock = 0
  · have htip := ht.unstamped h0
    have hnone : ¬∃ b, Tag b ∧ b.hash = (snapOf keccak base code t).view.tip := by
      rintro ⟨b, hb, hh⟩
      exact hzero b hb (hh.trans htip.1)
    rw [dif_neg hnone, h0, htip.2]
  · obtain ⟨b, hb, hs⟩ := ht.exists_stamp h0
    have hsome : ∃ b, Tag b ∧ b.hash = (snapOf keccak base code t).view.tip := ⟨b, hb, hs.tip.symm⟩
    have hspec := hsome.choose_spec
    have hsame : hsome.choose = b := hone _ _ hspec.1 hb (hspec.2.trans hs.tip)
    rw [dif_pos hsome, hsame, hs.tipBlock, hs.tipTime]

/-- `NewPool`'s executors, as the engine runs them. -/
def simulate (vm : Vm Log X) (keccak : Bytes → Hash) (e : Executor Err Log) (c : Option Request) :
    Prog ViewQ ViewQ.Ans (Result Err Log X × Executor Err Log) :=
  reading (e.execute vm keccak c)

/-- The result of a call is right at a snapshot, or a read error. -/
def Right (vm : Vm Log X) (keccak : Bytes → Hash) (s : Snapshot) (c : Option Request)
    (r : Result Err Log X) : Prop :=
  (∃ e, r = .fail (.read e)) ∨ r = (Executor.new : Executor Err Log).result vm keccak c s.view

/-- A pooled executor is right at every snapshot of the view. -/
theorem simulate_obeys {info : Hash → UInt64 × UInt64} {s : Snapshot} (hs : Names info s.view) :
    Obeys (simulate vm keccak) Snapshot.Fits (fun e => e.Used vm keccak info) (Right vm keccak) s := by
  intro e c r e' v he hr
  have hends := ends_of_view (fun q x hx => s.read_fits q hx) hr
  refine ⟨.call he hs c hends, ?_⟩
  rcases execute_ends keccak vm e c hends with hfail | hsame
  · exact .inl hfail
  · refine .inr ?_
    rw [← he.result_eq keccak hs c]
    exact congrArg Prod.fst hsame

theorem tipWorld_lawful (hno : NoOrphans (base.state keccak))
    (hone : ∀ b b', Tag b → Tag b' → b.hash = b'.hash → b = b')
    (hzero : ∀ b, Tag b → b.hash ≠ Hash.zero)
    (haddr : ∀ b, Tag b → ∀ h c, Op.code h c ∈ b.ops → c = code h) :
    Lawful (tipWorld keccak base S Tag root bs) (TipOk keccak base S Tag root bs code)
      (snapOf keccak base code) Snapshot.Fits where
  serve i t q a t' ht hs := by
    obtain ⟨hok, hsnap, hfits⟩ := ht.serve hno i q
    have hs : serve keccak i t q = (a, t') := hs
    rw [hs] at hok hsnap hfits
    exact ⟨hok, hsnap, congrArg Snapshot.tip hsnap, hfits⟩
  drift t t' ht hs := by
    obtain ⟨hok, hsnap⟩ := ht.drift haddr hs
    exact ⟨hok, hsnap, congrArg Snapshot.tip hsnap⟩
  write t t' ht hs := ht.write hs
  stamp t t' ht ht' htip := ht.snap_eq ht' hone hzero htip

/-- In every run of an engine of `n` executors over the writer's tip view, whose baseline has
slots only under accounts, with any batches at a time, any interleaving of their reads, the
store's commits and write phases in between: when a batch is returned, its stamp being the tip
hash, every call has a result, which is a read error or what a new executor computes on the
state of the blocks visible at that moment. -/
theorem returned_batches_exact (hno : NoOrphans (base.state keccak))
    (hone : ∀ b b', Tag b → Tag b' → b.hash = b'.hash → b = b')
    (hzero : ∀ b, Tag b → b.hash ≠ Hash.zero)
    (haddr : ∀ b, Tag b → ∀ h c, Op.code h c ∈ b.ops → c = code h)
    {w : Site} (hw : Built keccak base S w bs)
    (hrows : ∀ h c, row w.env (.code h) = some c → c = code h) (f : Option UInt64) (n : Nat)
    {a : Sys Tip (Executor Err Log) (Option Request) (Result Err Log X)}
    (h : Reaches (tipWorld keccak base S Tag root bs) (simulate vm keccak) n
      (Sys.new (Tip.start bs w f n) 0 (List.replicate n Executor.new)) a)
    {calls : List (Option Request)} {results : List (Option (Result Err Log X))}
    (hj : ⟨calls, .check a.world.st.tip results⟩ ∈ a.jobs) :
    results.length = calls.length ∧
      ∀ (i : Nat) (c : Option Request), calls[i]? = some c → ∃ r, results[i]? = some (some r) ∧
        ((∃ e, r = .fail (.read e)) ∨
          r = (Executor.new : Executor Err Log).result vm keccak c
            (snapOf keccak base code a.world).view) := by
  obtain ⟨info, hinfo⟩ : ∃ info : Hash → UInt64 × UInt64, ∀ t,
      TipOk keccak base S Tag root bs code t → Names info (snapOf keccak base code t).view :=
    exists_names hone hzero
  refine h.answered (tipWorld_lawful hno hone hzero haddr)
    (fun t ht => simulate_obeys (hinfo t ht)) (TipOk.start hw hrows f n) (fun x hx => ?_) hj
  rw [List.eq_of_mem_replicate hx]
  exact .new

end Batches

namespace Sample

open Store.Sample (digest trie site block6 slot1)
open Mem.Sample (block7)

/-- A contract that returns a slot. -/
def getter : Vm Unit Unit where
  rules _ _ := ⟨false, false⟩
  precompiles _ _ := []
  call _ _ _ dst _ gas _ := .ask (.getState dst slot1) fun x => .ret (x.1, gas - 21000, none)

/-- The store has no code. -/
theorem site_rows (h : Hash) (c : Bytes) (hc : row site.env (.code h) = some c) : c = [] := by
  rw [site, Exec.row_writeBlock_code] at hc
  cases (Exec.Sample.codes_none h).symm.trans hc

/-- One executor, after block 7 and a batch of one call. -/
theorem getter_reached :
    ∃ a : Sys Tip (Executor Err Unit) (Option Request) (Result Err Unit Unit),
      Reaches (tipWorld digest trie 5 (· = block7) block6.hash [block6]) (simulate getter digest) 1
        (Sys.new (Tip.start [block6] site none 1) 0 (List.replicate 1 Executor.new)) a ∧
      a.world.st.batches = [block7] ∧
      (⟨[some plain], .check a.world.st.tip [some ⟨(FixedBytes.ofNat 32 11).1, 21000, [], none⟩]⟩ :
        Job (Executor Err Unit) (Option Request) (Result Err Unit Unit)) ∈ a.jobs := by
  have h0 : Reaches (tipWorld digest trie 5 (· = block7) block6.hash [block6])
    (simulate getter digest) 1
    (Sys.new (Tip.start [block6] site none 1) 0 (List.replicate 1 Executor.new)) _ := .refl
  have h1 := (h0.tail (.inr (.lock rfl))).tail (.inl (.write rfl (fun j hj => (by cases hj))
    (.applyBlock Engine.Sample.block7_extends rfl ⟨rfl, rfl, trivial⟩)))
  have h2 := (h1.tail (.inr (.execute [some plain]))).tail (.inl (.job (i := 0) rfl (.begin rfl)))
  have h3 := h2.tail (.inl (.job (i := 0) rfl (.take rfl)))
  have h4 := h3.tail (.inl (.job (i := 0) rfl (.read (k := 0) rfl rfl)))
  have h5 := h4.tail (.inl (.job (i := 0) rfl (.read (k := 0) rfl rfl)))
  have h6 := h5.tail (.inl (.job (i := 0) rfl (.send (k := 0) rfl (by decide))))
  have h7 := h6.tail (.inl (.job (i := 0) rfl (.done (k := 0) rfl)))
  have h8 := h7.tail (.inl (.job (i := 0) rfl .finish))
  exact ⟨_, h8, rfl, List.mem_singleton.mpr rfl⟩
end Sample

/-- The theorem at work: the call reads block 7's write of the slot. -/
theorem returned_batches_exact_sample :
    ∃ a : Sys Tip (Executor Err Unit) (Option Request) (Result Err Unit Unit),
      a.world.st.batches = [Mem.Sample.block7] ∧
      ((Executor.new : Executor Err Unit).result Sample.getter Store.Sample.digest (some Sample.plain)
        (snapOf Store.Sample.digest Store.Sample.trie (fun _ => []) a.world).view).returnData =
          (FixedBytes.ofNat 32 11).1 := by
  obtain ⟨a, ha, hbatches, hj⟩ := Sample.getter_reached
  refine ⟨a, hbatches, ?_⟩
  have h := returned_batches_exact Mem.Sample.noOrphans
    (fun b b' (hb : b = Mem.Sample.block7) (hb' : b' = Mem.Sample.block7) _ => hb.trans hb'.symm)
    (fun b (hb : b = Mem.Sample.block7) => by
      rw [hb]
      decide)
    (fun b (hb : b = Mem.Sample.block7) h c hc => by
      rw [hb] at hc
      simp [Mem.Sample.block7] at hc)
    Store.Sample.site_built Sample.site_rows none 1 ha hj
  obtain ⟨r, hr, hright⟩ := h.2 0 (some Sample.plain) rfl
  obtain rfl := Option.some.inj (Option.some.inj hr)
  rcases hright with ⟨e, he⟩ | hsame
  · cases congrArg Result.err he
  · rw [← hsame]

end Flatstate.Sim
