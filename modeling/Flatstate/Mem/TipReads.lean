import Flatstate.Mem.Pins

set_option autoImplicit false

/-!
# Mem: tip reads in the writer process are exact

The writer process has one tip view over its store.  Executors read through it in
read phases; a `State.Slot` that misses reads the store twice, and the store may
commit in between.  A write phase waits until no read is running.  Finalizing the
oldest layer is two steps, the commit of its block and the fold into the base, with
reads in between.

The view lags the store by at most the one block that is committed and not folded
yet.  That block is the oldest layer, so a read that gets past the layers is of a
key the block leaves alone: it does not matter which side of the commit the value
comes from.
-/

namespace Flatstate.Mem

open Foundation Schema Capture Store

variable {keccak : Bytes → Hash} {base : Trie} {S : UInt64}

/-! ## The store's answers -/

theorem le_latest (S : UInt64) : S ≤ Latest := by
  have := S.toNat_lt
  have hL : Latest.toNat = 2 ^ 64 - 1 := by decide
  rw [UInt64.le_iff_toNat_le]
  omega

theorem reach_latest {bs : List Batch} (h : S.toNat + bs.length < 2 ^ 64) :
    reach S bs Latest = bs.length := by
  have hL : Latest.toNat = 2 ^ 64 - 1 := by decide
  rw [reach, hL]
  omega

theorem stateAt_length (bs : List Batch) :
    stateAt keccak base bs bs.length = foldBatches bs (base.state keccak) := by
  rw [stateAt, List.take_length]

/-- At `Latest` the store answers with the state after its newest block, or refuses a key
while the baseline is not complete. -/
theorem readLatest_refines {bs : List Batch} {env : Env} {h : Handle}
    (hr : Refines keccak base S bs env) (hc : Coherent h env)
    (hchain : ContractChain (base.state keccak) bs) (k : Key) :
    readLatest keccak h env k = .ok (foldBatches bs (base.state keccak) k) ∨
      (readLatest keccak h env k = .error .baselineIncomplete ∧ Uncovered keccak env k Latest) := by
  have hd : ∀ b ∈ bs, DestructFirst b.ops := fun b hb =>
    (ContractChain.mem hchain hb).choose_spec.destructFirst
  rw [← stateAt_length, ← reach_latest hr.fits]
  cases k with
  | account a => exact getAccount_refines hr hd hc (le_latest S) a
  | slot a s =>
    exact getSlot_refines hr hd
      (fun b hb => (ContractChain.mem hchain hb).choose_spec.recreated) hc (le_latest S) a s

/-- Over a complete baseline the store never refuses. -/
theorem readLatest_ok {bs : List Batch} {env : Env} {h : Handle}
    (hr : Refines keccak base S bs env) (hc : Coherent h env)
    (hchain : ContractChain (base.state keccak) bs) (hset : row env .baselineComplete ≠ none)
    (k : Key) : readLatest keccak h env k = .ok (foldBatches bs (base.state keccak) k) := by
  rcases readLatest_refines hr hc hchain k with h | ⟨-, h⟩
  · exact h
  · exact absurd h.unset hset

theorem answers_of_refines {bs : List Batch} {env : Env} {h : Handle}
    (hr : Refines keccak base S bs env) (hc : Coherent h env)
    (hchain : ContractChain (base.state keccak) bs) (k : Key) :
    Answers keccak h env (Diff.applyAll (bs.map Batch.diff) (base.state keccak)) k := by
  intro v hv
  rw [← foldBatches_eq]
  rcases readLatest_refines hr hc hchain k with h | ⟨h, -⟩
  · exact Except.ok.inj (hv.symm.trans h)
  · rw [hv] at h
    cases h

theorem height_eq_foldBatches (bs : List Batch) (σ : Capture.State) (n : Nat) :
    Diff.height (bs.map Batch.diff) σ n = foldBatches (bs.take n) σ := by
  rw [Diff.height, foldBatches_eq, List.map_take]

theorem ContractChain.take {σ : Capture.State} {bs : List Batch} (h : ContractChain σ bs) (n : Nat) :
    ContractChain σ (bs.take n) := by
  have happ : ContractChain σ (bs.take n ++ bs.drop n) := by rwa [List.take_append_drop]
  exact (ContractChain.append.mp happ).1

/-- No height of a chain that keeps the contract has slots without their account. -/
theorem noOrphans_height {σ : Capture.State} {bs : List Batch} (hno : NoOrphans σ)
    (hc : ContractChain σ bs) (j : Nat) : NoOrphans (Diff.height (bs.map Batch.diff) σ j) := by
  rw [height_eq_foldBatches]
  exact hno.foldBatches (ContractChain.take hc j)

/-! ## Read phases -/

/-- One step of an executor in a read phase, on the view and the slot reads that still
have to fetch their account.  The store is asked for keys that `ok` allows only. -/
inductive ReadStep (keccak : Bytes → Hash) (h : Handle) (env : Env) (ok : Key → Prop) :
    State → List (Nat × Address) → State → List (Nat × Address) → Prop where
  /-- an executor registers its buffer; this takes the lock -/
  | register {st : State} : ReadStep keccak h env ok st [] (st.register SideBuffer.new) []
  | account {st : State} {q : List (Nat × Address)} (i : Nat) (a : Address)
      (hk : st.known i (.account a) = none → ok (.account a)) :
      ReadStep keccak h env ok st q (st.account keccak h env i a).2 q
  /-- the only store read of a slot read, or none -/
  | slot {st : State} {q : List (Nat × Address)} (i : Nat) (a : Address) (s : Hash)
      (hk : st.known i (.slot a s) = none → ok (.slot a s))
      (hn : ∀ v, (st.slotFetch keccak h env i a s).1 ≠ .ok (v, true)) :
      ReadStep keccak h env ok st q (st.slotFetch keccak h env i a s).2 q
  /-- the first of two -/
  | slotFetch {st : State} {q : List (Nat × Address)} (i : Nat) (a : Address) (s : Hash) {v : Hash}
      (hk : st.known i (.slot a s) = none → ok (.slot a s))
      (hn : (st.slotFetch keccak h env i a s).1 = .ok (v, true)) :
      ReadStep keccak h env ok st q (st.slotFetch keccak h env i a s).2 ((i, a) :: q)
  /-- the second of two -/
  | accountFetch {st : State} {q : List (Nat × Address)} {i : Nat} {a : Address}
      (hq : (i, a) ∈ q) (hk : ok (.account a)) :
      ReadStep keccak h env ok st q (st.accountFetch keccak h env i a).2 (q.erase (i, a))

section ReadStep

variable {h : Handle} {env : Env} {ok : Key → Prop} {st st' : State} {q q' : List (Nat × Address)}

/-- Read phases touch nothing but side buffers. -/
theorem ReadStep.buffers (hs : ReadStep keccak h env ok st q st' q') :
    ∃ bufs, st' = { st with buffers := bufs } := by
  cases hs with
  | register => exact ⟨_, rfl⟩
  | account i a hk => exact account_snd keccak h env st i a
  | slot i a s hk hn | slotFetch i a s hk hn => exact slotFetch_snd keccak h env st i a s
  | accountFetch hq hk => exact accountFetch_snd keccak h env st _ _

theorem ReadStep.layers (hs : ReadStep keccak h env ok st q st' q') : st'.layers = st.layers := by
  obtain ⟨bufs, rfl⟩ := hs.buffers
  rfl

theorem ReadStep.tip (hs : ReadStep keccak h env ok st q st' q') : st'.tip = st.tip := by
  obtain ⟨bufs, rfl⟩ := hs.buffers
  rfl

/-- Read phases keep the pins lagging. -/
theorem ReadStep.pins (hs : ReadStep keccak h env ok st q st' q') {ds : List (Diff Val)}
    {σ : Capture.State} {F : Nat} (hp : PinsLag ds σ F st) (hF : F ≤ ds.length)
    (ha : ∀ k, ok k → Answers keccak h env (Diff.applyAll ds σ) k) : PinsLag ds σ F st' := by
  cases hs with
  | register => exact hp.register
  | account i a hk => exact hp.account hF (fun hn => ha _ (hk hn))
  | slot i a s hk hn | slotFetch i a s hk hn => exact hp.slotFetch hF (fun hn => ha _ (hk hn))
  | accountFetch hq hk => exact hp.accountFetch hF (ha _ hk)

end ReadStep

/-! ## The process -/

/-- The writer process: its store and tip view, the slot reads that still have to fetch
their account, the blocks finalized so far and the blocks in the store. -/
structure Tip where
  env : Env
  handle : Handle
  st : State
  inflight : List (Nat × Address)
  fin : List Batch
  written : List Batch

/-- The next blocks of the chain: numbered in order and keeping the contract. -/
structure Extends (keccak : Bytes → Hash) (base : Trie) (S : UInt64) (bs next : List Batch) :
    Prop where
  numbers : ∀ n b, next[n]? = some b → b.block.toNat = S.toNat + bs.length + n + 1
  contract : ContractChain (foldBatches bs (base.state keccak)) next

/-- The runs of the writer process. -/
inductive TipRun (keccak : Bytes → Hash) (base : Trie) (S : UInt64) : Tip → Prop where
  /-- a new view over a store whose blocks are all finalized -/
  | init {w : Site} {bs : List Batch} (hw : Built keccak base S w bs) (f : Option UInt64) :
      TipRun keccak base S ⟨w.env, w.writer, State.new f, [], bs, bs⟩
  | read {t : Tip} (ht : TipRun keccak base S t) {st : State} {q : List (Nat × Address)}
      (hs : ReadStep keccak t.handle t.env (fun _ => True) t.st t.inflight st q) :
      TipRun keccak base S { t with st := st, inflight := q }
  /-- a store read fills the caches of the handle -/
  | sees {t : Tip} (ht : TipRun keccak base S t) {h : Handle}
      (hh : h = (genesis t.handle t.env).2 ∨ h = (baselineComplete t.handle t.env).2) :
      TipRun keccak base S { t with handle := h }
  | applyBlock {t : Tip} (ht : TipRun keccak base S t) (hq : t.inflight = []) {b : Batch}
      (hb : Extends keccak base S (t.fin ++ t.st.batches) [b]) :
      TipRun keccak base S { t with st := t.st.applyBlock b }
  /-- any other chain on the finalized block; a committed block stays its first -/
  | preferenceReset {t : Tip} (ht : TipRun keccak base S t) (hq : t.inflight = [])
      {preferred : List Batch} (hb : Extends keccak base S t.fin preferred)
      (hc : t.written = t.fin ∨ ∃ b, preferred.head? = some b ∧ t.written = t.fin ++ [b]) :
      TipRun keccak base S { t with st := t.st.preferenceReset preferred }
  /-- the commit of the oldest layer's block -/
  | commit {t : Tip} (ht : TipRun keccak base S t) (hw : t.written = t.fin) {b : Batch}
      (hb : t.st.batches.head? = some b) :
      TipRun keccak base S { t with env := writeBlock t.env b, written := t.fin ++ [b] }
  /-- and its fold into the base -/
  | finalize {t : Tip} (ht : TipRun keccak base S t) (hq : t.inflight = []) {b : Batch}
      (hw : t.written = t.fin ++ [b]) :
      TipRun keccak base S
        { t with st := (t.st.finalize b.block b.hash).2, fin := t.fin ++ [b] }
  | setFinalized {t : Tip} (ht : TipRun keccak base S t) (h : UInt64) :
      TipRun keccak base S { t with env := setFinalized t.env h }

/-! ## The invariants -/

/-- Where the parties stand, in every state of a run. -/
structure TipChain (keccak : Bytes → Hash) (base : Trie) (S : UInt64) (t : Tip) : Prop where
  refines : Refines keccak base S t.written t.env
  coherent : Coherent t.handle t.env
  /-- the finalized blocks and the layers are one chain -/
  numbers : Consecutive S (t.fin ++ t.st.batches)
  contract : ContractChain (base.state keccak) (t.fin ++ t.st.batches)
  layers : t.st.layers = t.st.batches.map newLayer
  /-- the store is at the finalized block, or one ahead with the oldest layer's block -/
  written : t.written = t.fin ∨ ∃ b, t.st.batches.head? = some b ∧ t.written = t.fin ++ [b]

theorem batches_of_layers {st : State} {bs : List Batch} (h : st.layers = bs.map newLayer) :
    st.batches = bs := by
  rw [State.batches, h, List.map_map]
  exact (List.map_congr_left (fun b _ => newLayer_batch b)).trans (List.map_id bs)

theorem Extends.consecutive {bs next : List Batch} (h : Extends keccak base S bs next)
    (hbs : Consecutive S bs) : Consecutive S (bs ++ next) := by
  intro n b hn
  by_cases hlt : n < bs.length
  · exact hbs n b (by rwa [List.getElem?_append_left hlt] at hn)
  · rw [List.getElem?_append_right (Nat.le_of_not_lt hlt)] at hn
    have := h.numbers _ b hn
    omega

theorem Consecutive.of_append {bs cs : List Batch} (h : Consecutive S (bs ++ cs)) :
    Consecutive S bs := by
  intro n b hn
  have hlt : n < bs.length := (List.getElem?_eq_some_iff.mp hn).1
  exact h n b (by rwa [List.getElem?_append_left hlt])

namespace TipChain

variable {t : Tip}

/-- The chain in the store is a front part of the whole chain. -/
theorem written_chain (hi : TipChain keccak base S t) :
    ContractChain (base.state keccak) t.written := by
  rcases hi.written with h | ⟨b, hb, h⟩
  · rw [h]
    exact (ContractChain.append.mp hi.contract).1
  · obtain ⟨rest, hrest⟩ := List.head?_eq_some_iff.mp hb
    have hc := hi.contract
    rw [hrest, ← List.singleton_append, ← List.append_assoc] at hc
    rw [h]
    exact (ContractChain.append.mp hc).1

theorem written_numbers (hi : TipChain keccak base S t) : Consecutive S t.written := by
  rcases hi.written with h | ⟨b, hb, h⟩
  · rw [h]
    exact Consecutive.of_append hi.numbers
  · obtain ⟨rest, hrest⟩ := List.head?_eq_some_iff.mp hb
    have hc := hi.numbers
    rw [hrest, ← List.singleton_append, ← List.append_assoc] at hc
    rw [h]
    exact Consecutive.of_append hc

theorem fin_le_written (hi : TipChain keccak base S t) : t.fin.length ≤ t.written.length := by
  rcases hi.written with h | ⟨b, -, h⟩ <;> rw [h]
  simp

theorem answers (hi : TipChain keccak base S t) (k : Key) :
    Answers keccak t.handle t.env
      (Diff.applyAll (t.written.map Batch.diff) (base.state keccak)) k :=
  answers_of_refines hi.refines hi.coherent hi.written_chain k

/-- Steps of the view that keep its layers and the chain. -/
theorem of_st (hi : TipChain keccak base S t) {st : State} (q : List (Nat × Address))
    (hl : st.layers = t.st.layers) :
    TipChain keccak base S { t with st := st, inflight := q } := by
  have hb : st.batches = t.st.batches := by rw [State.batches, State.batches, hl]
  refine ⟨hi.refines, hi.coherent, ?_, ?_, ?_, ?_⟩
  · rw [hb]; exact hi.numbers
  · rw [hb]; exact hi.contract
  · rw [hb, hl]; exact hi.layers
  · rw [hb]; exact hi.written

theorem init {w : Site} {bs : List Batch} (hw : Built keccak base S w bs) (f : Option UInt64) :
    TipChain keccak base S ⟨w.env, w.writer, State.new f, [], bs, bs⟩ := by
  have hs := hw.inv
  have hnil : (State.new f).batches = [] := rfl
  refine ⟨hs.refines, hs.writer, ?_, ?_, rfl, Or.inl rfl⟩
  · rw [hnil, List.append_nil]; exact hs.consecutive
  · rw [hnil, List.append_nil]; exact hs.chain

theorem applyBlock (hi : TipChain keccak base S t) {b : Batch}
    (hb : Extends keccak base S (t.fin ++ t.st.batches) [b]) :
    TipChain keccak base S { t with st := t.st.applyBlock b } := by
  have hl : (t.st.applyBlock b).layers = (t.st.batches ++ [b]).map newLayer := by
    rw [layers_applyBlock, List.map_append, ← hi.layers]
    rfl
  have hbs := batches_of_layers hl
  refine ⟨hi.refines, hi.coherent, ?_, ?_, by rw [hbs]; exact hl, ?_⟩
  · rw [hbs, ← List.append_assoc]
    exact hb.consecutive hi.numbers
  · rw [hbs, ← List.append_assoc]
    exact ContractChain.append.mpr ⟨hi.contract, hb.contract⟩
  · rcases hi.written with h | ⟨b', hb', h⟩
    · exact Or.inl h
    · refine Or.inr ⟨b', ?_, h⟩
      rw [hbs, List.head?_append, hb']
      rfl

theorem preferenceReset (hi : TipChain keccak base S t) {preferred : List Batch}
    (hb : Extends keccak base S t.fin preferred)
    (hc : t.written = t.fin ∨ ∃ b, preferred.head? = some b ∧ t.written = t.fin ++ [b]) :
    TipChain keccak base S { t with st := t.st.preferenceReset preferred } := by
  have hl := layers_preferenceReset t.st preferred
  have hbs := batches_of_layers hl
  refine ⟨hi.refines, hi.coherent, ?_, ?_, by rw [hbs]; exact hl, by rw [hbs]; exact hc⟩
  · rw [hbs]
    exact hb.consecutive (Consecutive.of_append hi.numbers)
  · rw [hbs]
    exact ContractChain.append.mpr ⟨(ContractChain.append.mp hi.contract).1, hb.contract⟩

theorem commit (hi : TipChain keccak base S t) (hw : t.written = t.fin) {b : Batch}
    (hb : t.st.batches.head? = some b) :
    TipChain keccak base S { t with env := writeBlock t.env b, written := t.fin ++ [b] } := by
  obtain ⟨rest, hrest⟩ := List.head?_eq_some_iff.mp hb
  have hblock : b.block.toNat = S.toNat + t.fin.length + 1 :=
    hi.numbers t.fin.length b (by rw [hrest]; simp)
  have hr := hi.refines
  rw [hw] at hr
  have hr' := hr.writeBlock hblock
  refine ⟨hr', hi.coherent.of_rows (hr'.genesis.trans hr.genesis.symm) ?_, hi.numbers, hi.contract,
    hi.layers, Or.inr ⟨b, hb, rfl⟩⟩
  rw [row_writeBlock_other _ _ (by simp) (by simp) (by simp)]
  exact id

/-- A committed block that is not folded yet is the oldest layer. -/
theorem oldest (hi : TipChain keccak base S t) {b : Batch} (hw : t.written = t.fin ++ [b]) :
    ∃ rest, t.st.layers = newLayer b :: rest.map newLayer ∧ t.st.batches = b :: rest := by
  obtain ⟨rest, hrest⟩ : ∃ rest, t.st.batches = b :: rest := by
    rcases hi.written with h | ⟨b', hb', h⟩
    · rw [hw] at h
      simp at h
    · rw [hw] at h
      obtain rfl : b = b' := by simpa using h
      exact List.head?_eq_some_iff.mp hb'
  exact ⟨rest, by rw [hi.layers, hrest]; rfl, hrest⟩

theorem finalize (hi : TipChain keccak base S t) {b : Batch} (hw : t.written = t.fin ++ [b]) :
    TipChain keccak base S
      { t with st := (t.st.finalize b.block b.hash).2, fin := t.fin ++ [b] } := by
  obtain ⟨rest, hl, hrest⟩ := hi.oldest hw
  obtain ⟨-, -, hrl⟩ := finalize_oldest hl
  have hbs := batches_of_layers hrl
  have happ : (t.fin ++ [b]) ++ rest = t.fin ++ t.st.batches := by rw [hrest]; simp
  refine ⟨hi.refines, hi.coherent, ?_, ?_, by rw [hbs]; exact hrl, Or.inl hw⟩
  · rw [hbs, happ]; exact hi.numbers
  · rw [hbs, happ]; exact hi.contract

end TipChain

theorem TipRun.chain {t : Tip} (ht : TipRun keccak base S t) : TipChain keccak base S t := by
  induction ht with
  | init hw f => exact TipChain.init hw f
  | read ht hs ih => exact ih.of_st _ hs.layers
  | sees ht hh ih =>
    rcases hh with rfl | rfl
    · exact { ih with coherent := ih.coherent.genesis_snd ih.refines.genesis }
    · exact { ih with coherent := ih.coherent.complete_snd }
  | applyBlock ht hq hb ih => exact ih.applyBlock hb
  | preferenceReset ht hq hb hc ih => exact ih.preferenceReset hb hc
  | commit ht hw hb ih => exact ih.commit hw hb
  | finalize ht hq hw ih => exact ih.finalize hw
  | setFinalized ht h ih =>
    have hr := ih.refines.put_other (r := .finalized) rfl (beBytes h)
    exact { ih with
      refines := hr
      coherent := ih.coherent.of_rows (hr.genesis.trans ih.refines.genesis.symm)
        (row_put_ne_none .finalized _) }

/-- Every pin of every run is the value at the finalized height or at the store's. -/
theorem TipRun.pins {t : Tip} (ht : TipRun keccak base S t) :
    PinsLag (t.written.map Batch.diff) (base.state keccak) t.fin.length t.st := by
  induction ht with
  | init hw f => exact PinsLag.new _ _ _ f
  | read ht hs ih =>
    have hc := ht.chain
    exact hs.pins ih (by simpa using hc.fin_le_written) (fun k _ => hc.answers k)
  | sees ht hh ih => exact ih
  | applyBlock ht hq hb ih => exact ih.applyBlock _
  | preferenceReset ht hq hb hc ih => exact ih.preferenceReset _
  | commit ht hw hb ih =>
    rw [hw] at ih
    rw [List.map_append]
    exact ih.append _
  | finalize ht hq hw ih =>
    obtain ⟨rest, hl, -⟩ := ht.chain.oldest hw
    obtain ⟨-, hfold, -⟩ := finalize_oldest hl
    rw [List.length_append, List.length_singleton]
    refine ih.fold ?_ hfold
    rw [hw]
    simp
  | setFinalized ht h ih => exact ih

/-! ## Reads -/

/-- A value seen through the layers is the fold of the layers: the one block the store
may be ahead by is a layer, and the layers leave the key alone. -/
theorem TipChain.exact {t : Tip} (hi : TipChain keccak base S t) {k : Key} {v : Val k}
    (hv : Sees (t.written.map Batch.diff) (base.state keccak) t.fin.length t.st.batches k v) :
    v = foldBatches t.st.batches (foldBatches t.fin (base.state keccak)) k := by
  obtain ⟨j, hj1, hj2, rfl⟩ := hv
  rw [foldBatches_eq t.st.batches, Diff.applyAll_eq_stack, Diff.apply]
  cases hst : Diff.stack (t.st.batches.map Batch.diff) k with
  | some w => rfl
  | none =>
    have hun := (Diff.stack_eq_none_iff _ k).mp hst
    have hfin : foldBatches t.fin (base.state keccak) =
        Diff.height (t.written.map Batch.diff) (base.state keccak) t.fin.length := by
      rw [height_eq_foldBatches]
      rcases hi.written with h | ⟨b, -, h⟩ <;> rw [h] <;> simp
    rw [Option.getD_none, Option.getD_none, hfin]
    refine Diff.height_eq_of_untouched hj1 (fun n d hn1 hn2 hd => ?_)
    -- a block of the store at or above the finalized height is the oldest layer
    rcases hi.written with h | ⟨b, hb, h⟩
    · rw [h, List.length_map] at hj2
      omega
    · rw [h, List.map_append, List.length_append, List.length_map] at hj2
      have hn : n = (t.fin.map Batch.diff).length := by
        simp only [List.length_map, List.length_singleton, List.map_singleton] at hj2 ⊢
        omega
      rw [h, List.map_append, List.map_singleton, hn, List.getElem?_concat_length] at hd
      obtain ⟨rest, hrest⟩ := List.head?_eq_some_iff.mp hb
      exact hun d (by rw [hrest, ← Option.some.inj hd]; simp)

theorem TipRun.peek_exact (hno : NoOrphans (base.state keccak)) {t : Tip}
    (ht : TipRun keccak base S t) {i : Nat} {k : Key} {v : Val k}
    (hr : t.st.peek keccak t.handle t.env i k = .ok v) :
    v = foldBatches t.st.batches (foldBatches t.fin (base.state keccak)) k := by
  have hi := ht.chain
  exact hi.exact (peek_sees ht.pins hi.layers (by simpa using hi.fin_le_written)
    (fun j _ => noOrphans_height hno hi.written_chain j) (fun _ => hi.answers k) hr)

theorem TipRun.account_exact (hno : NoOrphans (base.state keccak)) {t : Tip}
    (ht : TipRun keccak base S t) {i : Nat} {a : Address} {v : Option Account}
    (hr : (t.st.account keccak t.handle t.env i a).1 = .ok v) :
    v = foldBatches t.st.batches (foldBatches t.fin (base.state keccak)) (.account a) :=
  ht.peek_exact hno ((account_fst t.st i a).symm.trans hr)

theorem TipRun.slot_exact (hno : NoOrphans (base.state keccak)) {t : Tip}
    (ht : TipRun keccak base S t) {i : Nat} {a : Address} {s : Hash} {env' : Env} {v : Hash}
    (hr : (t.st.slot keccak t.handle t.env env' i a s).1 = .ok v) :
    v = foldBatches t.st.batches (foldBatches t.fin (base.state keccak)) (.slot a s) := by
  rcases slot_fst env' t.st i a s with h | ⟨e, -, h⟩
  · exact ht.peek_exact hno (h.symm.trans hr)
  · rw [hr] at h
    cases h

/-- In every state of every run of the writer process, a read of any executor that does
not fail returns the fold of the layers over the state at the finalized height.  A slot
read may straddle any number of commits: `env'` is what its second store read sees. -/
theorem tip_reads_exact (hno : NoOrphans (base.state keccak)) {t : Tip}
    (ht : TipRun keccak base S t) (i : Nat) (a : Address) :
    (∀ v, (t.st.account keccak t.handle t.env i a).1 = .ok v →
      v = foldBatches t.st.batches (foldBatches t.fin (base.state keccak)) (.account a)) ∧
    (∀ s env' v, (t.st.slot keccak t.handle t.env env' i a s).1 = .ok v →
      v = foldBatches t.st.batches (foldBatches t.fin (base.state keccak)) (.slot a s)) :=
  ⟨fun _ hr => ht.account_exact hno hr, fun _ _ _ hr => ht.slot_exact hno hr⟩

/-! ### A read between commit and fold -/

namespace Sample

open Store.Sample

def block7 : Batch where
  block := 7
  hash := FixedBytes.ofNat 32 7
  parent := FixedBytes.ofNat 32 6
  time := 7000
  ops := [.slot addr slot1 (FixedBytes.ofNat 32 11)]

theorem block7_contract : Contract (foldBatches [block6] (trie.state digest)) block7 where
  destructFirst := by decide
  recreated a ha _ := by simp [block7] at ha
  slotsExist a hs := by
    obtain ⟨o, ho, hso⟩ := hs
    obtain rfl : o = .slot addr slot1 (FixedBytes.ofNat 32 11) := by simpa [block7] using ho
    obtain rfl : addr = a := by simpa [Op.isSlotOf] using hso
    have hval : block7.apply (foldBatches [block6] (trie.state digest)) (.account addr) =
        (some (acct 20) : Option Account) := rfl
    rw [hval]
    simp

theorem noOrphans : NoOrphans (trie.state digest) := by
  intro a s hnone
  have ha : digest a.1 ≠ digest addr.1 := by
    intro ha
    simp [Trie.state, trie, ha] at hnone
  simp [Trie.state, trie, ha]

/-- Block 7 is committed and still a layer. -/
def tip : Tip where
  env := writeBlock site.env block7
  handle := site.writer
  st := ((State.new none).register SideBuffer.new).applyBlock block7
  inflight := []
  fin := [block6]
  written := [block6] ++ [block7]

theorem tip_run : TipRun digest trie 5 tip := by
  have h0 : TipRun digest trie 5 ⟨site.env, site.writer, State.new none, [], [block6], [block6]⟩ :=
    .init site_built none
  have h1 := h0.read .register
  have hext : Extends digest trie 5 [block6] [block7] := by
    refine ⟨fun n b hn => ?_, ⟨block7_contract, trivial⟩⟩
    cases n with
    | zero => obtain rfl : block7 = b := by simpa using hn
              rfl
    | succ n => simp at hn
  have h2 := h1.applyBlock rfl hext
  exact h2.commit rfl rfl

end Sample

/-- The theorem at work: the store is one block ahead, the layer answers for the slot it
writes and the store for the other one. -/
theorem tip_reads_exact_sample :
    foldBatches Sample.tip.st.batches
        (foldBatches Sample.tip.fin (Store.Sample.trie.state Store.Sample.digest))
        (.slot Store.Sample.addr Store.Sample.slot1) = FixedBytes.ofNat 32 11 ∧
      foldBatches Sample.tip.st.batches
        (foldBatches Sample.tip.fin (Store.Sample.trie.state Store.Sample.digest))
        (.account Store.Sample.addr) = (some (Store.Sample.acct 20) : Option Account) := by
  have h := tip_reads_exact Sample.noOrphans Sample.tip_run 0 Store.Sample.addr
  have hread : (Sample.tip.st.account Store.Sample.digest Sample.tip.handle Sample.tip.env 0
      Store.Sample.addr).1 = .ok (some (Store.Sample.acct 20)) := by decide +kernel
  refine ⟨?_, ?_⟩
  · exact (h.2 Store.Sample.slot1 Sample.tip.env _ rfl).symm
  · exact (h.1 _ hread).symm

end Flatstate.Mem
