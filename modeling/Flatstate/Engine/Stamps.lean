import Flatstate.Mem.TipReads
import Flatstate.Node.Tracker

set_option autoImplicit false

/-!
# Engine: the staleness stamp of a batch (`engine/engine.go` over `mem/mem.go`)

`Engine.Execute` stamps a batch of calls with the tip hash of its read phase and returns
the results if the tip hash is the same afterwards.  `ApplyBlock`, `Finalize` and
`PreferenceReset` move the stamp separately.  A reset to the empty stack moves nothing,
so a run in which it drops layers is left out here; in every other run the stamp is that
of the newest block, and equal stamps mean that the same blocks are visible.
-/

namespace Flatstate.Engine

open Foundation Schema Capture Store
open Mem (Tip TipRun ReadStep Extends SideBuffer newLayer)
open Node (Linked linked_of_concat linked_block)

/-! ## The engine -/

/-- One turn of the loop of `Engine.Execute`: a state of its read phase, and the state in
which `TipHash` is asked afterwards. -/
structure Attempt where
  phase : Tip
  check : Tip

/-- `Engine.Execute`: the attempt whose results are returned, if one is. -/
def execute (attempts : List Attempt) : Option Attempt :=
  attempts.find? (fun a => a.check.st.tip = a.phase.st.tip)

/-! ## Runs -/

/-- The stamp is that of the block `b`. -/
structure Stamps (st : Mem.State) (b : Batch) : Prop where
  tip : st.tip = b.hash
  tipBlock : st.tipBlock = b.block
  tipTime : st.tipTime = b.time / 1000

/-- The finalized blocks and the layers. -/
def chain (t : Tip) : List Batch := t.fin ++ t.st.batches

/-- The runs of the writer process from a store with the blocks `bs`, the last of them
with the hash `root`: new blocks are of the kind `Tag` and linked by their parents, and no
empty reset drops layers. -/
inductive StampRun (keccak : Bytes → Hash) (base : Trie) (S : UInt64) (Tag : Batch → Prop)
    (root : Hash) (bs : List Batch) : Tip → Prop where
  | init {w : Site} (hw : Built keccak base S w bs) (f : Option UInt64) :
      StampRun keccak base S Tag root bs ⟨w.env, w.writer, Mem.State.new f, [], bs, bs⟩
  | read {t : Tip} (ht : StampRun keccak base S Tag root bs t) {st : Mem.State}
      {q : List (Nat × Address)}
      (hs : ReadStep keccak t.handle t.env (fun _ => True) t.st t.inflight st q) :
      StampRun keccak base S Tag root bs { t with st := st, inflight := q }
  | sees {t : Tip} (ht : StampRun keccak base S Tag root bs t) {h : Handle}
      (hh : h = (genesis t.handle t.env).2 ∨ h = (baselineComplete t.handle t.env).2) :
      StampRun keccak base S Tag root bs { t with handle := h }
  | applyBlock {t : Tip} (ht : StampRun keccak base S Tag root bs t) (hq : t.inflight = [])
      {b : Batch} (hb : Extends keccak base S (t.fin ++ t.st.batches) [b]) (hT : Tag b)
      (hl : Linked root (S.toNat + bs.length) ((chain t ++ [b]).drop bs.length)) :
      StampRun keccak base S Tag root bs { t with st := t.st.applyBlock b }
  | preferenceReset {t : Tip} (ht : StampRun keccak base S Tag root bs t) (hq : t.inflight = [])
      {preferred : List Batch} (hb : Extends keccak base S t.fin preferred)
      (hc : t.written = t.fin ∨ ∃ b, preferred.head? = some b ∧ t.written = t.fin ++ [b])
      (hT : ∀ b ∈ preferred, Tag b)
      (hl : Linked root (S.toNat + bs.length) ((t.fin ++ preferred).drop bs.length))
      (hne : preferred = [] → t.st.layers = []) :
      StampRun keccak base S Tag root bs { t with st := t.st.preferenceReset preferred }
  | commit {t : Tip} (ht : StampRun keccak base S Tag root bs t) (hw : t.written = t.fin)
      {b : Batch} (hb : t.st.batches.head? = some b) :
      StampRun keccak base S Tag root bs
        { t with env := writeBlock t.env b, written := t.fin ++ [b] }
  | finalize {t : Tip} (ht : StampRun keccak base S Tag root bs t) (hq : t.inflight = [])
      {b : Batch} (hw : t.written = t.fin ++ [b]) :
      StampRun keccak base S Tag root bs
        { t with st := (t.st.finalize b.block b.hash).2, fin := t.fin ++ [b] }
  | setFinalized {t : Tip} (ht : StampRun keccak base S Tag root bs t) (h : UInt64) :
      StampRun keccak base S Tag root bs { t with env := setFinalized t.env h }

section Runs

variable {keccak : Bytes → Hash} {base : Trie} {S : UInt64} {Tag : Batch → Prop} {root : Hash}
  {bs : List Batch} {t t' : Tip}

theorem StampRun.tipRun (h : StampRun keccak base S Tag root bs t) : TipRun keccak base S t := by
  induction h with
  | init hw f => exact .init hw f
  | read _ hs ih => exact .read ih hs
  | sees _ hh ih => exact .sees ih hh
  | applyBlock _ hq hb _ _ ih => exact .applyBlock ih hq hb
  | preferenceReset _ hq hb hc _ _ _ ih => exact .preferenceReset ih hq hb hc
  | commit _ hw hb ih => exact .commit ih hw hb
  | finalize _ hq hw ih => exact .finalize ih hq hw
  | setFinalized _ h ih => exact .setFinalized ih h

theorem stamps_preferenceReset (st : Mem.State) {preferred : List Batch} {b : Batch}
    (h : preferred.getLast? = some b) : Stamps (st.preferenceReset preferred) b := by
  obtain ⟨pre, rfl⟩ := List.getLast?_eq_some_iff.mp h
  rw [Mem.State.preferenceReset, List.foldl_append]
  exact ⟨rfl, rfl, rfl⟩

/-! ## The invariant -/

/-- The blocks above the start are tagged and linked, and the stamp is that of the last
of them once there was one. -/
structure StampInv (S : UInt64) (Tag : Batch → Prop) (root : Hash) (bs : List Batch) (t : Tip) :
    Prop where
  fin : bs <+: t.fin
  linked : Linked root (S.toNat + bs.length) ((chain t).drop bs.length)
  tags : ∀ b ∈ (chain t).drop bs.length, Tag b
  start : t.st.tipBlock = 0 → chain t = bs
  stamp : t.st.tipBlock ≠ 0 → ∃ b, ((chain t).drop bs.length).getLast? = some b ∧ Stamps t.st b

/-- Steps that change neither the blocks nor the stamp. -/
theorem StampInv.congr (h : StampInv S Tag root bs t) (hfin : t'.fin = t.fin)
    (hl : t'.st.layers = t.st.layers) (ht : t'.st.tip = t.st.tip)
    (hb : t'.st.tipBlock = t.st.tipBlock) (hm : t'.st.tipTime = t.st.tipTime) :
    StampInv S Tag root bs t' := by
  have hc : chain t' = chain t := by
    rw [chain, chain, hfin, Mem.State.batches, Mem.State.batches, hl]
  refine ⟨by rw [hfin]; exact h.fin, by rw [hc]; exact h.linked, by rw [hc]; exact h.tags, ?_, ?_⟩
  · rw [hb, hc]
    exact h.start
  · rw [hb, hc]
    intro hne
    obtain ⟨b, hlast, hs⟩ := h.stamp hne
    exact ⟨b, hlast, ht.trans hs.tip, hb.trans hs.tipBlock, hm.trans hs.tipTime⟩

/-- A block number is not zero. -/
theorem block_ne_zero {next : List Batch} {cs : List Batch} (h : Extends keccak base S cs next)
    {b : Batch} (hb : b ∈ next) : b.block ≠ 0 := by
  obtain ⟨n, hn⟩ := List.mem_iff_getElem?.mp hb
  have hnum := h.numbers n b hn
  intro h0
  rw [h0] at hnum
  have : (0 : UInt64).toNat = 0 := rfl
  omega

theorem drop_concat {fin : List Batch} (hp : bs <+: fin) (next : List Batch) :
    (fin ++ next).drop bs.length = fin.drop bs.length ++ next := by
  obtain ⟨ext, rfl⟩ := hp
  simp

theorem StampInv.applyBlock (h : StampInv S Tag root bs t)
    (hlay : t.st.layers = t.st.batches.map newLayer) {b : Batch}
    (hb : Extends keccak base S (t.fin ++ t.st.batches) [b]) (hT : Tag b)
    (hl : Linked root (S.toNat + bs.length) ((chain t ++ [b]).drop bs.length)) :
    StampInv S Tag root bs { t with st := t.st.applyBlock b } := by
  have hbatches : (t.st.applyBlock b).batches = t.st.batches ++ [b] := by
    refine Mem.batches_of_layers ?_
    rw [Mem.layers_applyBlock, List.map_append, ← hlay]
    rfl
  have hc : chain { t with st := t.st.applyBlock b } = chain t ++ [b] := by
    rw [chain, hbatches, chain, List.append_assoc]
  have hpre : bs <+: chain t := h.fin.trans (List.prefix_append _ _)
  refine ⟨h.fin, by rw [hc]; exact hl, ?_, fun h0 => ?_, fun _ => ⟨b, ?_, rfl, rfl, rfl⟩⟩
  · rw [hc, drop_concat hpre]
    intro b' hb'
    rcases List.mem_append.mp hb' with hm | hm
    · exact h.tags b' hm
    · rw [List.mem_singleton.mp hm]
      exact hT
  · exact absurd h0 (block_ne_zero hb (List.mem_singleton_self b))
  · rw [hc, drop_concat hpre, List.getLast?_concat]

theorem StampInv.preferenceReset (h : StampInv S Tag root bs t) {preferred : List Batch}
    (hb : Extends keccak base S t.fin preferred) (hT : ∀ b ∈ preferred, Tag b)
    (hl : Linked root (S.toNat + bs.length) ((t.fin ++ preferred).drop bs.length))
    (hne : preferred = [] → t.st.layers = []) :
    StampInv S Tag root bs { t with st := t.st.preferenceReset preferred } := by
  have hbatches := Mem.batches_of_layers (Mem.layers_preferenceReset t.st preferred)
  have hc : chain { t with st := t.st.preferenceReset preferred } = t.fin ++ preferred := by
    rw [chain, hbatches]
  have htags : ∀ b ∈ (t.fin ++ preferred).drop bs.length, Tag b := by
    rw [drop_concat h.fin]
    intro b hm
    rcases List.mem_append.mp hm with hm | hm
    · refine h.tags b ?_
      rw [chain, drop_concat h.fin]
      exact List.mem_append_left _ hm
    · exact hT b hm
  cases hlast : preferred.getLast? with
  | none =>
    -- no layers before, none afterwards
    obtain rfl := List.getLast?_eq_none_iff.mp hlast
    exact h.congr rfl (by rw [Mem.layers_preferenceReset, hne rfl]; rfl) rfl rfl rfl
  | some b =>
    have hs := stamps_preferenceReset t.st hlast
    have hmem := List.mem_of_getLast? hlast
    refine ⟨h.fin, by rw [hc]; exact hl, by rw [hc]; exact htags, fun h0 => ?_, fun _ => ⟨b, ?_, hs⟩⟩
    · exact absurd (hs.tipBlock.symm.trans h0) (block_ne_zero hb hmem)
    · rw [hc, drop_concat h.fin, List.getLast?_append, hlast]
      rfl

theorem StampInv.finalize (h : StampInv S Tag root bs t) {b : Batch} {rest : List Batch}
    (hlay : t.st.layers = newLayer b :: rest.map newLayer) (hbatches : t.st.batches = b :: rest) :
    StampInv S Tag root bs
      { t with st := (t.st.finalize b.block b.hash).2, fin := t.fin ++ [b] } := by
  obtain ⟨-, hfold, hrest⟩ := Mem.finalize_oldest hlay
  have hc : chain { t with st := (t.st.finalize b.block b.hash).2, fin := t.fin ++ [b] } =
      chain t := by
    rw [chain, chain, Mem.batches_of_layers hrest, hbatches]
    simp
  refine ⟨h.fin.trans (List.prefix_append _ _), by rw [hc]; exact h.linked, by rw [hc]; exact h.tags,
    ?_, ?_⟩
  · rw [hc]
    dsimp only
    rw [hfold.tipBlock]
    exact h.start
  · rw [hc]
    dsimp only
    rw [hfold.tipBlock]
    intro hne
    obtain ⟨b', hlast, hs⟩ := h.stamp hne
    refine ⟨b', hlast, ?_, hfold.tipBlock.trans hs.tipBlock, hfold.tipTime.trans hs.tipTime⟩
    rw [hfold.tip, hrest]
    cases rest with
    | cons b1 rest => exact hs.tip
    | nil =>
      -- the block folded was the newest one
      rw [chain, drop_concat h.fin, hbatches, List.getLast?_concat] at hlast
      rw [Option.some.inj hlast]
      rfl

theorem StampRun.inv (h : StampRun keccak base S Tag root bs t) : StampInv S Tag root bs t := by
  induction h with
  | init hw f =>
    have hc : ∀ env h st q w, st = Mem.State.new f → chain ⟨env, h, st, q, bs, w⟩ = bs := by
      rintro env h st q w rfl
      exact List.append_nil bs
    refine ⟨List.prefix_rfl, ?_, ?_, fun _ => hc _ _ _ _ _ rfl, fun hne => absurd rfl hne⟩
    · rw [hc _ _ _ _ _ rfl, List.drop_length]
      trivial
    · rw [hc _ _ _ _ _ rfl, List.drop_length]
      simp
  | read _ hs ih =>
    obtain ⟨bufs, rfl⟩ := hs.buffers
    exact ih.congr rfl rfl rfl rfl rfl
  | sees _ _ ih | commit _ _ _ ih | setFinalized _ _ ih => exact ih.congr rfl rfl rfl rfl rfl
  | applyBlock ht hq hb hT hl ih => exact ih.applyBlock ht.tipRun.chain.layers hb hT hl
  | preferenceReset _ hq hb hc hT hl hne ih => exact ih.preferenceReset hb hT hl hne
  | finalize ht hq hw ih =>
    obtain ⟨rest, hlay, hbatches⟩ := ht.tipRun.chain.oldest hw
    exact ih.finalize hlay hbatches

/-! ## Equal stamps -/

/-- A linked chain is determined by its last block. -/
theorem linked_unique (hone : ∀ b b', Tag b → Tag b' → b.hash = b'.hash → b = b') {n : Nat}
    {cs cs' : List Batch} (hl : Linked root n cs) (hl' : Linked root n cs')
    (hT : ∀ b ∈ cs, Tag b) (hT' : ∀ b ∈ cs', Tag b) (hlen : cs.length = cs'.length)
    (hlast : cs.getLast?.map Batch.hash = cs'.getLast?.map Batch.hash) : cs = cs' := by
  induction cs using List.reverseRecOn generalizing cs' with
  | nil => exact (List.length_eq_zero_iff.mp hlen.symm).symm
  | append_singleton cs b ih =>
    cases cs' using List.reverseRecOn with
    | nil => simp at hlen
    | append_singleton cs' b' =>
      obtain ⟨hcs, hpar, -⟩ := linked_of_concat hl
      obtain ⟨hcs', hpar', -⟩ := linked_of_concat hl'
      have hhash : b.hash = b'.hash := by simpa using hlast
      obtain rfl : b = b' := hone b b' (hT b (by simp)) (hT' b' (by simp)) hhash
      have hlen' : cs.length = cs'.length := by simpa using hlen
      have heq : cs = cs' := by
        refine ih hcs hcs' (fun b hb => hT b (List.mem_append_left _ hb))
          (fun b hb => hT' b (List.mem_append_left _ hb)) hlen' ?_
        -- the parents agree, and no chain of this length ends at the root without a block
        rw [hpar] at hpar'
        cases h1 : cs.getLast? with
        | none =>
          rw [List.getLast?_eq_none_iff] at h1
          rw [h1, List.length_nil] at hlen'
          rw [List.length_eq_zero_iff.mp hlen'.symm]
          rfl
        | some x =>
          cases h2 : cs'.getLast? with
          | none =>
            rw [List.getLast?_eq_none_iff] at h2
            rw [h2, List.length_nil, List.length_eq_zero_iff] at hlen'
            rw [hlen'] at h1
            cases h1
          | some y =>
            rw [h1, h2] at hpar'
            exact congrArg some hpar'
      rw [heq]

/-- States of equal stamp have the same blocks. -/
theorem StampInv.chain_eq (h : StampInv S Tag root bs t) (h' : StampInv S Tag root bs t')
    (hone : ∀ b b', Tag b → Tag b' → b.hash = b'.hash → b = b') (hne : t.st.tipBlock ≠ 0)
    (hne' : t'.st.tipBlock ≠ 0) (htip : t.st.tip = t'.st.tip) : chain t = chain t' := by
  obtain ⟨b, hb, hs⟩ := h.stamp hne
  obtain ⟨b', hb', hs'⟩ := h'.stamp hne'
  have hhash : b.hash = b'.hash := by rw [← hs.tip, ← hs'.tip, htip]
  obtain rfl := hone b b' (h.tags b (List.mem_of_getLast? hb)) (h'.tags b' (List.mem_of_getLast? hb'))
    hhash
  have hnum : ∀ cs : List Batch, Linked root (S.toNat + bs.length) cs → cs.getLast? = some b →
      b.block.toNat = S.toNat + bs.length + cs.length := by
    intro cs hl hlast
    obtain ⟨pre, rfl⟩ := List.getLast?_eq_some_iff.mp hlast
    obtain ⟨-, -, hnum⟩ := linked_of_concat hl
    rw [hnum, List.length_append]
    rfl
  have h1 := hnum _ h.linked hb
  have h2 := hnum _ h'.linked hb'
  have heq := linked_unique hone h.linked h'.linked h.tags h'.tags (by omega) (by rw [hb, hb'])
  have hsplit : ∀ t : Tip, bs <+: t.fin → chain t = bs ++ (chain t).drop bs.length := by
    rintro t ⟨ext, hext⟩
    rw [chain, ← hext]
    simp
  rw [hsplit t h.fin, hsplit t' h'.fin, heq]

/-- Every pair of reads of one account or slot, by any executors in the two states, that
both succeed returns the same value. -/
structure SameReads (keccak : Bytes → Hash) (t t' : Tip) : Prop where
  account : ∀ i i' a v v', (t.st.account keccak t.handle t.env i a).1 = .ok v →
    (t'.st.account keccak t'.handle t'.env i' a).1 = .ok v' → v = v'
  slot : ∀ i i' a s env env' v v', (t.st.slot keccak t.handle t.env env i a s).1 = .ok v →
    (t'.st.slot keccak t'.handle t'.env env' i' a s).1 = .ok v' → v = v'

end Runs

namespace Sample

open Store.Sample Mem.Sample

/-- Block 7 is the one layer over block 6. -/
def layered : Tip where
  env := site.env
  handle := site.writer
  st := ((Mem.State.new none).register SideBuffer.new).applyBlock block7
  inflight := []
  fin := [block6]
  written := [block6]

theorem block7_extends : Extends digest trie 5 [block6] [block7] := by
  refine ⟨fun n b hn => ?_, ⟨block7_contract, trivial⟩⟩
  cases n with
  | zero =>
    obtain rfl : block7 = b := by simpa using hn
    rfl
  | succ n => simp at hn

/-- And block 7 is committed. -/
def committed : Tip :=
  { layered with env := writeBlock layered.env block7, written := layered.fin ++ [block7] }

/-- And folded into the base. -/
def folded : Tip :=
  { committed with
    st := (committed.st.finalize block7.block block7.hash).2
    fin := committed.fin ++ [block7] }

/-- Instead, the stack is reset to the finalized block. -/
def emptied : Tip := { layered with st := layered.st.preferenceReset [] }

end Sample

end Flatstate.Engine
