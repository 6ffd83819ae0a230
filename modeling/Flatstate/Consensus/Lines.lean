import Flatstate.Consensus.Backfill

set_option autoImplicit false

/-!
# Consensus: the batches on the way to a hash

The executor's view of a block is made of the layers that happen to be pending under the
hashes from its parent down, over a store that moves with every acceptance.  `Line` is
the relation between a hash and the batches on the way to it, each executed on those
before it.  It is a function of the hash as long as no two delivered blocks with one hash
differ; then the layers a walk meets are those of one chain.
-/

namespace Flatstate.Consensus

open Foundation Schema Capture Store Exec Node

variable {T P V N ρ : Type} {S : Setup T P V N ρ} {U : Container → Prop}

/-! ## What an execution is run on -/

/-- Batches from the hash `a` to the hash `h`, each on the one before. -/
def Joins : Hash → List Batch → Hash → Prop
  | a, [], h => a = h
  | a, b :: bs, h => b.parent = a ∧ Joins b.hash bs h

theorem joins_concat {a m : Hash} {bs : List Batch} (h : Joins a bs m) {b : Batch}
    (hb : b.parent = m) : Joins a (bs ++ [b]) b.hash := by
  induction bs generalizing a with
  | nil => exact ⟨hb.trans h.symm, rfl⟩
  | cons b' bs ih => exact ⟨h.1, ih h.2⟩

/-- An execution on the state of its parent: the walk ends at the last accepted hash, the
layers are those of the blocks from there to the parent, and the view reads the accepted
chain and these blocks folded over the state `σ` at the start. -/
def OnParent (σ : State) (x : ExecCall) : Prop :=
  x.ended = true ∧ x.walk.2 = x.last ∧
    ∃ pend, x.line = x.accepted ++ pend ∧ Joins x.last pend x.parent ∧
      x.walk.1 = (pend.map newLayer).reverse ∧ ∀ k, x.reads k = .ok (foldBatches x.line σ k)

/-- No two delivered blocks with one hash differ. -/
def BlocksByHash (U : Container → Prop) : Prop :=
  ∀ c c', U c → U c' → c.eth.hash = c'.eth.hash → c.eth = c'.eth

theorem BlocksByHash.headers (h : BlocksByHash U) : HeadersByHash U := by
  intro c c' hc hc' heq
  rw [h c c' hc hc' heq]
  exact ⟨rfl, rfl⟩

/-! ## The store -/

/-- The store holds the batches `bs` over its baseline, and the handle is right about it. -/
structure Holding (keccak : Bytes → Hash) (base : Trie) (genesis : UInt64) (bs : List Batch)
    (handle : Handle) (env : Env) : Prop where
  refines : Refines keccak base genesis bs env
  coherent : Coherent handle env
  complete : row env .baselineComplete ≠ none
  contract : ContractChain (base.state keccak) bs

section Holding

variable {keccak : Bytes → Hash} {base : Trie} {genesis : UInt64} {bs : List Batch} {handle : Handle}
  {env : Env}

theorem Holding.reads (h : Holding keccak base genesis bs handle env) (k : Key) :
    readKey keccak handle env ⟨[]⟩ k = .ok (foldBatches bs (base.state keccak) k) :=
  readKey_nil h.refines h.coherent h.contract h.complete k

/-- A block is written and put under the watermark. -/
theorem Holding.accept (h : Holding keccak base genesis bs handle env) {b : Batch}
    (hb : b.block.toNat = genesis.toNat + bs.length + 1)
    (hc : Contract (foldBatches bs (base.state keccak)) b) (block : UInt64) :
    Holding keccak base genesis (bs ++ [b]) handle (setFinalized (writeBlock env b) block) := by
  have hr := (h.refines.writeBlock hb).put_other (r := .finalized) rfl (beBytes block)
  have hset : row (setFinalized (writeBlock env b) block) .baselineComplete ≠ none := by
    rw [row_setFinalized _ _ (by simp), row_writeBlock_other _ _ (by simp) (by simp) (by simp)]
    exact h.complete
  exact ⟨hr, h.coherent.of_rows (hr.genesis.trans h.refines.genesis.symm) (fun _ => hset), hset,
    ContractChain.append.mpr ⟨h.contract, hc, trivial⟩⟩

end Holding

/-! ## One line to a hash -/

/-- Where the engine starts: the baseline of its store and the blocks written on it. -/
structure Origin where
  base : Trie
  genesis : UInt64
  stored : List Batch

/-- The state at the start. -/
def Origin.state (o : Origin) (keccak : Bytes → Hash) : State :=
  foldBatches o.stored (o.base.state keccak)

/-- The number of the block that has so many above the start below it, itself included. -/
def Origin.above (o : Origin) (n : Nat) : Nat := o.genesis.toNat + o.stored.length + n

/-- The batches of the blocks from the start to a hash.  Up to `root` they are `before`;
from there each is the execution of a delivered block on the state its parent leaves. -/
inductive Line (S : Setup T P V N ρ) (U : Container → Prop) (o : Origin) (root : Hash)
    (before : List Batch) : List Batch → Hash → Prop where
  | root : Line S U o root before before root
  | step {bs : List Batch} {h : Hash} {c : Container} {ops : List Op}
      (hline : Line S U o root before bs h) (hc : U c) (hpar : c.eth.parentHash = h)
      (hnum : c.eth.number.toNat = o.above (bs.length + 1))
      (hops : S.evm.ops (fun k => .ok (foldBatches bs (o.state S.keccak) k)) c.eth = .ok ops) :
      Line S U o root before (bs ++ [c.eth.batch h ops]) c.eth.hash

/-- The root is a delivered block, right above `before`. -/
def RootAt (U : Container → Prop) (o : Origin) (root : Hash) (before : List Batch) : Prop :=
  ∃ c, U c ∧ c.eth.hash = root ∧ c.eth.number.toNat = o.above before.length

/-- The transition captures ops as the batch contract wants them. -/
def Captures (evm : Evm ρ) : Prop :=
  ∀ (σ : State) (blk : EthBlock) (ops : List Op), evm.ops (fun k => .ok (σ k)) blk = .ok ops →
    ∀ parent, Contract σ (blk.batch parent ops)

section Line

variable {o : Origin} {root : Hash} {before : List Batch} {bs : List Batch} {h : Hash}

theorem Line.length_le (hl : Line S U o root before bs h) : before.length ≤ bs.length := by
  induction hl with
  | root => exact Nat.le_refl _
  | step _ _ _ _ _ ih =>
    rw [List.length_append]
    omega

theorem Line.inv (hl : Line S U o root before bs h) :
    (bs = before ∧ h = root) ∨
      ∃ bs' c ops, Line S U o root before bs' c.eth.parentHash ∧ U c ∧
        c.eth.number.toNat = o.above (bs'.length + 1) ∧
        S.evm.ops (fun k => .ok (foldBatches bs' (o.state S.keccak) k)) c.eth = .ok ops ∧
        bs = bs' ++ [c.eth.batch c.eth.parentHash ops] ∧ h = c.eth.hash := by
  cases hl with
  | root => exact Or.inl ⟨rfl, rfl⟩
  | step hline hc hpar hnum hops =>
    subst hpar
    exact Or.inr ⟨_, _, _, hline, hc, hnum, hops, rfl, rfl⟩

theorem Line.number (hU : HeadersByHash U) (hroot : RootAt U o root before)
    (hl : Line S U o root before bs h) : numberOf U h = o.above bs.length := by
  cases hl with
  | root =>
    obtain ⟨c, hc, rfl, hn⟩ := hroot
    rw [numberOf_eq hU hc, hn]
  | step hline hc hpar hnum hops =>
    rw [numberOf_eq hU hc, hnum, List.length_append, List.length_singleton]

/-- A hash other than the root's is not the hash of a step. -/
theorem RootAt.ne_step (hroot : RootAt U o root before) (hU : BlocksByHash U)
    (hl : Line S U o root before bs h) {c : Container} (hc : U c)
    (hnum : c.eth.number.toNat = o.above (bs.length + 1)) : c.eth.hash ≠ root := by
  rintro heq
  obtain ⟨rc, hrc, hrh, hrn⟩ := hroot
  have hn := (hU.headers c rc hc hrc (heq.trans hrh.symm)).2
  have hle := hl.length_le
  rw [hn, hrn, Origin.above, Origin.above] at hnum
  omega

/-- There is one line to a hash. -/
theorem Line.unique (hU : BlocksByHash U) (hroot : RootAt U o root before)
    (hl : Line S U o root before bs h) {bs' : List Batch} (hl' : Line S U o root before bs' h) :
    bs = bs' := by
  induction hl generalizing bs' with
  | root =>
    rcases hl'.inv with ⟨rfl, -⟩ | ⟨bs2, c2, ops2, hline2, hc2, hnum2, -, -, hx⟩
    · rfl
    · exact absurd hx.symm (hroot.ne_step hU hline2 hc2 hnum2)
  | @step bs h c ops hline hc hpar hnum hops ih =>
    rcases hl'.inv with ⟨-, hx⟩ | ⟨bs2, c2, ops2, hline2, hc2, hnum2, hops2, rfl, hx⟩
    · exact absurd hx (hroot.ne_step hU hline hc hnum)
    · -- one hash, one block; its parent hash gives one line below, and that the same ops
      have heth := hU c c2 hc hc2 hx
      rw [← heth] at hline2 hops2 ⊢
      subst hpar
      obtain rfl := ih hline2
      rw [Except.ok.inj (hops.symm.trans hops2)]

theorem Line.contract (hevm : Captures S.evm)
    (hbefore : ContractChain (o.base.state S.keccak) (o.stored ++ before))
    (hl : Line S U o root before bs h) :
    ContractChain (o.base.state S.keccak) (o.stored ++ bs) := by
  induction hl with
  | root => exact hbefore
  | step hline hc hpar hnum hops ih =>
    rw [← List.append_assoc]
    refine ContractChain.append.mpr ⟨ih, ?_, trivial⟩
    rw [foldBatches_append]
    exact hevm _ _ _ hops _

/-- A batch that is the execution of a delivered block on the one line below it. -/
def Executed (S : Setup T P V N ρ) (U : Container → Prop) (o : Origin) (root : Hash)
    (before : List Batch) (b : Batch) : Prop :=
  Heads U b ∧ ∃ bs, Line S U o root before bs b.parent ∧ Line S U o root before (bs ++ [b]) b.hash

/-- Executed batches on top of each other are the end of a line. -/
theorem Line.of_path (hU : BlocksByHash U) (hroot : RootAt U o root before) {table : Table Hash Batch}
    (htable : ∀ k b, table.get k = some b → b.hash = k ∧ Executed S U o root before b)
    (hl : Line S U o root before bs h) {k : Hash} {es : List (Hash × Batch)}
    (hp : table.Path Batch.parent h k es) :
    Line S U o root before (bs ++ (es.map Prod.snd).reverse) k ∧
      Joins h (es.map Prod.snd).reverse k := by
  induction hp with
  | root => exact ⟨by simpa using hl, rfl⟩
  | @step k b es hk hv hp ih =>
    obtain ⟨rfl, -, bs', hl1, hl2⟩ := htable k b hv
    rw [List.map_cons, List.reverse_cons, ← List.append_assoc]
    obtain rfl := hl1.unique hU hroot ih.1
    exact ⟨hl2, joins_concat ih.2 rfl⟩

end Line

/-! ## The executor and the tracker -/

/-- The executor's layers mirror the tracker's table, over a store that holds what was
accepted. -/
structure Mirrored (S : Setup T P V N ρ) (o : Origin) (c : Core T) : Prop where
  dry : c.host.exec.dryBase = none
  layers : ∀ h, c.host.exec.pending.get h = (c.host.tracker.table.get h).map newLayer
  holding : Holding S.keccak o.base o.genesis (o.stored ++ c.accepted) c.host.handle c.host.sink.env
  last : c.lastHash = c.host.tracker.finalizedHash
  execs : ∀ x ∈ c.execs, OnParent (o.state S.keccak) x

section Mirrored

variable {o : Origin} {c : Core T}

/-- An execution on a parent that a path of the table leads to. -/
theorem Mirrored.onParent (h : Mirrored S o c) {parent : Hash} {es : List (Hash × Batch)}
    (hpath : c.host.tracker.table.Path Batch.parent c.host.tracker.finalizedHash parent es)
    (hnone : c.host.tracker.table.get c.host.tracker.finalizedHash = none)
    (hdec : ∀ k b b', c.host.tracker.table.get k = some b →
      c.host.tracker.table.get b.parent = some b' → b'.block.toNat < b.block.toNat)
    (hjoins : Joins c.host.tracker.finalizedHash (es.map Prod.snd).reverse parent)
    (blk : EthBlock) :
    OnParent (o.state S.keccak)
      (c.execCall S parent (c.accepted ++ (es.map Prod.snd).reverse) blk) := by
  have hroot : c.host.exec.pending.get c.host.tracker.finalizedHash = none := by
    rw [h.layers, hnone]
    rfl
  have hpath' : c.host.exec.pending.Path Layer.parent c.host.tracker.finalizedHash parent
      (es.map (fun e => (e.1, newLayer e.2))) :=
    hpath.map (fun b => (newLayer_block_parent b).2)
      (fun e he => by rw [h.layers, hpath.bound e he]; rfl)
  have hlen := hpath'.length_le_size (fun l => l.block.toNat) (fun k l l' hl hl' => by
    rw [h.layers, Option.map_eq_some_iff] at hl hl'
    obtain ⟨b, hb, rfl⟩ := hl
    obtain ⟨b', hb', rfl⟩ := hl'
    rw [(newLayer_block_parent b).2] at hb'
    rw [(newLayer_block_parent b).1, (newLayer_block_parent b').1]
    exact hdec k b b' hb hb')
  have hwalk := walk_of_path hpath' hroot hlen
  have hlayers : (es.map (fun e => (e.1, newLayer e.2))).map Prod.snd =
      (((es.map Prod.snd).reverse).map newLayer).reverse := by
    rw [List.map_reverse, List.reverse_reverse, List.map_map, List.map_map]
    rfl
  rw [hlayers] at hwalk
  refine ⟨?_, ?_, (es.map Prod.snd).reverse, rfl, ?_, congrArg Prod.fst hwalk, fun k => ?_⟩
  · show (c.host.exec.pending.get (c.host.exec.walk c.host.exec.pending.size parent).2).isNone = true
    rw [hwalk, hroot]
    rfl
  · exact (congrArg Prod.snd hwalk).trans h.last.symm
  · show Joins c.lastHash _ parent
    rw [h.last]
    exact hjoins
  · show readKey S.keccak c.host.handle c.host.sink.env (c.host.exec.viewAt parent) k =
      .ok (foldBatches (c.accepted ++ (es.map Prod.snd).reverse) (o.state S.keccak) k)
    rw [Executor.viewAt, hwalk, h.dry]
    dsimp only [Option.toList]
    rw [List.append_nil, readKey_layers h.holding.reads, foldBatches_append, foldBatches_append]
    rfl

theorem Mirrored.congr (h : Mirrored S o c) {c' : Core T} (he : c'.host.exec = c.host.exec)
    (ht : c'.host.tracker.table = c.host.tracker.table)
    (hf : c'.host.tracker.finalizedHash = c.host.tracker.finalizedHash)
    (hh : c'.host.handle = c.host.handle) (hs : c'.host.sink.env = c.host.sink.env)
    (ha : c'.accepted = c.accepted) (h0 : c'.startHash = c.startHash)
    (hx : ∀ x ∈ c'.execs, OnParent (o.state S.keccak) x) : Mirrored S o c' where
  dry := by
    rw [he]
    exact h.dry
  layers := by
    rw [he, ht]
    exact h.layers
  holding := by
    rw [ha, hh, hs]
    exact h.holding
  last := by
    rw [Core.lastHash, ha, h0, hf]
    exact h.last
  execs := hx

/-- A batch is recorded by the executor and by the tracker. -/
theorem Mirrored.verified (h : Mirrored S o c) {b : Batch}
    (hlt : c.host.tracker.finalizedHeight < b.block) {c' : Core T}
    (he : c'.host.exec = c.host.exec.record b)
    (ht : c'.host.tracker = c.host.tracker.verified b) (hh : c'.host.handle = c.host.handle)
    (hs : c'.host.sink.env = c.host.sink.env) (ha : c'.accepted = c.accepted)
    (h0 : c'.startHash = c.startHash) (hx : ∀ x ∈ c'.execs, OnParent (o.state S.keccak) x) :
    Mirrored S o c' where
  dry := by
    rw [he]
    exact h.dry
  layers k := by
    rw [he, ht, verified_above hlt]
    dsimp only [Executor.record]
    rw [Table.get_set, Table.get_set]
    split
    · rfl
    · exact h.layers k
  holding := by
    rw [ha, hh, hs]
    exact h.holding
  last := by
    rw [Core.lastHash, ha, h0, ht, verified_above hlt]
    exact h.last
  execs := hx

end Mirrored

end Flatstate.Consensus
