import Flatstate.Consensus.Gap
import Flatstate.Consensus.Parents

set_option autoImplicit false

/-!
# Consensus: the follower from one start to the next (`cmd/follower/main.go`)

A process of the follower opens the store, takes the resume point from it and runs the
engine; when it stops, the store is all that is left.  Over any number of processes that
stop between two calls of the engine the store holds one chain: every block in it is the
execution of a delivered block on the state the blocks before it leave, across forks,
gaps and restarts.
-/

namespace Flatstate.Consensus

open Foundation Schema Capture Store Exec Node
open Tipbus (openWriter)

variable {T P V N ρ : Type} {S : Setup T P V N ρ} {U : Container → Prop} {now : Nat}

/-! ## Executing a chain -/

/-- Delivered blocks executed one after another from the state `σ` and the hash `a` to the
hash of the last argument: each is on the hash of the one before, and its ops are what the
transition gives on the state the ones before leave. -/
inductive Executions (evm : Evm ρ) (U : Container → Prop) (σ : State) (a : Hash) :
    List Batch → Hash → Prop where
  | nil : Executions evm U σ a [] a
  | snoc {bs : List Batch} {h : Hash} {con : Container} {ops : List Op}
      (hx : Executions evm U σ a bs h) (hU : U con) (hpar : con.eth.parentHash = h)
      (hops : evm.ops (fun k => .ok (foldBatches bs σ k)) con.eth = .ok ops) :
      Executions evm U σ a (bs ++ [con.eth.batch h ops]) con.eth.hash

/-- The batches of the transition are small enough for one value of the store. -/
def Encodes (evm : Evm ρ) : Prop :=
  ∀ reads blk ops, evm.ops reads blk = .ok ops →
    ∀ parent, ((blk.batch parent ops).encode []).length < 2 ^ 32

namespace Executions

variable {evm : Evm ρ} {σ : State} {a m t : Hash} {bs cs : List Batch}

/-- One chain on top of another. -/
theorem append (h : Executions evm U σ a bs m) (h' : Executions evm U (foldBatches bs σ) m cs t) :
    Executions evm U σ a (bs ++ cs) t := by
  induction h' with
  | nil =>
    rw [List.append_nil]
    exact h
  | snoc _ hU hpar hops ih =>
    rw [← List.append_assoc]
    refine .snoc ih hU hpar ?_
    rw [foldBatches_append]
    exact hops

theorem fits (hfit : Encodes evm) (h : Executions evm U σ a bs t) :
    ∀ b ∈ bs, (b.encode []).length < 2 ^ 32 := by
  induction h with
  | nil => simp
  | snoc _ _ _ hops ih =>
    exact List.forall_mem_append.mpr ⟨ih, List.forall_mem_singleton.mpr (hfit _ _ _ hops _)⟩

/-- The hash at the end is that of the last block. -/
theorem getLast (h : Executions evm U σ a bs t) (hne : bs ≠ []) :
    bs.getLast?.map Batch.hash = some t := by
  cases h with
  | nil => exact absurd rfl hne
  | snoc hx hU hpar hops =>
    rw [List.getLast?_concat]
    rfl

end Executions

/-! ## The backfilled chain -/

/-- Below a container of the chain other than the lowest stands its parent. -/
theorem ascends_below {low : Container} {cs : List Container} (h : Ascends low cs) {n : UInt64}
    {c : Container} (hc : (low :: cs).find? (fun x => x.eth.number = n) = some c)
    (hne : n ≠ low.eth.number) :
    ∃ p, (low :: cs).find? (fun x => x.eth.number = n - 1) = some p ∧
      c.eth.parentHash = p.eth.hash := by
  induction cs generalizing low with
  | nil =>
    rw [List.find?_cons_of_neg (by simpa using hne.symm)] at hc
    cases hc
  | cons d cs ih =>
    obtain ⟨hpar, hnum, h⟩ := h
    rw [List.find?_cons_of_neg (by simpa using hne.symm)] at hc
    by_cases hd : n = d.eth.number
    · rw [List.find?_cons_of_pos (by simpa using hd.symm)] at hc
      obtain rfl := Option.some.inj hc
      exact ⟨low, List.find?_cons_of_pos (by simpa [hd] using hnum), hpar⟩
    · obtain ⟨p, hp, hlink⟩ := ih h hc hd
      refine ⟨p, ?_, hlink⟩
      rw [List.find?_cons_of_neg]
      · exact hp
      · have hlow : low.eth.number ≠ n - 1 := by
          rw [hnum]
          intro heq
          exact hd (by rw [← UInt64.sub_add_cancel n 1, ← heq, UInt64.sub_add_cancel])
        simpa using hlow

theorem Chain.below {b : Backfill} {low : Container} {cs : List Container} (h : Chain U b low cs)
    {n : UInt64} {c : Container} (hc : b.chain.get n = some c) (hne : n ≠ low.eth.number) :
    ∃ p, b.chain.get (n - 1) = some p ∧ c.eth.parentHash = p.eth.hash := by
  rw [h.get] at hc ⊢
  exact ascends_below h.ascends hc hne

/-- The parent of the next block of the gap is the container the tracker stands on. -/
theorem Chain.parentHash {b : Backfill} {low : Container} {cs : List Container}
    (h : Chain U b low cs) {n : UInt64} {parent : Hash} {c : Core T} {con : Container}
    (hI : LoopInv b.chain n parent c) (hget : b.chain.get n = some con)
    (habove : low.eth.number ≤ c.host.tracker.finalizedHeight)
    (hnext : con.eth.number.toNat = c.host.tracker.finalizedHeight.toNat + 1) :
    con.eth.parentHash = c.host.tracker.finalizedHash := by
  have hlow := UInt64.le_iff_toNat_le.mp habove
  obtain ⟨p, hp, hlink⟩ := h.below hget (fun heq => by
    rw [(h.of_get hget).2.1, heq] at hnext
    omega)
  obtain ⟨pc, hpc, hpch⟩ := hI.stands
  rw [hI.next, UInt64.add_sub_cancel, hpc] at hp
  obtain rfl := Option.some.inj hp
  rw [hlink, hpch, hI.hash]

/-! ## What a process keeps -/

/-- The store is built of the blocks it had at the start and those accepted since, the
watermark is at the last of them, and those accepted since were executed one after
another, from the hash `a` the sink was made at. -/
structure Kept (S : Setup T P V N ρ) (U : Container → Prop) (o : Origin) (a tip : Hash)
    (c : Core T) : Prop where
  start : c.startHash = a
  built : ∃ site, Built S.keccak o.base o.genesis site (o.stored ++ c.accepted) ∧
    site.env = c.host.sink.env
  complete : row c.host.sink.env .baselineComplete ≠ none
  mark : Watermark o.genesis (o.stored ++ c.accepted) c.host.sink.env
  chain : Executions S.evm U (o.state S.keccak) a c.accepted tip

section Kept

variable {o : Origin} {a tip : Hash} {c : Core T}

theorem Kept.congr (h : Kept S U o a tip c) {c' : Core T} (he : c'.host.sink.env = c.host.sink.env)
    (ha : c'.accepted = c.accepted) (h0 : c'.startHash = c.startHash) : Kept S U o a tip c' := by
  obtain ⟨h1, h2, h3, h4, h5⟩ := h
  constructor <;> simp only [he, ha, h0] <;> assumption

/-- A block is accepted: the execution of a delivered one on what was accepted before. -/
theorem Kept.accept (h : Kept S U o a tip c) (hevm : Captures S.evm) {con : Container}
    {ops : List Op} (hU : U con) (hpar : con.eth.parentHash = tip)
    (hnum : con.eth.number.toNat = o.above (c.accepted.length + 1))
    (hops : S.evm.ops (fun k => .ok (foldBatches c.accepted (o.state S.keccak) k)) con.eth = .ok ops)
    {c' : Core T} (ha : c'.accepted = c.accepted ++ [con.eth.batch tip ops])
    (he : c'.host.sink.env =
      setFinalized (writeBlock c.host.sink.env (con.eth.batch tip ops)) con.eth.number)
    (h0 : c'.startHash = c.startHash) : Kept S U o a con.eth.hash c' := by
  obtain ⟨site, hsite, henv⟩ := h.built
  have hblock : (con.eth.batch tip ops).block.toNat =
      o.genesis.toNat + (o.stored ++ c.accepted).length + 1 := by
    show con.eth.number.toNat = _
    rw [hnum, Origin.above, List.length_append]
    omega
  have hcon : Contract (foldBatches (o.stored ++ c.accepted) (o.base.state S.keccak))
      (con.eth.batch tip ops) := by
    rw [foldBatches_append]
    exact hevm _ _ _ hops _
  refine ⟨h0.trans h.start, ?_, ?_, ?_, ?_⟩
  · have hwritten := (hsite.writeBlock hblock hcon).setFinalized con.eth.number
    rw [List.append_assoc, ← ha] at hwritten
    exact ⟨_, hwritten, by rw [he, ← henv]⟩
  · rw [he, row_setFinalized _ _ (by simp), row_writeBlock_other _ _ (by simp) (by simp) (by simp)]
    exact h.complete
  · have hheight : height o.genesis (o.stored ++ c'.accepted).length = con.eth.number := by
      rw [ha, height, ← UInt64.ofNat_toNat (x := con.eth.number), hnum, Origin.above]
      simp only [List.length_append, List.length_singleton, Nat.add_assoc]
    rw [Watermark, if_neg (by rw [ha]; simp), he, hheight]
    exact (row_put _ .finalized .finalized _).trans (if_pos rfl)
  · rw [ha]
    exact h.chain.snoc hU hpar hops

/-! ## The live engine -/

section Live

variable {root : Hash} {before : List Batch} {t : Tree}

/-- What an acceptance writes: the execution of a delivered block with the container's
hash on what was accepted before. -/
theorem Standing.written (h : Standing S U o root before c) (hU : BlocksByHash U)
    (hroot : RootAt U o root before) (hm : Mid U (Executed S U o root before) t c)
    {con : Container} (hproc : t.procs con.id = some con) (hpar : con.parentID = t.last)
    (hw : Wrote (Executed S U o root before) c (c.onAccept con).2 con) :
    ∃ ops, con.eth.parentHash = c.host.tracker.finalizedHash ∧ U con ∧
      con.eth.number.toNat = o.above (c.accepted.length + 1) ∧
      S.evm.ops (fun k => .ok (foldBatches c.accepted (o.state S.keccak) k)) con.eth = .ok ops ∧
      (c.onAccept con).2.accepted =
        c.accepted ++ [con.eth.batch c.host.tracker.finalizedHash ops] ∧
      (c.onAccept con).2.host.sink.env = setFinalized (writeBlock c.host.sink.env
        (con.eth.batch c.host.tracker.finalizedHash ops)) con.eth.number := by
  obtain ⟨r, hr, hi, rfl⟩ := (hm.procs _ con).mp hproc
  obtain ⟨hph, hsucc⟩ := hm.onLast _ r hr hi (by rw [hpar, hm.last])
  have hrU := (hm.recs _ r hr).2
  have hlast : r.c.eth.parentHash = c.host.tracker.finalizedHash := by rw [hph, hm.hash]
  -- the container's own line ends with the block on the accepted chain
  rcases (h.recs _ r hr hi).inv with ⟨-, heq⟩ | ⟨bs, con, ops, hl, hcU, hnum, hops, hline, heq⟩
  · -- the root is not above the accepted container
    obtain ⟨rc, hrcU, hrch, hrcn⟩ := hroot
    obtain ⟨lc, hlcU, hlch, hlcn⟩ := hm.lastU
    have hlen := h.accepted.length_le
    have hlastNum := h.accepted.number hU.headers ⟨rc, hrcU, hrch, hrcn⟩
    rw [hm.hash, ← hlch, numberOf_eq hU.headers hlcU, hlcn] at hlastNum
    have hnum := (hU.headers r.c rc hrU hrcU (heq.trans hrch.symm)).2
    rw [hnum, hrcn, hlastNum, Origin.above, Origin.above] at hsucc
    omega
  · have heth : r.c.eth = con.eth := hU r.c con hrU hcU heq
    rw [← heth] at hl hnum hops hline
    rw [hlast] at hl hline
    obtain rfl := hl.unique hU hroot h.accepted
    obtain ⟨b, ⟨-, bs', hb, hb'⟩, hbh, henv⟩ := hw.env
    have hbatch : b = r.c.eth.batch c.host.tracker.finalizedHash ops := by
      rw [hbh] at hb'
      have hlines := (h.recs _ r hr hi).unique hU hroot hb'
      rw [hline] at hlines
      exact (List.singleton_inj.mp (List.append_inj' hlines rfl).2).symm
    refine ⟨ops, hlast, hrU, hnum, hops, ?_, by rw [henv, hbatch]⟩
    show c.accepted ++ ((c.recs.get r.c.id).bind (fun r' => r'.line.getLast?)).toList = _
    rw [hr, Option.bind_some, hline, List.getLast?_concat]
    rfl

/-- Announcing a head. -/
theorem Kept.emitHead (h : Kept S U o a c.host.tracker.finalizedHash c) :
    Kept S U o a (c.emitHead S).host.tracker.finalizedHash (c.emitHead S) := by
  rw [Core.emitHead]
  cases c.prefHash S with
  | none => exact h
  | some hash =>
    dsimp only
    split
    · exact h
    · obtain ⟨-, hfin, henv⟩ := head_frame c.host.tracker c.host.sink hash
      have hhead : Kept S U o a (Core.head { c with lastPref := hash } hash).2.host.tracker.finalizedHash
          (Core.head { c with lastPref := hash } hash).2 := by
        rw [show (Core.head { c with lastPref := hash } hash).2.host.tracker.finalizedHash =
          c.host.tracker.finalizedHash from hfin]
        exact h.congr henv rfl rfl
      cases hres : Core.head { c with lastPref := hash } hash with
      | mk res c' =>
        rw [hres] at hhead
        cases res with
        | ok u => exact hhead
        | error e => exact hhead.congr rfl rfl rfl

/-- Issuing a container writes nothing. -/
theorem Kept.issue {tree : T → Tree} (h : Kept S U o a c.host.tracker.finalizedHash c)
    (hcore : CoreInv U (Executed S U o root before) tree c) {id : ID} {r : Rec}
    {p : Hash × UInt64 × List Batch} (hr : c.recs.get id = some r) (hi : r.issued = false) :
    Kept S U o a (c.issue S r p).2.host.tracker.finalizedHash (c.issue S r p).2 := by
  rw [Core.issue]
  split
  · exact h.congr rfl rfl rfl
  · cases hres : c.execute S p.1 p.2.2 r.c.eth with
    | mk res c1 =>
      have hexec : Kept S U o a c1.host.tracker.finalizedHash c1 ∧
          c1.host.tracker = c.host.tracker := by
        have hx : (c.execute S p.1 p.2.2 r.c.eth).2 = c1 := by rw [hres]
        rw [← hx]
        exact ⟨h.congr rfl rfl rfl, rfl⟩
      obtain ⟨hexec, htracker⟩ := hexec
      cases res with
      | error e => exact hexec.congr rfl rfl rfl
      | ok b =>
        obtain ⟨ops, -, hb⟩ := execute_ok c (S := S) (congrArg Prod.fst hres)
        have hlt : c1.host.tracker.finalizedHeight < b.block := by
          rw [htracker, hcore.mid.height, hb]
          exact hcore.mid.fresh id r hr hi
        have hver : Kept S U o a (c1.verified b).host.tracker.finalizedHash (c1.verified b) := by
          rw [show (c1.verified b).host.tracker = _ from verified_above hlt]
          exact hexec.congr rfl rfl rfl
        dsimp only
        split
        · exact hver.congr rfl rfl rfl
        · exact Kept.emitHead (hver.congr rfl rfl rfl)

variable (hU : BlocksByHash U) (hroot : RootAt U o root before) (hevm : Captures S.evm)
  (hbefore : ContractChain (o.base.state S.keccak) (o.stored ++ before)) {tree : T → Tree}
  (hS : S.topo.Contract tree)
include hU hroot hevm hbefore hS

theorem Kept.recordPoll (h : Kept S U o a c.host.tracker.finalizedHash c)
    (hlive : LiveInv S U o root before tree c) (votes : V) :
    Kept S U o a (c.recordPoll S votes).2.host.tracker.finalizedHash (c.recordPoll S votes).2 ∨
      (c.recordPoll S votes).2.BusFailed := by
  have hT : ∀ b, Executed S U o root before b → Heads U b := fun b hb => hb.1
  have hrule := recordPoll_rule
    (fun t c => Mid U (Executed S U o root before) t c ∧ Standing S U o root before c ∧
      Kept S U o a c.host.tracker.finalizedHash c)
    (fun t c con hI hproc hpar => ?_)
    (fun t c con hI => ⟨hI.1.onReject con, hI.2.1.onReject con, hI.2.2.congr rfl rfl rfl⟩)
    (fun t c cons hI => ⟨hI.1.congr rfl rfl rfl rfl rfl rfl rfl rfl,
      hI.2.1.congr (hI.2.1.mirrored.congr rfl rfl rfl rfl rfl rfl rfl hI.2.1.mirrored.execs) rfl rfl
        (fun _ _ hr _ => Or.inl hr), hI.2.2.congr rfl rfl rfl⟩)
    hS votes ⟨hlive.core.mid, hlive.standing, h⟩
  · exact hrule.imp_left (fun hI => hI.1.2.2)
  · obtain ⟨hm, hst, hk⟩ := hI
    refine (hm.onAccept hU.headers hT hproc hpar).imp_left (fun ⟨hok, hm', hw⟩ =>
      ⟨hok, hm', hst.onAccept hU hroot hevm hbefore hm hproc hpar hm' hw, ?_⟩)
    obtain ⟨ops, hlast, hcU, hnum, hops, hacc, henv⟩ := hst.written hU hroot hm hproc hpar hw
    rw [hm'.hash]
    exact hk.accept hevm hcU hlast hnum hops hacc henv rfl

/-- Every move keeps the store in step with what was accepted, unless the bus cannot
commit. -/
theorem Kept.moves {c' : Core T} (h : Kept S U o a c.host.tracker.finalizedHash c)
    (hlive : LiveInv S U o root before tree c) (hmoves : Moves S U c c') :
    Kept S U o a c'.host.tracker.finalizedHash c' ∨ c'.BusFailed := by
  induction hmoves with
  | refl => exact Or.inl h
  | @tail c1 c2 hmoves hmove ih =>
    rcases hlive.moves hS hU hroot hevm hbefore hmoves with hlive1 | hbus
    · rcases ih with hk | hbus
      · cases hmove with
        | insert _ _ _ _ _ | wait _ => exact Or.inl (hk.congr rfl rfl rfl)
        | issue hr hi hp => exact Or.inl (hk.issue hlive1.core hr hi)
        | poll votes => exact hk.recordPoll hU hroot hevm hbefore hS hlive1 votes
        | head => exact Or.inl hk.emitHead
      · exact Or.inr (busFailed_mono hbus hmove.grows)
    · exact Or.inr (busFailed_mono hbus hmove.grows)

end Live

/-! ## The gap -/

/-- Between two blocks of the gap. -/
structure GapKept (S : Setup T P V N ρ) (U : Container → Prop) (o : Origin) (a : Hash)
    (low : Container) (c : Core T) : Prop where
  gap : GapInv S o c
  kept : Kept S U o a c.host.tracker.finalizedHash c
  above : low.eth.number ≤ c.host.tracker.finalizedHeight

variable {b : Backfill} {low : Container} {cs : List Container}

theorem GapKept.turn (hevm : Captures S.evm) (hchain : Chain U b low cs)
    {h : UInt64} {parent : Hash} {con : Container} (hg : GapKept S U o a low c)
    (hI : LoopInv b.chain h parent c) (hget : b.chain.get h = some con) :
    match c.backfillTurn S h parent con.eth with
    | (none, c') => Stopped c c' → ∃ tip, Kept S U o a tip c'
    | (some _, c') => LoopInv b.chain (h + 1) con.eth.hash c' → Ran h parent con c c' →
        GapKept S U o a low c' := by
  obtain ⟨-, hcn, hcU⟩ := hchain.of_get hget
  have hgap := hg.gap.turn (S := S) hevm hI hcn
  have hreads := (hg.gap.onParent hI con.eth).2.2.choose_spec.2.2.2
  cases hres : c.backfillTurn S h parent con.eth with
  | mk res c' =>
    cases res with
    | none =>
      intro hstop
      exact ⟨_, hg.kept.congr hstop.env hstop.accepted hstop.startHash⟩
    | some hash =>
      rw [hres] at hgap
      intro hI' hran
      obtain ⟨hheight, hhash⟩ := hran.finalized
      have hnext := hran.next
      have hle : c.host.tracker.finalizedHeight ≤ con.eth.number :=
        UInt64.le_iff_toNat_le.mpr (by omega)
      refine ⟨hgap hI' hran, ?_, by rw [hheight]; exact UInt64.le_trans hg.above hle⟩
      rcases backfillTurn_cases S c h parent con.eth with
        ⟨e, he⟩ | ⟨ops, hops, ⟨t, s, -, hok⟩ | ⟨e, t, s, -, hno⟩⟩
      · rw [he] at hres
        cases hres
      · rw [hok] at hres
        obtain rfl := (Prod.mk.inj hres).2
        obtain ⟨ops', hacc, henv⟩ := hran.env
        have hbatch : con.eth.batch parent ops = con.eth.batch parent ops' :=
          List.singleton_inj.mp (List.append_inj' hacc rfl).2
        have hnum : con.eth.number.toNat = o.above (c.accepted.length + 1) := by
          rw [hnext, hg.gap.height]
          rfl
        rw [show readKey S.keccak c.host.handle c.host.sink.env (c.host.exec.viewAt parent) =
          fun k => .ok (foldBatches c.accepted (o.state S.keccak) k) from funext hreads] at hops
        rw [← hbatch, ← hcn, ← hI.hash] at henv
        rw [hhash]
        exact hg.kept.accept hevm hcU (hchain.parentHash hI hget hg.above hnext) hnum hops
          (by rw [hI.hash]) henv rfl
      · rw [hno] at hres
        cases hres

/-- The sink is made over a store nothing was written to. -/
theorem Kept.makeSink (h : Kept S U o a tip c) (hf : Fresh S o c) (hacc : c.accepted = [])
    (headers : List (Hash × UInt64)) {height : UInt64} (hash : Hash)
    (hheight : height.toNat = o.above 0) (hlow : low.eth.number ≤ height) :
    GapKept S U o hash low (c.makeSink S headers height hash) := by
  obtain ⟨-, hbuilt, hcomplete, hmark, -⟩ := h
  rw [hacc] at hbuilt hmark
  exact ⟨hf.makeSink headers hash hheight, ⟨rfl, hbuilt, hcomplete, hmark, .nil⟩, hlow⟩

end Kept

/-! ## Every run -/

/-- The hash is that of the resume point, if it has one. -/
def Resumes (S : Setup T P V N ρ) (a : Hash) : Prop :=
  ∀ r want, S.cfg.resume = some r → r.ethHash = some want → a = want

/-- What holds of every engine reached by which the sink was made at most once: nothing
was executed yet, or the gap stopped, or the engine is live. -/
inductive KeptInv (S : Setup T P V N ρ) (U : Container → Prop) (o : Origin) (e : Engine T P N) :
    Prop where
  | fresh {a tip : Hash} (hp : e.phase ≠ .live) (hmade : e.core.made = 0)
      (hacc : e.core.accepted = []) (hk : Kept S U o a tip e.core)
  | stopped {a tip : Hash} (hp : e.phase ≠ .live) (hmade : 0 < e.core.made) (ha : Resumes S a)
      (hk : Kept S U o a tip e.core)
  | live {a : Hash} (hp : e.phase = .live) (ha : Resumes S a)
      (hk : Kept S U o a e.core.host.tracker.finalizedHash e.core)

theorem KeptInv.kept {o : Origin} {e : Engine T P N} (h : KeptInv S U o e) :
    ∃ a tip, Kept S U o a tip e.core ∧ (e.core.accepted ≠ [] → Resumes S a) := by
  cases h with
  | fresh hp hmade hacc hk => exact ⟨_, _, hk, fun hne => absurd hacc hne⟩
  | stopped _ _ ha hk | live _ ha hk => exact ⟨_, _, hk, fun _ => ha⟩

/-- The store stays as it is, out of the live phase. -/
theorem KeptInv.pre {o : Origin} {e e' : Engine T P N} (h : KeptInv S U o e)
    (hp : e.phase ≠ .live) (hp' : e'.phase ≠ .live) (hm : e'.core.made = e.core.made)
    (hh : e'.core.host = e.core.host) (ha : e'.core.accepted = e.core.accepted)
    (h0 : e'.core.startHash = e.core.startHash) : KeptInv S U o e' := by
  cases h with
  | fresh _ hmade hacc hk =>
    exact .fresh hp' (hm.trans hmade) (ha.trans hacc) (hk.congr (by rw [hh]) ha h0)
  | stopped _ hmade hr hk =>
    exact .stopped hp' (by rw [hm]; exact hmade) hr (hk.congr (by rw [hh]) ha h0)
  | live hlive _ _ => exact absurd hlive hp

/-- The container that ends the backfill is not above the start point. -/
theorem landing_le {chain : Table UInt64 Container} {start anchor : Container} {height : UInt64}
    {hash : Hash} (hs : startPoint S chain start = .ok (height, hash))
    (hend : start.eth.number = backfillTarget S anchor ∨ start.eth.number = 0) :
    start.eth.number ≤ height := by
  have hstart := startPoint_ok hs
  rw [backfillTarget] at hend
  cases hr : S.cfg.resume with
  | none =>
    rw [hr] at hstart
    rw [hstart]
    exact UInt64.le_refl _
  | some r =>
    rw [hr] at hstart hend
    obtain ⟨rfl, -⟩ := hstart
    rcases hend with hend | hend
    · rw [hend]
      dsimp only
      split
      · exact UInt64.le_refl _
      · rename_i hback
        have hle := UInt64.not_lt.mp (not_or.mp hback).2
        rw [UInt64.le_iff_toNat_le, UInt64.toNat_sub_of_le _ _ hle]
        exact Nat.sub_le _ _
    · rw [hend, UInt64.le_iff_toNat_le]
      exact Nat.zero_le _

theorem resumes_startPoint {chain : Table UInt64 Container} {start : Container} {height : UInt64}
    {hash : Hash} (hs : startPoint S chain start = .ok (height, hash)) : Resumes S hash := by
  intro r want hr hw
  have hstart := startPoint_ok hs
  rw [hr] at hstart
  exact hstart.2 want hw

section Runs

variable {o : Origin} {tree : T → Tree} (hS : S.topo.Contract tree) (hU : BlocksByHash U)
  (hevm : Captures S.evm) (hresume : ∃ r, S.cfg.resume = some r ∧ r.height.toNat = o.above 0)
include hS hU hevm hresume

/-- The end of the backfill. -/
theorem KeptInv.finishBootstrap {e : Engine T P N} (hinv : EngineInv U tree e)
    (hpar : ParentInv S U o tree e) (h : KeptInv S U o e) (hp : e.phase = .backfill)
    {anchor start : Container} (hlow : e.back.low = some start)
    (hanchor : e.back.anchor = some anchor)
    (hend : start.eth.number = backfillTarget S anchor ∨ start.eth.number = 0) :
    KeptInv S U o (e.finishBootstrap S now anchor start) ∨
      (e.finishBootstrap S now anchor start).core.Spoilt := by
  have hnot : e.phase ≠ .live := by rw [hp]; decide
  obtain ⟨cs, hchain⟩ := (hinv.back hp).chain hlow
  rw [Engine.finishBootstrap]
  cases hs : startPoint S e.back.chain start with
  | error f => exact Or.inl (h.pre hnot hnot rfl rfl rfl rfl)
  | ok hh =>
    obtain ⟨height, hash⟩ := hh
    dsimp only
    cases hres : (e.core.makeSink S (seeds e.back.chain start height) height hash).backfillLoop S
        e.back.chain e.back.chain.size (height + 1) hash with
    | mk ok c =>
      have hmade := (grows_gap _ _ _ _ hres).2
      have hpoll : Effect S U (e.goLive S c anchor) ((e.goLive S c anchor).sendPoll S now) :=
        effect_sendPoll _
      cases h with
      | live hlive _ _ => exact absurd hlive hnot
      | stopped _ hpos _ _ =>
        have hspoilt : c.Spoilt := Or.inr (Nat.lt_of_le_of_lt hpos hmade)
        cases ok with
        | false => exact Or.inr hspoilt
        | true => exact Or.inr (spoilt_mono (c := c.anchored S anchor) hspoilt hpoll.moves.grows)
      | fresh _ hzero hacc hk =>
        cases hpar with
        | live hlive _ _ _ => exact absurd hlive hnot
        | stopped _ hpos _ => exact absurd hzero (Nat.ne_of_gt hpos)
        | fresh _ hf =>
          obtain ⟨r, hr, hrh⟩ := hresume
          have hheight : height.toNat = o.above 0 := by rw [(hchain.start hs).2 r hr, hrh]
          have hI : LoopInv e.back.chain (height + 1) hash
              (e.core.makeSink S (seeds e.back.chain start height) height hash) :=
            (hinv.pre hnot).makeSink _ (hchain.start hs).1
          have hg := hk.makeSink hf hacc (seeds e.back.chain start height) hash hheight
            (landing_le hs hend)
          have hloop := hI.loop_rule (S := S) hU.headers hchain (fun _ _ _ _ hg => ⟨_, hg.kept⟩)
            (fun _ _ _ _ hI hg hget => GapKept.turn (S := S) hevm hchain hg hI hget) hg
            e.back.chain.size
          rw [hres] at hloop
          have ha := resumes_startPoint hs
          cases ok with
          | false =>
            rcases hloop with ⟨_, hk⟩ | hbus
            · exact Or.inl (.stopped hnot (Nat.lt_of_le_of_lt (Nat.zero_le _) hmade) ha hk)
            · exact Or.inr (Or.inl hbus)
          | true =>
            obtain ⟨h', parent', hI' | hbus, hnone⟩ := hloop
            · obtain ⟨hI', hg'⟩ := hI'
              obtain ⟨hroot, hlive⟩ := hg'.gap.anchored hS hU hchain hanchor hI' hnone
              have hk' : Kept S U o hash (c.anchored S anchor).host.tracker.finalizedHash
                (c.anchored S anchor) := hg'.kept.congr rfl rfl rfl
              exact (hk'.moves hU hroot hevm hg'.gap.mirrored.holding.contract hS hlive
                hpoll.moves).imp (.live hpoll.phase ha) Or.inl
            · exact Or.inr (spoilt_mono (c := c.anchored S anchor) (Or.inl hbus) hpoll.moves.grows)

theorem KeptInv.fetch {e e' : Engine T P N} (hinv : EngineInv U tree e)
    (hpar : ParentInv S U o tree e) (h : KeptInv S U o e) (hfetch : Fetch S U e e') :
    KeptInv S U o e' ∨ e'.core.Spoilt := by
  cases hfetch with
  | same hp hc hl ha hchain hid =>
    left
    cases h with
    | fresh hpre hmade hacc hk => exact .fresh (by rw [hp]; exact hpre) (hc ▸ hmade) (hc ▸ hacc) (hc ▸ hk)
    | stopped hpre hmade ha hk => exact .stopped (by rw [hp]; exact hpre) (hc ▸ hmade) ha (hc ▸ hk)
    | live hlive ha hk => exact .live (hp.trans hlive) ha (hc ▸ hk)
  | moves hp heff =>
    cases h with
    | fresh hpre _ _ _ | stopped hpre _ _ _ => exact absurd hp hpre
    | live hlive ha hk =>
      cases hpar with
      | fresh hpre _ | stopped hpre _ _ => exact absurd hp hpre
      | live _ hroot hbefore hlinv =>
        exact (hk.moves hU hroot hevm hbefore hS hlinv heff.moves).imp
          (.live (heff.phase.trans hlive) ha) Or.inl
  | found hp a =>
    exact Or.inl (h.pre (by rw [hp]; decide) (fun hx => by cases hx) rfl rfl rfl rfl)
  | @container now c hp hc =>
    have hnot : e.phase ≠ .live := by rw [hp]; decide
    rw [Engine.backfillContainer]
    split
    · exact Or.inl h
    · rename_i ht
      have ht : e.back.takes c = true := by simpa using ht
      have htake : KeptInv S U o (e.take c) := h.pre hnot hnot rfl rfl rfl rfl
      dsimp only
      split
      · rename_i hend
        have hinv' : EngineInv U tree (e.take c) :=
          .of_backfill hp (hinv.pre hnot) ((hinv.back hp).take hc ht)
        have hpar' : ParentInv S U o tree (e.take c) := hpar.pre hnot hnot rfl rfl rfl
        exact KeptInv.finishBootstrap (e := e.take c) hS hU hevm hresume hinv' hpar' htake hp rfl rfl
          hend
      · exact Or.inl htake

theorem ParentInv.fetch {e e' : Engine T P N} (hinv : EngineInv U tree e)
    (hpar : ParentInv S U o tree e) (hfetch : Fetch S U e e') :
    (EngineInv U tree e' ∧ ParentInv S U o tree e') ∨ e'.core.Spoilt := by
  have hshifts := hfetch.shifts
  clear hfetch
  induction hshifts with
  | refl => exact Or.inl ⟨hinv, hpar⟩
  | tail _ hlast ih => exact ParentInv.shift_or hS hU hevm hresume ih hlast

/-- A run of a process over a store that is built of the blocks under its watermark. -/
theorem session_kept {site : Site} (hbuilt : Built S.keccak o.base o.genesis site o.stored)
    {host : Host} (henv : host.sink.env = site.env) (hhandle : Coherent host.handle host.sink.env)
    (hcomplete : row host.sink.env .baselineComplete ≠ none)
    (hmark : Watermark o.genesis o.stored host.sink.env) (hrest : Rest host.sink)
    (hexec : host.exec = Executor.new) {net : N} {Q : Engine T P N → Input → Prop}
    {e : Engine T P N} (h : Run S U Q (Engine.new S host net) e) (hmade : e.core.made ≤ 1)
    (hbus : ∀ f ∈ e.core.fatal, f.isBus = false) : ParentInv S U o tree e ∧ KeptInv S U o e := by
  have hI : (EngineInv U tree e ∧ ParentInv S U o tree e ∧ KeptInv S U o e) ∨ e.core.Spoilt := by
    refine h.fetch_rule
      (fun e => (EngineInv U tree e ∧ ParentInv S U o tree e ∧ KeptInv S U o e) ∨ e.core.Spoilt)
      (Or.inl ⟨engineInv_new hrest, .fresh (fun hx => by cases hx) ?_,
        .fresh (fun hx => by cases hx) rfl rfl (?_ : Kept S U o Hash.zero Hash.zero _)⟩) ?_ ?_
    · exact fresh_new hbuilt henv hhandle hcomplete hexec net
    · refine ⟨rfl, ⟨site, ?_, henv.symm⟩, hcomplete, ?_, .nil⟩
      · show Built _ _ _ _ (o.stored ++ [])
        rw [List.append_nil]
        exact hbuilt
      · show Watermark _ (o.stored ++ []) _
        rw [List.append_nil]
        exact hmark
    · intro e e' hI hfetch
      rcases hI with ⟨hinv, hpar, hkept⟩ | hsp
      · rcases hpar.fetch hS hU hevm hresume hinv hfetch with ⟨hinv', hpar'⟩ | hsp
        · exact (hkept.fetch hS hU hevm hresume hinv hpar hfetch).imp_left
            (fun hk => ⟨hinv', hpar', hk⟩)
        · exact Or.inr hsp
      · exact Or.inr (spoilt_mono hsp hfetch.grows)
    · intro e handle hI hc
      refine hI.imp_left (fun ⟨hinv, hpar, hkept⟩ => ⟨hinv.looks handle, hpar.looks hc, ?_⟩)
      cases hkept with
      | fresh hp hmade hacc hk => exact .fresh hp hmade hacc (hk.congr rfl rfl rfl)
      | stopped hp hmade ha hk => exact .stopped hp hmade ha (hk.congr rfl rfl rfl)
      | live hp ha hk => exact .live hp ha (hk.congr rfl rfl rfl)
  exact (hI.resolve_right (not_spoilt hmade hbus)).2

end Runs

/-! ## Processes -/

/-- What the follower fails with before its engine runs. -/
inductive StartErr where
  /-- "baseline incomplete: run the baseline loader first (D6 rev 2)" -/
  | baselineIncomplete
  | resume (e : ResumeErr)
  /-- of `mem.New` -/
  | store (e : Err)
  deriving DecidableEq

/-- The follower's `run` over its store, up to the engine: the resume point, and the sink
and the executor.  There is no tracker before `MakeSink`. -/
def startFollower (env : Env) : Except StartErr (Anchor × Host) :=
  match baselineComplete {} env with
  | (false, _) => .error .baselineIncomplete
  | (true, h) =>
    match resumeFromStore h env with
    | (.error e, _) => .error (.resume e)
    | (.ok a, h) =>
      match finalized env with
      | .error e => .error (.store e)
      | .ok f =>
        .ok (a, ⟨newSink env (Mem.State.new f) openWriter, newTracker a.height Hash.zero,
          Executor.new, h⟩)

/-- The engine's configuration with a resume point. -/
def Setup.resumed (S : Setup T P V N ρ) (a : Anchor) : Setup T P V N ρ :=
  { S with cfg := { S.cfg with resume := some a } }

/-- The lives of the follower on a finished baseline: processes one after another over one
store, each stopped between two calls of its engine, before a second sink was made and
with a bus that commits.  `bs` are the blocks accepted by all of them, and `xs` what each
execution was run on, with the blocks the process had found. -/
inductive Life (S : Setup T P V N ρ) (U : Container → Prop) (base : Trie) (genesis : UInt64) :
    Env → List Batch → List (List Batch × ExecCall) → Prop where
  | init {site : Site} (hbuilt : Built S.keccak base genesis site [])
      (hset : row site.env .baselineComplete ≠ none) (hmark : row site.env .finalized = none) :
      Life S U base genesis site.env [] []
  | process {env : Env} {bs : List Batch} {xs : List (List Batch × ExecCall)} {a : Anchor}
      {host : Host} {net : N} {e : Engine T P N} (h : Life S U base genesis env bs xs)
      (hstart : startFollower env = .ok (a, host))
      (hrun : Run (S.resumed a) U (fun _ _ => True) (Engine.new (S.resumed a) host net) e)
      (hmade : e.core.made ≤ 1) (hbus : ∀ f ∈ e.core.fatal, f.isBus = false) :
      Life S U base genesis e.core.host.sink.env (bs ++ e.core.accepted)
        (xs ++ e.core.execs.map (fun x => (bs, x)))

/-- What holds of every store a life leaves. -/
structure LifeInv (S : Setup T P V N ρ) (U : Container → Prop) (base : Trie) (genesis : UInt64)
    (env : Env) (bs : List Batch) (xs : List (List Batch × ExecCall)) : Prop where
  built : ∃ site, Built S.keccak base genesis site bs ∧ site.env = env
  complete : row env .baselineComplete ≠ none
  mark : Watermark genesis bs env
  chain : ∃ root tip, Executions S.evm U (base.state S.keccak) root bs tip
  execs : ∀ x ∈ xs, OnParent (foldBatches x.1 (base.state S.keccak)) x.2

section Lives

variable {base : Trie} {genesis : UInt64} {env : Env} {bs : List Batch}
  {xs : List (List Batch × ExecCall)}

/-- The watermark can be read. -/
theorem finalized_of_watermark (hm : Watermark genesis bs env) : ∃ f, finalized env = .ok f := by
  rw [Watermark] at hm
  by_cases hnil : bs = []
  · rw [if_pos hnil] at hm
    have hget : env.get metaFinalized = none := hm
    exact ⟨none, by rw [finalized, getMetaU64, hget]⟩
  · rw [if_neg hnil] at hm
    exact ⟨_, getMetaU64_of_row (r := .finalized) hm⟩

/-- The follower starts on every store a life leaves: it resumes on the last block. -/
theorem LifeInv.start (h : LifeInv S U base genesis env bs xs) (hfit : Encodes S.evm) :
    ∃ host, startFollower env =
        .ok (⟨height genesis bs.length, bs.getLast?.map Batch.hash⟩, host) ∧
      host.sink.env = env ∧ Rest host.sink ∧ host.exec = Executor.new ∧
      Coherent host.handle env := by
  obtain ⟨site, hsite, rfl⟩ := h.built
  obtain ⟨root, tip, hchain⟩ := h.chain
  obtain ⟨f, hfin⟩ := finalized_of_watermark h.mark
  have hrestart : (restart site.env).1 =
        .ok ⟨height genesis bs.length, bs.getLast?.map Batch.hash⟩ ∧
      Coherent (restart site.env).2 site.env := by
    have hw := (WriterInv.init hsite h.complete h.mark (hchain.fits hfit) none).restart
    rwa [Writer.done, Stage.marks, List.append_nil] at hw
  have hdone : (baselineComplete {} site.env).1 = true := by
    have hsome : (site.env.get metaBaselineComplete).isSome = true :=
      Option.isSome_iff_ne_none.mpr h.complete
    rw [baselineComplete, if_neg (by simp), if_pos hsome]
  rw [restart] at hrestart
  rw [startFollower]
  cases hb : baselineComplete {} site.env with
  | mk done h0 =>
    rw [hb] at hdone hrestart
    dsimp only at hdone hrestart
    subst hdone
    cases hr : resumeFromStore h0 site.env with
    | mk res h1 =>
      rw [hr] at hrestart
      obtain ⟨hres, hcoh⟩ := hrestart
      dsimp only at hres hcoh ⊢
      rw [hr, hres]
      dsimp only
      rw [hfin]
      exact ⟨_, rfl, rfl, ⟨rfl, rfl, fun _ => rfl⟩, rfl, hcoh⟩

/-- Every handle on the store reads at every height what the fold of its blocks says. -/
theorem LifeInv.reads (h : LifeInv S U base genesis env bs xs) {handle : Handle}
    (hc : Coherent handle env) {at_ : UInt64} (hle : genesis ≤ at_) :
    (∀ a, getAccount S.keccak handle env a at_ = .ok (valueAt S.keccak base bs at_ (.account a))) ∧
      ∀ a s, getSlot S.keccak handle env a s at_ = .ok (valueAt S.keccak base bs at_ (.slot a s)) := by
  obtain ⟨site, hsite, rfl⟩ := h.built
  have hi := hsite.inv
  have hval : valueAt S.keccak base bs at_ = stateAt S.keccak base bs (reach genesis bs at_) := by
    rw [valueAt, filter_block_le hi.consecutive hle, stateAt]
  have hd : ∀ b ∈ bs, DestructFirst b.ops := fun b hb =>
    (ContractChain.mem hi.chain hb).choose_spec.destructFirst
  rw [hval]
  -- a read refuses nothing once the baseline is complete
  refine ⟨fun a => ?_, fun a s => ?_⟩
  · exact (getAccount_refines hi.refines hd hc hle a).resolve_right
      (fun hun => h.complete hun.2.unset)
  · exact (getSlot_refines hi.refines hd
      (fun b hb => (ContractChain.mem hi.chain hb).choose_spec.recreated) hc hle a s).resolve_right
      (fun hun => h.complete hun.2.unset)

variable {tree : T → Tree} (hS : S.topo.Contract tree) (hU : BlocksByHash U)
  (hevm : Captures S.evm) (hfit : Encodes S.evm)
include hS hU hevm hfit

/-- A life is one chain, however many processes it has. -/
theorem Life.inv (h : Life S U base genesis env bs xs) : LifeInv S U base genesis env bs xs := by
  induction h with
  | @init site hbuilt hset hmark =>
    exact ⟨⟨site, hbuilt, rfl⟩, hset, hmark, ⟨Hash.zero, Hash.zero, .nil⟩, by simp⟩
  | @process env bs xs a host net e h hstart hrun hmade hbus ih =>
    obtain ⟨host', hstart', henv, hrest, hexec, hcoh⟩ := ih.start hfit
    obtain ⟨rfl, rfl⟩ := Prod.mk.inj (Except.ok.inj (hstart.symm.trans hstart'))
    obtain ⟨site, hsite, rfl⟩ := ih.built
    have hfits := hsite.inv.refines.fits
    obtain ⟨hpar, hkept⟩ := session_kept (S := S.resumed _) (o := ⟨base, genesis, bs⟩) hS hU hevm
      ⟨_, rfl, toNat_height hfits⟩ hsite henv (henv ▸ hcoh) (henv ▸ ih.complete) (henv ▸ ih.mark)
      hrest hexec hrun hmade hbus
    obtain ⟨start, tip, hk, hr⟩ := hkept.kept
    obtain ⟨root, last, hchain⟩ := ih.chain
    refine ⟨hk.built, hk.complete, hk.mark, ?_, ?_⟩
    · by_cases hnew : e.core.accepted = []
      · rw [hnew, List.append_nil]
        exact ⟨root, last, hchain⟩
      · -- the first block of the process is on the last one of those before it
        by_cases hold : bs = []
        · subst hold
          exact ⟨start, tip, hk.chain⟩
        · have hlink : start = last := hr hnew _ last rfl (hchain.getLast hold)
          subst hlink
          exact ⟨root, tip, hchain.append hk.chain⟩
    · refine List.forall_mem_append.mpr ⟨ih.execs, ?_⟩
      rintro _ hmem
      obtain ⟨x, hx, rfl⟩ := List.mem_map.mp hmem
      exact hpar.allOnParent x hx

/-- However often the follower was stopped and started over one store, if no two delivered
blocks with one hash differ: it starts again and resumes exactly on the newest block, the
store holds one chain of executions of delivered blocks and reads as their fold at every
height, and every process executed its blocks on the states of their parents. -/
theorem restarts_hold_one_chain (h : Life S U base genesis env bs xs) :
    (∃ host, startFollower env =
        .ok (⟨height genesis bs.length, bs.getLast?.map Batch.hash⟩, host)) ∧
      (∃ root tip, Executions S.evm U (base.state S.keccak) root bs tip) ∧
      (∀ handle, Coherent handle env → ∀ at_, genesis ≤ at_ →
        (∀ a, getAccount S.keccak handle env a at_ =
            .ok (valueAt S.keccak base bs at_ (.account a))) ∧
          ∀ a s, getSlot S.keccak handle env a s at_ =
            .ok (valueAt S.keccak base bs at_ (.slot a s))) ∧
      ∀ x ∈ xs, OnParent (foldBatches x.1 (base.state S.keccak)) x.2 := by
  have hinv := h.inv hS hU hevm hfit
  obtain ⟨host, hstart, -⟩ := hinv.start hfit
  exact ⟨⟨host, hstart⟩, hinv.chain, fun handle hc at_ hle => hinv.reads hc hle, hinv.execs⟩

end Lives

namespace Sample

open Store.Sample

/-- A process over a store, and the inputs it gets before it is stopped. -/
def session (env : Env) (inputs : List Input) : Option (Engine Procs Unit UInt32) :=
  match startFollower env with
  | .error _ => none
  | .ok (a, host) =>
    some (inputs.foldl (fun e i => e.step (setup.resumed a) 0 i) (Engine.new (setup.resumed a) host 0))

/-- The anchor is container `id`, and a vote accepts its child. -/
def inputs (id : Nat) (anchor child : Bytes) : List Input :=
  [.tick, .chits (node 1) 1 ID.empty ID.empty (FixedBytes.ofNat 32 id) 5,
    .chits (node 2) 1 ID.empty ID.empty (FixedBytes.ofNat 32 id) 5, .container (node 1) anchor,
    .container (node 1) child,
    .chits (node 1) 3 (FixedBytes.ofNat 32 (id + 1)) ID.empty (FixedBytes.ofNat 32 id) 5]

/-- The engine of the first process when it is stopped. -/
def first : Option (Engine Procs Unit UInt32) :=
  session finished.env (inputs 105 [105, 104, 5, 4, 5] [106, 105, 6, 5, 6])

/-- That of a second process, over the store the first one leaves. -/
def second : Option (Engine Procs Unit UInt32) :=
  first.bind (fun e => session e.core.host.sink.env
    (inputs 106 [106, 105, 6, 5, 6] [107, 106, 7, 6, 7]))

theorem foldl_run {S : Setup T P V N ρ} {e0 e : Engine T P N} (h : Run S U (fun _ _ => True) e0 e)
    (is : List Input) (his : ∀ i ∈ is, ∀ c ∈ i.delivers S, U c) :
    Run S U (fun _ _ => True) e0 (is.foldl (fun e i => e.step S 0 i) e) := by
  induction is generalizing e with
  | nil => exact h
  | cons i is ih =>
    obtain ⟨hi, his⟩ := List.forall_mem_cons.mp his
    exact ih (h.call 0 i hi trivial) his

theorem session_life {U : Container → Prop} {env : Env} {bs : List Batch}
    {xs : List (List Batch × ExecCall)} {is : List Input} {e : Engine Procs Unit UInt32}
    (h : Life setup U trie 5 env bs xs) (he : session env is = some e)
    (his : ∀ i ∈ is, ∀ c ∈ i.delivers setup, U c) (hmade : e.core.made = 1)
    (hfatal : e.core.fatal.length = 0) :
    Life setup U trie 5 e.core.host.sink.env (bs ++ e.core.accepted)
      (xs ++ e.core.execs.map (fun x => (bs, x))) := by
  rw [session] at he
  cases hs : startFollower env with
  | error err =>
    rw [hs] at he
    cases he
  | ok r =>
    rw [hs] at he
    obtain rfl := Option.some.inj he
    refine h.process hs (foldl_run .init is his) (Nat.le_of_eq hmade) ?_
    rw [List.length_eq_zero_iff.mp hfatal]
    simp

theorem inputs_forked {id : Nat} {anchor child : Bytes} (ha : anchor ∈ forked) (hc : child ∈ forked) :
    ∀ i ∈ inputs id anchor child, ∀ c ∈ i.delivers setup, c ∈ forked.filterMap parse := by
  have hparse : ∀ raw ∈ forked, ∀ c ∈ (parse raw).toList, c ∈ forked.filterMap parse :=
    fun raw hraw c hc => List.mem_filterMap.mpr ⟨raw, hraw, Option.mem_toList.mp hc⟩
  simp only [inputs, List.forall_mem_cons, Input.delivers, List.not_mem_nil, false_imp_iff,
    implies_true, true_and, and_true]
  exact ⟨hparse anchor ha, hparse child hc⟩

theorem evm_encodes : Encodes evm := by
  intro reads blk ops hops parent
  have hrun : ops = [.account addr (acct blk.body.length)] := by
    simp only [Evm.ops, evm] at hops
    split at hops
    · cases hops
    · exact (Except.ok.inj hops).symm
  subst hrun
  simp [EthBlock.batch, Batch.encode, Batch.header, Op.encode, Op.body, length_beEncode,
    length_encodeAccount, blk.hash.2, parent.2, addr.2, accountSize]

end Sample

open Sample Store.Sample in
/-- Two processes, one block each: the second resumes on the block of the first. -/
theorem restarts_hold_one_chain_twice :
    ∃ e e', first = some e ∧ second = some e' ∧ e.core.accepted.length = 1 ∧
      e'.core.accepted.length = 1 ∧
      ∃ root tip, Executions evm (fun c => c ∈ forked.filterMap parse) (trie.state digest) root
        (e.core.accepted ++ e'.core.accepted) tip := by
  have hfirst : first.map (fun e => (e.core.made, e.core.fatal.length, e.core.accepted.length)) =
      some (1, 0, 1) := by decide +kernel
  have hsecond : second.map (fun e => (e.core.made, e.core.fatal.length, e.core.accepted.length)) =
      some (1, 0, 1) := by decide +kernel
  obtain ⟨e, he, heq⟩ := Option.map_eq_some_iff.mp hfirst
  obtain ⟨e', he', heq'⟩ := Option.map_eq_some_iff.mp hsecond
  simp only [Prod.mk.injEq] at heq heq'
  obtain ⟨hmade, hfatal, hlen⟩ := heq
  obtain ⟨hmade', hfatal', hlen'⟩ := heq'
  have hbase : Life setup (fun c => c ∈ forked.filterMap parse) trie 5 finished.env [] [] :=
    .init finished_built (by decide) (by decide)
  have hlife := session_life hbase he (inputs_forked (by decide) (by decide)) hmade hfatal
  have hrun : session e.core.host.sink.env (inputs 106 [106, 105, 6, 5, 6] [107, 106, 7, 6, 7]) =
      some e' := by
    rw [← he', second, he]
    rfl
  have hlife' := session_life hlife hrun (inputs_forked (by decide) (by decide)) hmade' hfatal'
  exact ⟨e, e', he, he', hlen, hlen',
    (restarts_hold_one_chain topo_contract forked_blocksByHash evm_captures evm_encodes hlife').2.1⟩

end Flatstate.Consensus
