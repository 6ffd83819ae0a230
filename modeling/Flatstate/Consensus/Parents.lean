import Flatstate.Consensus.Lines

set_option autoImplicit false

/-!
# Consensus: every block is executed on its parent's state

The view of a block is the state of its parent because the tracker's table and the
executor's layers are recorded and pruned alike, and because one hash stands for one
execution.  In the backfill every block is accepted before the next is executed, so there
are no layers; from the anchor on the layers are those of the issued containers.
-/

namespace Flatstate.Consensus

open Foundation Schema Capture Store Exec Node

variable {T P V N ρ : Type} {S : Setup T P V N ρ} {U : Container → Prop} {o : Origin} {root : Hash}
  {before : List Batch}

/-! ## The live engine -/

/-- What a live engine adds: the accepted chain and the chain of every issued container
are the lines to their hashes. -/
structure Standing (S : Setup T P V N ρ) (U : Container → Prop) (o : Origin) (root : Hash)
    (before : List Batch) (c : Core T) : Prop where
  mirrored : Mirrored S o c
  accepted : Line S U o root before c.accepted c.host.tracker.finalizedHash
  recs : ∀ id r, c.recs.get id = some r → r.issued = true → Line S U o root before r.line r.c.eth.hash

section Standing

variable {c : Core T}

theorem Standing.congr (h : Standing S U o root before c) {c' : Core T}
    (hm : Mirrored S o c') (ha : c'.accepted = c.accepted)
    (hf : c'.host.tracker.finalizedHash = c.host.tracker.finalizedHash)
    (hr : ∀ id r, c'.recs.get id = some r → r.issued = true →
      c.recs.get id = some r ∨ Line S U o root before r.line r.c.eth.hash) :
    Standing S U o root before c' where
  mirrored := hm
  accepted := by
    rw [ha, hf]
    exact h.accepted
  recs id r hid hi := (hr id r hid hi).elim (fun hold => h.recs id r hold hi) (fun hl => hl)

/-- Announcing a head. -/
theorem Standing.emitHead (h : Standing S U o root before c) :
    Standing S U o root before (c.emitHead S) := by
  rw [Core.emitHead]
  cases c.prefHash S with
  | none => exact h
  | some hash =>
    dsimp only
    split
    · exact h
    · obtain ⟨h1, h2, h3⟩ := head_frame c.host.tracker c.host.sink hash
      have hhead : Standing S U o root before (Core.head { c with lastPref := hash } hash).2 :=
        h.congr (h.mirrored.congr rfl h1 h2 rfl h3 rfl rfl h.mirrored.execs) rfl h2
          (fun _ _ hr _ => Or.inl hr)
      cases hres : Core.head { c with lastPref := hash } hash with
      | mk res c' =>
        rw [hres] at hhead
        cases res with
        | ok u => exact hhead
        | error e =>
          exact hhead.congr
            (hhead.mirrored.congr rfl rfl rfl rfl rfl rfl rfl hhead.mirrored.execs) rfl rfl
            (fun _ _ hr _ => Or.inl hr)

section Lines

variable (hU : BlocksByHash U) (hroot : RootAt U o root before)
include hU hroot

/-- The parent `tryIssue` finds is at the end of its line, and a block would be executed
on its state. -/
theorem Standing.parent {tree : T → Tree} (h : Standing S U o root before c)
    (hcore : CoreInv U (Executed S U o root before) tree c) {r : Rec}
    {p : Hash × UInt64 × List Batch} (hp : c.parentOf r = some p) (blk : EthBlock) :
    Line S U o root before p.2.2 p.1 ∧
      OnParent (o.state S.keccak) (c.execCall S p.1 p.2.2 blk) := by
  have hT : ∀ b, Executed S U o root before b → Heads U b := fun b hb => hb.1
  have hd := determines_heads hU.headers hT
  have hpub := hcore.mid.published
  obtain ⟨-, hdesc, honLast, honRec⟩ := hcore.parentOf hp
  obtain ⟨hash, hof, -, es, hpath⟩ := hcore.mid.descends hU.headers hT hdesc
  obtain rfl : hash = p.1 := by
    cases hof with
    | last hid => exact (honLast hid).1.symm
    | issued hr hi _ => exact (honRec _ hr).2.1
  have hline : Line S U o root before p.2.2 p.1 := by
    rw [Core.parentOf] at hp
    split at hp
    · obtain rfl := Option.some.inj hp
      have hacc := h.accepted
      rw [hcore.mid.hash] at hacc
      exact hacc
    · split at hp
      · cases hp
      · rename_i pr hpr
        split at hp
        · rename_i hi
          obtain rfl := Option.some.inj hp
          exact h.recs _ pr hpr hi
        · cases hp
  have htable : ∀ k b, c.host.tracker.table.get k = some b →
      b.hash = k ∧ Executed S U o root before b :=
    fun k b hk => ⟨(hpub.table k b hk).1, (hpub.table k b hk).2.1⟩
  obtain ⟨hl, hjoins⟩ := Line.of_path hU hroot htable h.accepted hpath
  refine ⟨hline, ?_⟩
  rw [hline.unique hU hroot hl]
  refine h.mirrored.onParent hpath ?_ ?_ hjoins blk
  · -- the finalized hash is not above itself
    cases hk : c.host.tracker.table.get c.host.tracker.finalizedHash with
    | none => rfl
    | some b =>
      obtain ⟨hbh, hbT, hlt⟩ := hpub.table _ b hk
      rw [UInt64.lt_iff_toNat_lt, hd.block b hbT, hbh, ← hpub.finalized] at hlt
      exact absurd hlt (Nat.lt_irrefl _)
  · intro k b b' hb hb'
    obtain ⟨-, hbT, -⟩ := hpub.table k b hb
    obtain ⟨hbh', hbT', -⟩ := hpub.table _ b' hb'
    rw [hd.block b hbT, hd.block b' hbT', hbh', hd.succ b hbT]
    exact Nat.lt_succ_self _

/-- The batch of a container that is executed on its parent is at the end of its line. -/
theorem Standing.executed {tree : T → Tree} (h : Standing S U o root before c)
    (hcore : CoreInv U (Executed S U o root before) tree c) {id : ID} {r : Rec}
    {p : Hash × UInt64 × List Batch} (hr : c.recs.get id = some r) (hi : r.issued = false)
    (hp : c.parentOf r = some p) (hph : r.c.eth.parentHash = p.1)
    (hn : r.c.eth.number = p.2.1 + 1) {b : Batch} (hb : (c.execute S p.1 p.2.2 r.c.eth).1 = .ok b) :
    b.hash = r.c.eth.hash ∧ b.block = r.c.eth.number ∧ Line S U o root before p.2.2 b.parent ∧
      Line S U o root before (p.2.2 ++ [b]) b.hash := by
  obtain ⟨hline, -, -, -, -, -, -, hreads⟩ := h.parent hU hroot hcore hp r.c.eth
  obtain ⟨⟨pc, hpcU, hpch, hpcn⟩, -⟩ := hcore.parentOf hp
  obtain ⟨ops, hops, rfl⟩ := execute_ok c hb
  rw [show readKey S.keccak c.host.handle c.host.sink.env (c.host.exec.viewAt p.1) =
    fun k => .ok (foldBatches p.2.2 (o.state S.keccak) k) from funext hreads] at hops
  have hnum : r.c.eth.number.toNat = o.above (p.2.2.length + 1) := by
    have hpn := hline.number hU.headers hroot
    rw [← hpch, numberOf_eq hU.headers hpcU, hpcn] at hpn
    rw [hcore.mid.number_succ hr hi hn, hpn, Origin.above, Origin.above]
    omega
  exact ⟨rfl, rfl, hline, hline.step (hcore.mid.recs id r hr).2 hph hnum hops⟩

/-- Issuing a container. -/
theorem Standing.issue {tree : T → Tree} (h : Standing S U o root before c)
    (hcore : CoreInv U (Executed S U o root before) tree c) {id : ID} {r : Rec}
    {p : Hash × UInt64 × List Batch} (hr : c.recs.get id = some r) (hi : r.issued = false)
    (hp : c.parentOf r = some p) : Standing S U o root before (c.issue S r p).2 := by
  have hfresh := hcore.mid.fresh id r hr hi
  have hexecs : ∀ x ∈ c.execs ++ [c.execCall S p.1 p.2.2 r.c.eth], OnParent (o.state S.keccak) x :=
    List.forall_mem_append.mpr ⟨h.mirrored.execs,
      List.forall_mem_singleton.mpr (h.parent hU hroot hcore hp r.c.eth).2⟩
  rw [Core.issue]
  split
  · exact h.congr (h.mirrored.congr rfl rfl rfl rfl rfl rfl rfl h.mirrored.execs) rfl rfl
      (fun id' r' hr' _ => Or.inl (get_erase_iff.mp hr').2)
  · rename_i hmatch
    rw [not_or, not_not, not_not] at hmatch
    obtain ⟨hph, hn⟩ := hmatch
    rcases execute_cases S.evm S.keccak c.host.handle c.host.sink.env c.host.exec p.1 r.c.eth with
      ⟨e, hexec⟩ | ⟨ops, -, hexec⟩
    · have hres : c.execute S p.1 p.2.2 r.c.eth =
          (.error e, { c with execs := c.execs ++ [c.execCall S p.1 p.2.2 r.c.eth] }) := by
        rw [Core.execute, hexec]
      rw [hres]
      exact h.congr (h.mirrored.congr rfl rfl rfl rfl rfl rfl rfl hexecs) rfl rfl
        (fun _ _ hr' _ => Or.inl hr')
    · have hok : (c.execute S p.1 p.2.2 r.c.eth).1 = .ok (r.c.eth.batch p.1 ops) :=
        congrArg Prod.fst hexec
      obtain ⟨hbh, hbn, -, hline⟩ := h.executed hU hroot hcore hr hi hp hph hn hok
      have hlt : c.host.tracker.finalizedHeight < (r.c.eth.batch p.1 ops).block := by
        rw [hbn, hcore.mid.height]
        exact hfresh
      have hver : Standing S U o root before
          (((c.execute S p.1 p.2.2 r.c.eth).2).verified (r.c.eth.batch p.1 ops)) := by
        refine h.congr (h.mirrored.verified hlt (congrArg Prod.snd hexec) rfl rfl rfl rfl rfl hexecs)
          rfl ?_ (fun _ _ hr' _ => Or.inl hr')
        show (c.host.tracker.verified (r.c.eth.batch p.1 ops)).finalizedHash = _
        rw [verified_above hlt]
      cases hres : c.execute S p.1 p.2.2 r.c.eth with
      | mk res c1 =>
        rw [hres] at hok hver
        dsimp only at hok
        subst hok
        dsimp only
        split
        · exact hver.congr (hver.mirrored.congr rfl rfl rfl rfl rfl rfl rfl hver.mirrored.execs) rfl rfl
            (fun _ _ hr' _ => Or.inl hr')
        · rename_i cons hadd
          refine Standing.emitHead (hver.congr
            (hver.mirrored.congr rfl rfl rfl rfl rfl rfl rfl hver.mirrored.execs) rfl rfl ?_)
          intro id' r' hr' hi'
          dsimp only [Core.join] at hr'
          rw [Table.get_set] at hr'
          split at hr'
          · obtain rfl := Option.some.inj hr'
            exact Or.inr hline
          · exact Or.inl hr'

/-- Accepting a container: its batch is what the store is given. -/
theorem Standing.onAccept (hevm : Captures S.evm)
    (hbefore : ContractChain (o.base.state S.keccak) (o.stored ++ before))
    {t : Tree} (h : Standing S U o root before c) (hm : Mid U (Executed S U o root before) t c)
    {con : Container} (hproc : t.procs con.id = some con) (hpar : con.parentID = t.last)
    (hm' : Mid U (Executed S U o root before) (t.accept con) (c.onAccept con).2)
    (hw : Wrote (Executed S U o root before) c (c.onAccept con).2 con) :
    Standing S U o root before (c.onAccept con).2 := by
  have hT : ∀ b, Executed S U o root before b → Heads U b := fun b hb => hb.1
  have hd := determines_heads hU.headers hT
  obtain ⟨r, hr, hi, rfl⟩ := (hm.procs _ con).mp hproc
  obtain ⟨hph, -⟩ := hm.onLast _ r hr hi (by rw [hpar, hm.last])
  obtain ⟨b, hbT, hbh, henv⟩ := hw.env
  obtain ⟨hheads, bs, hl, hl'⟩ := hbT
  -- the container's line is the accepted chain and the batch written
  obtain rfl : bs = c.accepted := by
    have hpb : b.parent = c.host.tracker.finalizedHash := by
      rw [hd.parent b ⟨hheads, bs, hl, hl'⟩, hbh, parentHashOf_eq hU.headers (hm.recs _ r hr).2, hph, hm.hash]
    rw [hpb] at hl
    exact hl.unique hU hroot h.accepted
  have hline : r.line = c.accepted ++ [b] := by
    rw [hbh] at hl'
    exact (h.recs _ r hr hi).unique hU hroot hl'
  have hacc : (c.onAccept r.c).2.accepted = c.accepted ++ [b] := by
    show c.accepted ++ ((c.recs.get r.c.id).bind (fun r' => r'.line.getLast?)).toList = _
    rw [hr, Option.bind_some, hline, List.getLast?_concat]
    rfl
  have hfin : (c.onAccept r.c).2.host.tracker.finalizedHash = b.hash := by
    rw [hm'.hash, hbh]
    rfl
  have hnum : b.block.toNat = o.genesis.toNat + (o.stored ++ c.accepted).length + 1 := by
    rw [hd.block b ⟨hheads, _, hl, hl'⟩, hl'.number hU.headers hroot, Origin.above]
    simp only [List.length_append, List.length_singleton]
    omega
  have hcon := hl'.contract hevm hbefore
  rw [← List.append_assoc] at hcon
  refine ⟨⟨?_, fun k => ?_, ?_, ?_, h.mirrored.execs⟩, ?_, fun id r' hr' hi' => ?_⟩
  · rw [hw.exec]
    exact h.mirrored.dry
  · rw [hw.exec, hw.table]
    dsimp only [Executor.onFinalized, Executor.prune]
    rw [Table.get_keep, Table.get_keep, h.mirrored.layers]
    cases c.host.tracker.table.get k with
    | none => rfl
    | some b' =>
      rw [Option.map_some, Option.filter_some, Option.filter_some, (newLayer_block_parent b').1]
      split <;> rfl
  · rw [hacc, henv, ← List.append_assoc]
    exact h.mirrored.holding.accept hnum (ContractChain.append.mp hcon).2.1 _
  · rw [Core.lastHash, hacc, hfin, List.getLast?_concat]
    rfl
  · rw [hacc, hfin]
    exact hl'
  · exact h.recs id r' (get_onAccept.mp hr').2.1 hi'

omit hU hroot in
theorem Standing.onReject (h : Standing S U o root before c) (con : Container) :
    Standing S U o root before (c.onReject con) :=
  h.congr (h.mirrored.congr rfl rfl rfl rfl rfl rfl rfl h.mirrored.execs) rfl rfl
    (fun _ _ hr _ => Or.inl (get_erase_iff.mp hr).2)

end Lines

end Standing

/-- What holds of a live engine between two moves. -/
structure LiveInv (S : Setup T P V N ρ) (U : Container → Prop) (o : Origin) (root : Hash)
    (before : List Batch) (tree : T → Tree) (c : Core T) : Prop where
  core : CoreInv U (Executed S U o root before) tree c
  standing : Standing S U o root before c

section Live

variable {tree : T → Tree} (hS : S.topo.Contract tree) (hU : BlocksByHash U)
  (hroot : RootAt U o root before) (hevm : Captures S.evm)
  (hbefore : ContractChain (o.base.state S.keccak) (o.stored ++ before))
include hS hU hroot hevm hbefore

theorem LiveInv.recordPoll {c : Core T} (h : LiveInv S U o root before tree c) (votes : V) :
    LiveInv S U o root before tree (c.recordPoll S votes).2 ∨ (c.recordPoll S votes).2.BusFailed := by
  have hT : ∀ b, Executed S U o root before b → Heads U b := fun b hb => hb.1
  have hrule := recordPoll_rule
    (fun t c => Mid U (Executed S U o root before) t c ∧ Standing S U o root before c)
    (fun t c con hI hproc hpar =>
      (hI.1.onAccept hU.headers hT hproc hpar).imp_left (fun ⟨hok, hm, hw⟩ =>
        ⟨hok, hm, hI.2.onAccept hU hroot hevm hbefore hI.1 hproc hpar hm hw⟩))
    (fun t c con hI => ⟨hI.1.onReject con, hI.2.onReject con⟩)
    (fun t c cons hI => ⟨hI.1.congr rfl rfl rfl rfl rfl rfl rfl rfl,
      hI.2.congr (hI.2.mirrored.congr rfl rfl rfl rfl rfl rfl rfl hI.2.mirrored.execs) rfl rfl
        (fun _ _ hr _ => Or.inl hr)⟩)
    hS votes ⟨h.core.mid, h.standing⟩
  rcases h.core.recordPoll hS hU.headers hT votes with hcore | hbus
  · exact hrule.imp_left (fun hI => ⟨hcore, hI.1.2⟩)
  · exact Or.inr hbus

/-- Every move keeps the invariant, unless the bus cannot commit. -/
theorem LiveInv.move {c c' : Core T} (h : LiveInv S U o root before tree c)
    (hmove : Move S U c c') : LiveInv S U o root before tree c' ∨ c'.BusFailed := by
  have hT : ∀ b, Executed S U o root before b → Heads U b := fun b hb => hb.1
  have hm := h.standing.mirrored
  cases hmove with
  | insert con hcon hnew hlast hnum =>
    refine Or.inl ⟨h.core.insert hcon hnew hlast hnum, h.standing.congr
      (hm.congr rfl rfl rfl rfl rfl rfl rfl hm.execs) rfl rfl (fun id r hr hi => Or.inl ?_)⟩
    exact get_set_issued hr hi
  | wait pending =>
    exact Or.inl ⟨⟨h.core.mid.congr rfl rfl rfl rfl rfl rfl rfl rfl, h.core.rooted, h.core.clean⟩,
      h.standing.congr (hm.congr rfl rfl rfl rfl rfl rfl rfl hm.execs) rfl rfl
        (fun _ _ hr _ => Or.inl hr)⟩
  | @issue id r p hr hi hp =>
    refine (h.core.issue hS hU.headers hT hr hi hp ?_).imp_left
      (fun hcore => ⟨hcore, h.standing.issue hU hroot h.core hr hi hp⟩)
    intro b hph hn hb hheads
    obtain ⟨-, -, hl, hl'⟩ := h.standing.executed hU hroot h.core hr hi hp hph hn hb
    exact ⟨hheads, _, hl, hl'⟩
  | poll votes => exact h.recordPoll hS hU hroot hevm hbefore votes
  | head => exact (h.core.emitHead hS hU.headers hT).imp_left (fun hc => ⟨hc, h.standing.emitHead⟩)

theorem LiveInv.moves {c c' : Core T} (h : LiveInv S U o root before tree c)
    (hmoves : Moves S U c c') : LiveInv S U o root before tree c' ∨ c'.BusFailed := by
  induction hmoves with
  | refl => exact Or.inl h
  | tail hmoves hmove ih =>
    rcases ih with hinv | hbus
    · exact hinv.move hS hU hroot hevm hbefore hmove
    · exact Or.inr (busFailed_mono hbus hmove.grows)

end Live

/-! ## The gap -/

/-- Between two blocks of the gap: nothing is pending, and the tracker's height counts
the accepted blocks. -/
structure GapInv (S : Setup T P V N ρ) (o : Origin) (c : Core T) : Prop where
  mirrored : Mirrored S o c
  height : c.host.tracker.finalizedHeight.toNat = o.above c.accepted.length

/-- Every execution so far was on its parent's state. -/
def AllOnParent (S : Setup T P V N ρ) (o : Origin) (c : Core T) : Prop :=
  ∀ x ∈ c.execs, OnParent (o.state S.keccak) x

/-- The next block of the gap is executed on what was accepted. -/
theorem GapInv.onParent {chain : Table UInt64 Container} {h : UInt64} {parent : Hash} {c : Core T}
    (hg : GapInv S o c) (hI : LoopInv chain h parent c) (blk : EthBlock) :
    OnParent (o.state S.keccak) (c.execCall S parent c.accepted blk) := by
  have hpath : c.host.tracker.table.Path Batch.parent c.host.tracker.finalizedHash parent [] := by
    rw [hI.hash]
    exact .root
  have hx := hg.mirrored.onParent (S := S) hpath (hI.rest.table _)
    (fun k b b' hb => by rw [hI.rest.table] at hb; cases hb) hI.hash blk
  rwa [List.map_nil, List.reverse_nil, List.append_nil] at hx

theorem GapInv.turn (hevm : Captures S.evm) {chain : Table UInt64 Container} {h : UInt64}
    {parent : Hash} {c : Core T} {con : Container} (hg : GapInv S o c) (hI : LoopInv chain h parent c)
    (hcn : con.eth.number = h) :
    match c.backfillTurn S h parent con.eth with
    | (none, c') => Stopped c c' → AllOnParent S o c'
    | (some _, c') => LoopInv chain (h + 1) con.eth.hash c' → Ran h parent con c c' → GapInv S o c' := by
  have hx := hg.onParent hI con.eth
  have hexecs : ∀ x ∈ c.execs ++ [c.execCall S parent c.accepted con.eth],
      OnParent (o.state S.keccak) x :=
    List.forall_mem_append.mpr ⟨hg.mirrored.execs, List.forall_mem_singleton.mpr hx⟩
  rcases backfillTurn_cases S c h parent con.eth with
    ⟨e, he⟩ | ⟨ops, hops, ⟨t, s, -, hres⟩ | ⟨e, t, s, -, hres⟩⟩
  · rw [he]
    exact fun _ => hexecs
  · rw [hres]
    intro hI' hran
    obtain ⟨-, -, -, -, -, -, hreads⟩ := hx
    rw [show readKey S.keccak c.host.handle c.host.sink.env (c.host.exec.viewAt parent) =
      fun k => .ok (foldBatches c.accepted (o.state S.keccak) k) from funext hreads] at hops
    obtain ⟨ops', hacc, henv⟩ := hran.env
    have hbatch : con.eth.batch parent ops = con.eth.batch parent ops' :=
      List.singleton_inj.mp (List.append_inj' hacc rfl).2
    have hnum : (con.eth.batch parent ops).block.toNat =
        o.genesis.toNat + (o.stored ++ c.accepted).length + 1 := by
      show con.eth.number.toNat = _
      rw [hran.next, hg.height, Origin.above, List.length_append]
      omega
    have hcon : Contract (foldBatches (o.stored ++ c.accepted) (o.base.state S.keccak))
        (con.eth.batch parent ops) := by
      rw [foldBatches_append]
      exact hevm _ _ _ hops _
    refine ⟨⟨?_, fun k => ?_, ?_, ?_, hexecs⟩, ?_⟩
    · exact hg.mirrored.dry
    · rw [hI'.rest.table k]
      dsimp only [Core.turned, Executor.onFinalized, Executor.prune, Executor.record]
      rw [Table.get_keep, Table.get_set, hg.mirrored.layers, hI.rest.table]
      split
      · -- the block itself is not above its height
        rw [Option.filter_some, (newLayer_block_parent _).1, ← hcn]
        simp [EthBlock.batch]
      · rfl
    · show Holding _ _ _ (o.stored ++ (c.accepted ++ [con.eth.batch parent ops])) _ s.env
      rw [show s.env = _ from henv, ← List.append_assoc, ← hbatch]
      exact hg.mirrored.holding.accept hnum hcon h
    · rw [Core.lastHash, hran.finalized.2]
      dsimp only
      rw [List.getLast?_concat]
      rfl
    · rw [hran.finalized.1, hran.next, hg.height, Origin.above, Origin.above]
      dsimp only
      rw [List.length_append, List.length_singleton]
      omega
  · rw [hres]
    exact fun _ => hexecs

/-- An engine that has executed nothing yet, over the store it starts with. -/
structure Fresh (S : Setup T P V N ρ) (o : Origin) (c : Core T) : Prop where
  dry : c.host.exec.dryBase = none
  layers : ∀ h, c.host.exec.pending.get h = none
  holding : Holding S.keccak o.base o.genesis o.stored c.host.handle c.host.sink.env
  execs : c.execs = []

theorem Fresh.makeSink {c : Core T} (h : Fresh S o c) (headers : List (Hash × UInt64))
    {height : UInt64} (hash : Hash) (hheight : height.toNat = o.above 0) :
    GapInv S o (c.makeSink S headers height hash) := by
  have hexec : (c.makeSink S headers height hash).host.exec.pending = c.host.exec.pending ∧
      (c.makeSink S headers height hash).host.exec.dryBase = c.host.exec.dryBase := by
    dsimp only [Core.makeSink]
    split <;> exact ⟨rfl, rfl⟩
  refine ⟨⟨hexec.2.trans h.dry, fun k => ?_, ?_, rfl, ?_⟩, hheight⟩
  · rw [hexec.1, h.layers]
    rfl
  · show Holding _ _ _ (o.stored ++ []) _ _
    rw [List.append_nil]
    exact h.holding
  · show ∀ x ∈ c.execs, _
    rw [h.execs]
    simp

/-- What the gap loop leaves of an engine that has executed nothing before. -/
theorem Fresh.backfillLoop (hU : BlocksByHash U) (hevm : Captures S.evm) {b : Backfill}
    {start : Container} {cs : List Container} (hchain : Chain U b start cs) {c : Core T}
    (hpre : PreLive c) (h : Fresh S o c) (headers : List (Hash × UInt64)) {height : UInt64} {hash : Hash}
    (hs : startPoint S b.chain start = .ok (height, hash)) (hheight : height.toNat = o.above 0)
    (n : Nat) :
    match (c.makeSink S headers height hash).backfillLoop S b.chain n (height + 1) hash with
    | (true, c') => ∃ h parent, ((LoopInv b.chain h parent c' ∧ GapInv S o c') ∨ c'.BusFailed) ∧
        b.chain.get h = none
    | (false, c') => AllOnParent S o c' ∨ c'.BusFailed := by
  refine (hpre.makeSink headers (hchain.start hs).1).loop_rule hU.headers hchain
    (fun _ _ _ _ hg => hg.mirrored.execs) (fun h parent x con hI hg hget => ?_)
    (h.makeSink headers hash hheight) n
  exact hg.turn hevm hI (hchain.of_get hget).2.1

/-- The live engine starts on the anchor, with the accepted chain of the gap. -/
theorem GapInv.anchored {tree : T → Tree} (hS : S.topo.Contract tree) (hU : BlocksByHash U)
    {b : Backfill} {low : Container} {cs : List Container} (hchain : Chain U b low cs)
    {anchor : Container} (hanchor : b.anchor = some anchor) {h : UInt64} {parent : Hash} {c : Core T}
    (hI : LoopInv b.chain h parent c) (hg : GapInv S o c) (hend : b.chain.get h = none) :
    RootAt U o anchor.eth.hash c.accepted ∧
      LiveInv S U o anchor.eth.hash c.accepted tree (c.anchored S anchor) := by
  have hcore : CoreInv U (Executed S U o anchor.eth.hash c.accepted) tree (c.anchored S anchor) :=
    hI.anchored hS hU.headers hchain hanchor hend
  have hhash : c.host.tracker.finalizedHash = anchor.eth.hash := hcore.mid.hash
  have hheight : c.host.tracker.finalizedHeight = anchor.eth.number := hcore.mid.height
  obtain ⟨pc, hpc, -⟩ := hI.stands
  rw [hI.next] at hend
  obtain rfl : anchor = pc := Option.some.inj (hanchor.symm.trans (hchain.top hpc hend))
  have hm := hg.mirrored
  refine ⟨⟨anchor, (hchain.of_get hpc).2.2, rfl, by rw [← hheight, hg.height]⟩, hcore, ?_, ?_, ?_⟩
  · exact hm.congr rfl rfl rfl rfl rfl rfl rfl hm.execs
  · show Line S U o anchor.eth.hash c.accepted c.accepted c.host.tracker.finalizedHash
    rw [hhash]
    exact .root
  · intro id r hr
    have hcr : c.recs.get id = some r := hr
    rw [hI.pre.recs] at hcr
    cases hcr

/-! ## Every run -/

/-- What holds of every engine reached by which the sink was made at most once: nothing
was executed yet, or the gap stopped, or the engine is live. -/
inductive ParentInv (S : Setup T P V N ρ) (U : Container → Prop) (o : Origin) (tree : T → Tree)
    (e : Engine T P N) : Prop where
  | fresh (hp : e.phase ≠ .live) (hf : Fresh S o e.core)
  | stopped (hp : e.phase ≠ .live) (hmade : 0 < e.core.made) (hx : AllOnParent S o e.core)
  | live {root : Hash} {before : List Batch} (hp : e.phase = .live) (hroot : RootAt U o root before)
      (hbefore : ContractChain (o.base.state S.keccak) (o.stored ++ before))
      (hinv : LiveInv S U o root before tree e.core)

theorem ParentInv.allOnParent {tree : T → Tree} {e : Engine T P N} (h : ParentInv S U o tree e) :
    AllOnParent S o e.core := by
  cases h with
  | fresh hp hf =>
    intro x hx
    rw [hf.execs] at hx
    cases hx
  | stopped hp hmade hx => exact hx
  | live hp hroot hbefore hinv => exact hinv.standing.mirrored.execs

/-- The core stays as it is, out of the live phase. -/
theorem ParentInv.pre {tree : T → Tree} {e e' : Engine T P N} (h : ParentInv S U o tree e)
    (hp : e.phase ≠ .live) (hp' : e'.phase ≠ .live) (hm : e'.core.made = e.core.made)
    (hh : e'.core.host = e.core.host) (hx : e'.core.execs = e.core.execs) :
    ParentInv S U o tree e' := by
  cases h with
  | fresh _ hf =>
    refine .fresh hp' ⟨?_, ?_, ?_, hx.trans hf.execs⟩ <;> rw [hh]
    · exact hf.dry
    · exact hf.layers
    · exact hf.holding
  | stopped _ hmade hall =>
    refine .stopped hp' (by rw [hm]; exact hmade) ?_
    rw [AllOnParent, hx]
    exact hall
  | live hlive _ _ _ => exact absurd hlive hp

/-- The executor's handle looks at the store. -/
theorem ParentInv.looks {tree : T → Tree} {e : Engine T P N} (h : ParentInv S U o tree e)
    {handle : Handle} (hc : Coherent handle e.core.host.sink.env) :
    ParentInv S U o tree
      { e with core := { e.core with host := { e.core.host with handle := handle } } } := by
  cases h with
  | fresh hp hf =>
    have hh := hf.holding
    exact .fresh hp ⟨hf.dry, hf.layers, ⟨hh.refines, hc, hh.complete, hh.contract⟩, hf.execs⟩
  | stopped hp hmade hx => exact .stopped hp hmade hx
  | live hp hroot hbefore hinv =>
    have hcore := hinv.core
    have hst := hinv.standing
    have hh := hst.mirrored.holding
    refine .live hp hroot hbefore ⟨⟨hcore.mid.congr rfl rfl rfl rfl rfl rfl rfl rfl, hcore.rooted,
      hcore.clean⟩, ⟨hst.mirrored.dry, hst.mirrored.layers, ?_, hst.mirrored.last,
      hst.mirrored.execs⟩, hst.accepted, hst.recs⟩
    exact ⟨hh.refines, hc, hh.complete, hh.contract⟩

/-- A failed bus, or a sink made a second time. -/
def Core.Spoilt (c : Core T) : Prop := c.BusFailed ∨ 1 < c.made

theorem spoilt_mono {c c' : Core T} (h : c.Spoilt) (hg : Grows c c') : c'.Spoilt :=
  h.imp (fun hb => busFailed_mono hb hg) (fun hm => Nat.lt_of_lt_of_le hm hg.made)

theorem not_spoilt {c : Core T} (hmade : c.made ≤ 1) (hbus : ∀ f ∈ c.fatal, f.isBus = false) :
    ¬ c.Spoilt := by
  rintro (⟨f, hf, hfb⟩ | hm)
  · rw [hbus f hf] at hfb
    cases hfb
  · exact absurd hmade (Nat.not_le.mpr hm)

/-- A new executor over a finished store that is built of its blocks. -/
theorem fresh_new {site : Site} (hbuilt : Built S.keccak o.base o.genesis site o.stored)
    {host : Host} (henv : host.sink.env = site.env) (hhandle : Coherent host.handle host.sink.env)
    (hcomplete : row host.sink.env .baselineComplete ≠ none) (hexec : host.exec = Executor.new)
    (net : N) : Fresh S o (Engine.new S host net).core := by
  refine ⟨?_, ?_, ⟨?_, hhandle, hcomplete, hbuilt.inv.chain⟩, rfl⟩
  · show host.exec.dryBase = none
    rw [hexec]
    rfl
  · show ∀ h, host.exec.pending.get h = none
    rw [hexec]
    exact fun _ => rfl
  · show Refines _ _ _ _ host.sink.env
    rw [henv]
    exact hbuilt.inv.refines

/-! ## A run with a fork -/

namespace Sample

open Store.Sample

/-- The finished baseline without blocks. -/
def origin : Origin := ⟨trie, 5, []⟩

/-- The containers of the run below. -/
def forked : List Bytes := [[105, 104, 5, 4, 5], [106, 105, 6, 5, 6], [107, 106, 7, 6, 7]]

/-- Two containers on top of the anchor, the second on the first. -/
def stacked : Engine Procs Unit UInt32 :=
  (alive.onContainer setup 0 [106, 105, 6, 5, 6]).onContainer setup 0 [107, 106, 7, 6, 7]

theorem stacked_run : Run setup (fun c => c ∈ forked.filterMap parse) (fun _ _ => True)
    (Engine.new setup host 0) stacked := by
  refine ((alive_run fun c hc => ?_).call 0 (.container (node 1) [106, 105, 6, 5, 6])
    (fun c hc => ?_) trivial).call 0 (.container (node 1) [107, 106, 7, 6, 7]) (fun c hc => ?_) trivial
  all_goals
    simp only [Input.delivers, setup, parse, Option.toList_some, List.mem_singleton] at hc
    subst hc
    simp [forked, parse]

theorem forked_blocksByHash : BlocksByHash (fun c => c ∈ forked.filterMap parse) := by
  intro c c' hc hc'
  simp only [forked, parse, List.filterMap_cons, List.filterMap_nil, List.mem_cons,
    List.not_mem_nil, or_false] at hc hc'
  rcases hc with rfl | rfl | rfl <;> rcases hc' with rfl | rfl | rfl <;>
    first
    | exact fun _ => rfl
    | exact fun h => absurd h (by decide +kernel)

theorem evm_captures : Captures evm := by
  intro σ blk ops hops parent
  have hrun : ops = [.account addr (acct blk.body.length)] := by
    simp only [Evm.ops, evm] at hops
    split at hops
    · cases hops
    · exact (Except.ok.inj hops).symm
  subst hrun
  refine ⟨?_, fun a ha => ?_, fun a ha => ?_⟩
  · simp [EthBlock.batch, DestructFirst]
  · simp [EthBlock.batch] at ha
  · simp [EthBlock.batch, Op.isSlotOf] at ha

/-- A second container with the hash of the first and another body, and then a child of
the first. -/
def aliased : Engine Procs Unit UInt32 :=
  ((alive.onContainer setup 0 [106, 105, 6, 5, 6]).onContainer setup 0
    [107, 105, 6, 5, 6, 1]).onContainer setup 0 [108, 106, 7, 6, 7]

theorem aliased_run :
    Run setup (fun _ => True) (fun _ _ => True) (Engine.new setup host 0) aliased :=
  (((alive_run fun _ _ => trivial).call 0 (.container (node 1) [106, 105, 6, 5, 6])
    (fun _ _ => trivial) trivial).call 0 (.container (node 1) [107, 105, 6, 5, 6, 1])
    (fun _ _ => trivial) trivial).call 0 (.container (node 1) [108, 106, 7, 6, 7])
    (fun _ _ => trivial) trivial

end Sample

section Runs

variable {tree : T → Tree} (hS : S.topo.Contract tree) (hU : BlocksByHash U) (hevm : Captures S.evm)
  (hresume : ∃ r, S.cfg.resume = some r ∧ r.height.toNat = o.above 0)
include hS hU hevm hresume

theorem ParentInv.shift {e e' : Engine T P N} (hinv : EngineInv U tree e)
    (h : ParentInv S U o tree e) (hshift : Shift S U e e') :
    ParentInv S U o tree e' ∨ e'.core.Spoilt := by
  have hback : e.phase = .backfill → e.phase ≠ .live := fun hp => by rw [hp]; decide
  cases hshift with
  | same hp hc hl ha hchain =>
    left
    cases h with
    | fresh hpre hf => exact .fresh (by rw [hp]; exact hpre) (hc ▸ hf)
    | stopped hpre hmade hx => exact .stopped (by rw [hp]; exact hpre) (hc ▸ hmade) (hc ▸ hx)
    | live hlive hroot hbefore hinv => exact .live (hp.trans hlive) hroot hbefore (hc ▸ hinv)
  | moves hp heff =>
    cases h with
    | fresh hpre _ | stopped hpre _ _ => exact absurd hp hpre
    | live hlive hroot hbefore hlinv =>
      exact (hlinv.moves hS hU hroot hevm hbefore heff.moves).imp
        (.live (heff.phase.trans hlive) hroot hbefore) Or.inl
  | found hp a =>
    exact Or.inl (h.pre (by rw [hp]; decide) (fun hx => by cases hx) rfl rfl rfl)
  | take hp _ _ | refuse hp _ => exact Or.inl (h.pre (hback hp) (hback hp) rfl rfl rfl)
  | @stop start height hash c hp hlow hs hloop =>
    have hmade := (grows_gap _ _ _ _ hloop).2
    cases h with
    | stopped _ hpos _ => exact Or.inr (Or.inr (Nat.lt_of_le_of_lt hpos hmade))
    | live hlive _ _ _ => exact absurd hlive (hback hp)
    | fresh _ hf =>
      obtain ⟨cs, hchain⟩ := (hinv.back hp).chain hlow
      obtain ⟨r, hr, hrh⟩ := hresume
      have hheight : height.toNat = o.above 0 := by rw [(hchain.start hs).2 r hr, hrh]
      have hgap := hf.backfillLoop hU hevm hchain (hinv.pre (hback hp))
        (seeds e.back.chain start height) hs hheight e.back.chain.size
      rw [hloop] at hgap
      exact hgap.imp (.stopped (hback hp) (Nat.lt_of_le_of_lt (Nat.zero_le _) hmade)) Or.inl
  | @live start anchor height hash c hp hlow hanchor hs hloop =>
    have hmade := (grows_gap _ _ _ _ hloop).2
    cases h with
    | stopped _ hpos _ => exact Or.inr (Or.inr (Nat.lt_of_le_of_lt hpos hmade))
    | live hlive _ _ _ => exact absurd hlive (hback hp)
    | fresh _ hf =>
      obtain ⟨cs, hchain⟩ := (hinv.back hp).chain hlow
      obtain ⟨r, hr, hrh⟩ := hresume
      have hheight : height.toNat = o.above 0 := by rw [(hchain.start hs).2 r hr, hrh]
      have hgap := hf.backfillLoop hU hevm hchain (hinv.pre (hback hp))
        (seeds e.back.chain start height) hs hheight e.back.chain.size
      rw [hloop] at hgap
      obtain ⟨h', parent', hI, hend⟩ := hgap
      refine hI.imp (fun ⟨hI, hg⟩ => ?_) Or.inl
      obtain ⟨hroot, hlive⟩ := hg.anchored hS hU hchain hanchor hI hend
      exact .live rfl hroot hg.mirrored.holding.contract hlive

theorem ParentInv.shift_or {e e' : Engine T P N}
    (h : (EngineInv U tree e ∧ ParentInv S U o tree e) ∨ e.core.Spoilt) (hshift : Shift S U e e') :
    (EngineInv U tree e' ∧ ParentInv S U o tree e') ∨ e'.core.Spoilt := by
  rcases h with ⟨hinv, hpar⟩ | hsp
  · rcases hinv.shift hS hU.headers hshift with hinv' | hbus
    · exact (hpar.shift hS hU hevm hresume hinv hshift).imp_left (fun hp => ⟨hinv', hp⟩)
    · exact Or.inr (Or.inl hbus)
  · exact Or.inr (spoilt_mono hsp hshift.grows)

/-- In every run in which no two delivered blocks with one hash differ, the sink is made
once and the bus commits: every block was executed on exactly its parent's state.  The
engine starts with a new executor over a finished store whose newest block is at the
resume height. -/
theorem executed_on_parent_state {site : Site}
    (hbuilt : Built S.keccak o.base o.genesis site o.stored) {host : Host}
    (henv : host.sink.env = site.env) (hhandle : Coherent host.handle host.sink.env)
    (hcomplete : row host.sink.env .baselineComplete ≠ none) (hrest : Rest host.sink)
    (hexec : host.exec = Executor.new) {net : N} {e : Engine T P N}
    (h : Run S U (fun _ _ => True) (Engine.new S host net) e) (hmade : e.core.made ≤ 1)
    (hbus : ∀ f ∈ e.core.fatal, f.isBus = false) :
    ∀ x ∈ e.core.execs, OnParent (o.state S.keccak) x := by
  have hI : (EngineInv U tree e ∧ ParentInv S U o tree e) ∨ e.core.Spoilt := by
    refine h.rule (fun e => (EngineInv U tree e ∧ ParentInv S U o tree e) ∨ e.core.Spoilt)
      (Or.inl ⟨engineInv_new hrest, .fresh (fun hx => by cases hx) ?_⟩)
      (fun _ _ => ParentInv.shift_or hS hU hevm hresume) ?_
    · exact fresh_new hbuilt henv hhandle hcomplete hexec net
    · intro e handle hI hc
      exact hI.imp_left (fun ⟨hinv, hpar⟩ => ⟨hinv.looks handle, hpar.looks hc⟩)
  exact (hI.resolve_right (not_spoilt hmade hbus)).2.allOnParent

end Runs

open Sample Store.Sample in
/-- The child of a container that is not accepted yet was executed on its layer. -/
theorem executed_on_parent_state_stacked :
    stacked.core.execs.length = 2 ∧ ∀ x ∈ stacked.core.execs, OnParent (origin.state digest) x := by
  have hfatal : stacked.core.fatal = [] := by decide +kernel
  refine ⟨by decide +kernel, executed_on_parent_state topo_contract forked_blocksByHash evm_captures
    ⟨⟨5, none⟩, rfl, rfl⟩ finished_built rfl finished_built.inv.writer (by decide) host_rest rfl
    stacked_run (by decide +kernel) ?_⟩
  rw [hfatal]
  simp

open Sample Store.Sample in
/-- The child of a container is executed on the layer of another container that has the
same eth hash and another body. -/
theorem executed_on_another_body :
    ∃ e, Run setup (fun _ => True) (fun _ _ => True) (Engine.new setup host 0) e ∧
      e.core.made = 1 ∧ e.core.fatal = [] ∧
      ∃ x ∈ e.core.execs, x.reads (.account addr) = .ok (some (acct 1)) ∧
        foldBatches x.line (origin.state digest) (.account addr) = some (acct 0) ∧
        ¬ OnParent (origin.state digest) x := by
  have hcall : aliased.core.execs.getLast?.map (fun x =>
      (x.reads (.account addr), (foldBatches x.line (origin.state digest) (.account addr) :
        Option Account))) = some (.ok (some (acct 1)), some (acct 0)) := by
    decide +kernel
  obtain ⟨x, hx, hpair⟩ := Option.map_eq_some_iff.mp hcall
  obtain ⟨hreads, hfold⟩ := Prod.mk.inj hpair
  refine ⟨aliased, aliased_run, by decide +kernel, by decide +kernel, x,
    List.mem_of_getLast? hx, hreads, hfold, ?_⟩
  rintro ⟨-, -, pend, -, -, -, hall⟩
  have hkey := hall (.account addr)
  rw [hreads, hfold] at hkey
  exact absurd hkey (by decide +kernel)

end Flatstate.Consensus
