import Flatstate.Consensus.Anchor
import Flatstate.Consensus.Feed

set_option autoImplicit false

/-!
# Consensus: from the backfill to live

The backfill holds a contiguous chain from the anchor down.  `finishBootstrap` executes
the part above the start point, one block at a time, each accepted before the next.  If
it goes through, the tracker stands on the anchor and knows nothing above it: this is the
state the live engine starts in.  If it stops, the sink is at rest and a later attempt
starts over with a new tracker.
-/

namespace Flatstate.Consensus

open Foundation Schema Capture Store Exec Node

variable {T P V N ρ : Type} {S : Setup T P V N ρ} {U : Container → Prop} {now : Nat}

/-! ## The chain -/

/-- Containers on top of `low`, each the next one up. -/
def Ascends : Container → List Container → Prop
  | _, [] => True
  | low, c :: cs =>
    c.eth.parentHash = low.eth.hash ∧ low.eth.number = c.eth.number - 1 ∧ Ascends c cs

/-- The containers of the backfill, from the lowest to the anchor, and where each is found
by number. -/
structure Chain (U : Container → Prop) (b : Backfill) (low : Container) (cs : List Container) :
    Prop where
  bottom : b.low = some low
  anchored : b.anchor = some ((low :: cs).getLast (List.cons_ne_nil low cs))
  ascends : Ascends low cs
  delivered : ∀ c ∈ low :: cs, U c
  get : ∀ h, b.chain.get h = (low :: cs).find? (fun c => c.eth.number = h)

/-- What the backfill holds: nothing yet, or a chain. -/
def BackInv (U : Container → Prop) (b : Backfill) : Prop :=
  (b.low = none ∧ b.anchor = none ∧ ∀ k, b.chain.get k = none) ∨ ∃ low cs, Chain U b low cs

/-- A container below the top of an ascending chain has the next number above it. -/
theorem ascends_next {low : Container} {cs : List Container} (h : Ascends low cs) {x : Container}
    (hx : x ∈ low :: cs) :
    x = (low :: cs).getLast (List.cons_ne_nil low cs) ∨
      ∃ y ∈ cs, y.eth.number = x.eth.number + 1 := by
  induction cs generalizing low with
  | nil =>
    obtain rfl := List.mem_singleton.mp hx
    exact Or.inl rfl
  | cons c cs ih =>
    obtain ⟨-, hn, h⟩ := h
    rcases List.mem_cons.mp hx with rfl | hx
    · exact Or.inr ⟨c, by simp, by rw [hn, UInt64.sub_add_cancel]⟩
    · rcases ih h hx with hlast | ⟨y, hy, hyn⟩
      · left
        rw [hlast, List.getLast_cons (List.cons_ne_nil c cs)]
      · exact Or.inr ⟨y, List.mem_cons_of_mem c hy, hyn⟩

section Chain

variable {b : Backfill} {low : Container} {cs : List Container}

theorem Chain.of_get (h : Chain U b low cs) {n : UInt64} {c : Container}
    (hc : b.chain.get n = some c) : c ∈ low :: cs ∧ c.eth.number = n ∧ U c := by
  rw [h.get] at hc
  have hmem := List.mem_of_find?_eq_some hc
  exact ⟨hmem, by simpa using List.find?_some hc, h.delivered c hmem⟩

/-- The only container without a number above it is the anchor. -/
theorem Chain.top (h : Chain U b low cs) {n : UInt64} {c : Container}
    (hc : b.chain.get n = some c) (hnext : b.chain.get (n + 1) = none) : b.anchor = some c := by
  obtain ⟨hmem, rfl, -⟩ := h.of_get hc
  rcases ascends_next h.ascends hmem with hlast | ⟨y, hy, hyn⟩
  · rw [h.anchored, ← hlast]
  · rw [h.get, List.find?_eq_none] at hnext
    exact absurd hyn (by simpa using hnext y (List.mem_cons_of_mem low hy))

/-- The next container down. -/
theorem Chain.extend (h : Chain U b low cs) {c : Container} (hc : U c) (ht : b.takes c = true) :
    Chain U
      { b with chain := b.chain.set c.eth.number c, anchor := some (b.anchor.getD c), low := some c }
      c (low :: cs) := by
  rw [Backfill.takes, h.bottom] at ht
  obtain ⟨hn, hh, -⟩ : c.eth.number = low.eth.number - 1 ∧ c.eth.hash = low.eth.parentHash ∧
      c.id = low.parentID := by simpa using ht
  refine ⟨rfl, ?_, ⟨hh.symm, hn, h.ascends⟩, ?_, fun k => ?_⟩
  · dsimp only
    rw [h.anchored]
    rfl
  · exact List.forall_mem_cons.mpr ⟨hc, h.delivered⟩
  · dsimp only
    rw [Table.get_set, List.find?_cons, h.get]
    by_cases hk : k = c.eth.number
    · simp [hk]
    · simp [hk, Ne.symm hk]

end Chain

/-- The anchor itself. -/
theorem chain_anchor {b : Backfill} {c : Container} (hc : U c) (ha : b.anchor = none) (he : ∀ k, b.chain.get k = none) :
    Chain U
      { b with chain := b.chain.set c.eth.number c, anchor := some (b.anchor.getD c), low := some c }
      c [] := by
  refine ⟨rfl, ?_, trivial, by simpa using hc, fun k => ?_⟩
  · dsimp only
    rw [ha]
    rfl
  · dsimp only
    rw [Table.get_set, List.find?_cons, he]
    by_cases hk : k = c.eth.number
    · simp [hk]
    · simp [hk, Ne.symm hk]

/-! ## The loop -/

/-- The invariant rule of the gap loop: a turn that goes on keeps `I`, and one that stops
gives `D`. -/
theorem backfillLoop_rule (chain : Table UInt64 Container) (I : UInt64 → Hash → Core T → Prop)
    (D : Core T → Prop) (hD : ∀ h parent c, I h parent c → D c)
    (hturn : ∀ h parent c con, I h parent c → chain.get h = some con →
      match c.backfillTurn S h parent con.eth with
      | (none, c') => D c'
      | (some hash, c') => I (h + 1) hash c')
    (n : Nat) (h : UInt64) (parent : Hash) (c : Core T) (hI : I h parent c) :
    match c.backfillLoop S chain n h parent with
    | (true, c') => ∃ h' parent', I h' parent' c' ∧ chain.get h' = none
    | (false, c') => D c' := by
  induction n generalizing h parent c with
  | zero =>
    rw [Core.backfillLoop]
    cases hg : chain.get h with
    | none => exact ⟨h, parent, hI, hg⟩
    | some con => exact hD h parent c hI
  | succ n ih =>
    rw [Core.backfillLoop]
    cases hg : chain.get h with
    | none => exact ⟨h, parent, hI, hg⟩
    | some con =>
      have ht := hturn h parent c con hI hg
      dsimp only
      cases hres : c.backfillTurn S h parent con.eth with
      | mk o c' =>
        rw [hres] at ht
        cases o with
        | none => exact ht
        | some hash => exact ih (h + 1) hash c' ht

/-- A turn that got to the sink: the batch was verified and passed on as accepted. -/
def Core.turned (c : Core T) (x : ExecCall) (b : Batch) (block : UInt64) (t : Tracker) (s : Sink)
    (exec : Executor) : Core T :=
  { c with
    host := { c.host with tracker := t, sink := s, exec := exec }
    execs := c.execs ++ [x]
    calls := (c.calls ++ [.verified b]) ++ [.accepted block b.hash] }

/-- What a turn of the gap loop can do. -/
theorem backfillTurn_cases (S : Setup T P V N ρ) (c : Core T) (h : UInt64) (parent : Hash)
    (blk : EthBlock) :
    (∃ e, c.backfillTurn S h parent blk =
      (none, ({ c with execs := c.execs ++ [c.execCall S parent c.accepted blk] }).fail
        (.backfillExecute h e))) ∨
    ∃ ops, S.evm.ops (readKey S.keccak c.host.handle c.host.sink.env (c.host.exec.viewAt parent)) blk =
        .ok ops ∧
      ((∃ t s, (c.host.tracker.verified (blk.batch parent ops)).accepted c.host.sink h blk.hash =
          (.ok (), t, s) ∧
        c.backfillTurn S h parent blk = (some blk.hash,
          { c.turned (c.execCall S parent c.accepted blk) (blk.batch parent ops) h t s
              ((c.host.exec.record (blk.batch parent ops)).onFinalized h) with
            accepted := c.accepted ++ [blk.batch parent ops] })) ∨
      ∃ e t s, (c.host.tracker.verified (blk.batch parent ops)).accepted c.host.sink h blk.hash =
          (.error e, t, s) ∧
        c.backfillTurn S h parent blk = (none,
          (c.turned (c.execCall S parent c.accepted blk) (blk.batch parent ops) h t s
            (c.host.exec.record (blk.batch parent ops))).fail (.backfillAccept h e))) := by
  rcases execute_cases S.evm S.keccak c.host.handle c.host.sink.env c.host.exec parent blk with
    ⟨e, he⟩ | ⟨ops, hops, hok⟩
  · left
    refine ⟨e, ?_⟩
    rw [Core.backfillTurn, Core.execute]
    dsimp only
    rw [he]
  · right
    refine ⟨ops, hops, ?_⟩
    rw [Core.backfillTurn, Core.execute]
    dsimp only
    rw [hok]
    dsimp only [Core.verified, Core.accept]
    have hbh : (blk.batch parent ops).hash = blk.hash := rfl
    rw [hbh]
    cases hacc : (c.host.tracker.verified (blk.batch parent ops)).accepted c.host.sink h blk.hash with
    | mk res ts =>
      obtain ⟨t, s⟩ := ts
      cases res with
      | ok u => exact Or.inl ⟨t, s, rfl, rfl⟩
      | error e => exact Or.inr ⟨e, t, s, rfl, rfl⟩

/-- Before the engine is live: the sink is at rest and no container is kept. -/
structure PreLive (c : Core T) : Prop where
  sink : Rest c.host.sink
  recs : ∀ id, c.recs.get id = none
  clean : ∀ f ∈ c.fatal, f.isSink = false

theorem PreLive.fail {c : Core T} (h : PreLive c) {f : Fatal} (hf : f.isSink = false) :
    PreLive (c.fail f) := by
  refine ⟨h.sink, h.recs, fun g hg => ?_⟩
  rcases List.mem_append.mp hg with hg | hg
  · exact h.clean g hg
  · rwa [List.mem_singleton.mp hg]

/-- Between two blocks of the gap: `h` is the next height, and the tracker stands on the
container below it, whose hash is `parent`. -/
structure LoopInv (chain : Table UInt64 Container) (h : UInt64) (parent : Hash) (c : Core T) :
    Prop where
  pre : PreLive c
  rest : AtRest c.host.tracker c.host.sink
  next : h = c.host.tracker.finalizedHeight + 1
  hash : c.host.tracker.finalizedHash = parent
  stands : ∃ pc, chain.get c.host.tracker.finalizedHeight = some pc ∧ pc.eth.hash = parent
  feeds : Feeds c.feed0 c.calls
  feedHeight : c.feed.height = c.host.tracker.finalizedHeight
  feedHash : c.feed.hash = parent

/-- Verified and accepted at once. -/
theorem feeds_accepted {c : Core T} (c' : Core T) {b : Batch} {block : UInt64}
    (h : Feeds c.feed0 c.calls)
    (h0 : c'.feed0 = c.feed0)
    (hc : c'.calls = (c.calls ++ [.verified b]) ++ [.accepted block b.hash]) (hb : b.block = block)
    (hpar : b.parent = c.feed.hash) (hn : block.toNat = c.feed.height.toNat + 1) :
    Feeds c'.feed0 c'.calls ∧ c'.feed.height = block ∧ c'.feed.hash = b.hash := by
  have hver : (c.calls ++ [Call.verified b]).foldl Feed.next c.feed0 = c.feed.next (.verified b) := by
    rw [List.foldl_append]
    rfl
  have hfeed : c'.feed = (c.feed.next (.verified b)).next (.accepted block b.hash) := by
    rw [Core.feed, h0, hc, List.foldl_append, hver]
    rfl
  refine ⟨?_, by rw [hfeed]; rfl, by rw [hfeed]; rfl⟩
  rw [h0, hc]
  refine feeds_concat (feeds_concat h trivial) ?_
  rw [hver]
  exact ⟨hn, b, Function.update_self _ _ _, hb, hpar⟩

/-- What a turn that goes on leaves: the block is the next one up, and the store has its
batch. -/
structure Ran (h : UInt64) (parent : Hash) (con : Container) (c c' : Core T) : Prop where
  next : con.eth.number.toNat = c.host.tracker.finalizedHeight.toNat + 1
  finalized : c'.host.tracker.finalizedHeight = con.eth.number ∧
    c'.host.tracker.finalizedHash = con.eth.hash
  env : ∃ ops, c'.accepted = c.accepted ++ [con.eth.batch parent ops] ∧
    c'.host.sink.env = setFinalized (writeBlock c.host.sink.env (con.eth.batch parent ops)) h

/-- What a turn that stops leaves: the store as it was. -/
structure Stopped (c c' : Core T) : Prop where
  pre : PreLive c'
  env : c'.host.sink.env = c.host.sink.env
  accepted : c'.accepted = c.accepted
  startHash : c'.startHash = c.startHash

theorem LoopInv.turn {chain : Table UInt64 Container} (hU : HeadersByHash U)
    (hchain : ∀ n con, chain.get n = some con → con.eth.number = n ∧ U con) {h : UInt64}
    {parent : Hash} {c : Core T} {con : Container} (hI : LoopInv chain h parent c)
    (hg : chain.get h = some con) :
    match c.backfillTurn S h parent con.eth with
    | (none, c') => Stopped c c' ∨ c'.BusFailed
    | (some hash, c') => hash = con.eth.hash ∧ LoopInv chain (h + 1) hash c' ∧
        Ran h parent con c c' := by
  obtain ⟨hcn, hcU⟩ := hchain h con hg
  obtain ⟨pc, hpc, hpch⟩ := hI.stands
  obtain ⟨hpcn, hpcU⟩ := hchain _ pc hpc
  rcases backfillTurn_cases S c h parent con.eth with ⟨e, he⟩ | ⟨ops, -, hturn⟩
  · rw [he]
    refine Or.inl ⟨PreLive.fail ?_ rfl, rfl, rfl, rfl⟩
    exact ⟨hI.pre.sink, hI.pre.recs, hI.pre.clean⟩
  · by_cases hlt : c.host.tracker.finalizedHeight < con.eth.number
    · -- the next block up
      have hsucc : con.eth.number.toNat = c.host.tracker.finalizedHeight.toNat + 1 := by
        have hpos := UInt64.lt_iff_toNat_lt.mp hlt
        rw [hcn, hI.next, UInt64.toNat_add] at hpos ⊢
        have := c.host.tracker.finalizedHeight.toNat_lt
        simp only [UInt64.toNat_one] at hpos ⊢
        omega
      have hfin : c.host.tracker.finalizedHeight.toNat = numberOf U c.host.tracker.finalizedHash := by
        rw [hI.hash, ← hpch, numberOf_eq hU hpcU, hpcn]
      have hnum : con.eth.number.toNat = numberOf U con.eth.hash := (numberOf_eq hU hcU).symm
      have hacc := hI.rest.accepted (b := con.eth.batch parent ops) hI.hash.symm hlt hfin hnum
        (by rw [← hfin, ← hsucc]; exact hnum.symm)
      have hargs : (c.host.tracker.verified (con.eth.batch parent ops)).accepted c.host.sink
          (con.eth.batch parent ops).block (con.eth.batch parent ops).hash =
        (c.host.tracker.verified (con.eth.batch parent ops)).accepted c.host.sink h con.eth.hash := by
        rw [← hcn]
        rfl
      rw [hargs] at hacc
      rcases hturn with ⟨t, s, hok, hres⟩ | ⟨e, t, s, herr, hres⟩
      · rcases hacc with ⟨t', s', hok', hrest, hheight, hhash, henv⟩ | ⟨t', s', hbus⟩
        · rw [hok] at hok'
          obtain ⟨rfl, rfl⟩ : t = t' ∧ s = s' := by simpa using hok'
          have hran : Ran h parent con c
              { c.turned (c.execCall S parent c.accepted con.eth) (con.eth.batch parent ops) h t s
                ((c.host.exec.record (con.eth.batch parent ops)).onFinalized h) with
                accepted := c.accepted ++ [con.eth.batch parent ops] } :=
            ⟨hsucc, ⟨hheight, hhash⟩, ops, rfl, by rw [← hcn]; exact henv⟩
          have hheight : t.finalizedHeight = h := hheight.trans hcn
          obtain ⟨hf1, hf2, hf3⟩ := feeds_accepted
            { c.turned (c.execCall S parent c.accepted con.eth) (con.eth.batch parent ops) h t s
              ((c.host.exec.record (con.eth.batch parent ops)).onFinalized h) with
              accepted := c.accepted ++ [con.eth.batch parent ops] }
            hI.feeds rfl rfl hcn hI.feedHash.symm (by rw [hI.feedHeight, ← hcn, hsucc])
          rw [hres]
          refine ⟨rfl, ?_, hran⟩
          exact {
            pre := ⟨hrest.sink, hI.pre.recs, hI.pre.clean⟩
            rest := hrest
            next := congrArg (· + 1) hheight.symm
            hash := hhash
            stands := ⟨con, by
              show chain.get t.finalizedHeight = some con
              rw [hheight]
              exact hg, rfl⟩
            feeds := hf1
            feedHeight := hf2.trans hheight.symm
            feedHash := hf3 }
        · rw [hok] at hbus
          cases hbus
      · rcases hacc with ⟨t', s', hok', -⟩ | ⟨t', s', hbus⟩
        · rw [herr] at hok'
          cases hok'
        · rw [herr] at hbus
          obtain ⟨rfl, -⟩ : e = .sink (.bus .txn) ∧ _ := by simpa using hbus
          rw [hres]
          exact Or.inr (busFailed_fail _ rfl)
    · -- the numbers have wrapped around: the tracker refuses the block
      have hstale := hI.rest.accepted_stale (b := con.eth.batch parent ops) (UInt64.not_lt.mp hlt) h
      have hargs : (con.eth.batch parent ops).hash = con.eth.hash := rfl
      rw [hargs] at hstale
      rcases hturn with ⟨t, s, hok, hres⟩ | ⟨e, t, s, herr, hres⟩
      · rw [hstale] at hok
        cases hok
      · rw [hstale] at herr
        obtain ⟨rfl, rfl, rfl⟩ : .unknownAccepted h con.eth.hash = e ∧ c.host.tracker = t ∧
          c.host.sink = s := by simpa using herr
        rw [hres]
        refine Or.inl ⟨PreLive.fail ?_ rfl, rfl, rfl, rfl⟩
        exact ⟨hI.pre.sink, hI.pre.recs, hI.pre.clean⟩

/-! ## The start and the end of the loop -/

theorem startPoint_error {chain : Table UInt64 Container} {start : Container} {f : Fatal}
    (h : startPoint S chain start = .error f) : f.isSink = false := by
  rw [startPoint] at h
  split at h
  · cases h
  split at h
  · cases h
    rfl
  split at h
  · cases h
  split at h
  · cases h
    rfl
  · cases h

/-- The start point is a container of the chain, at the resume height if there is one. -/
theorem Chain.start {b : Backfill} {start : Container} {cs : List Container}
    (h : Chain U b start cs) {height : UInt64} {hash : Hash}
    (hs : startPoint S b.chain start = .ok (height, hash)) :
    (∃ sc, b.chain.get height = some sc ∧ sc.eth.hash = hash) ∧
      ∀ r, S.cfg.resume = some r → height = r.height := by
  rw [startPoint] at hs
  cases hr : S.cfg.resume with
  | none =>
    rw [hr] at hs
    obtain ⟨rfl, rfl⟩ : start.eth.number = height ∧ start.eth.hash = hash := by simpa using hs
    exact ⟨⟨start, by rw [h.get]; simp, rfl⟩, by simp⟩
  | some r =>
    rw [hr] at hs
    dsimp only at hs
    cases hg : b.chain.get r.height with
    | none => simp [hg] at hs
    | some rc =>
      rw [hg] at hs
      dsimp only at hs
      have hok : (r.height, rc.eth.hash) = (height, hash) := by
        split at hs
        · exact Except.ok.inj hs
        · split at hs
          · cases hs
          · exact Except.ok.inj hs
      obtain ⟨rfl, rfl⟩ := Prod.mk.inj hok
      refine ⟨⟨rc, hg, rfl⟩, fun r' hr' => ?_⟩
      rw [Option.some.inj hr']

theorem PreLive.makeSink {c : Core T} (h : PreLive c) (headers : List (Hash × UInt64))
    {chain : Table UInt64 Container} {height : UInt64} {hash : Hash}
    (hsc : ∃ sc, chain.get height = some sc ∧ sc.eth.hash = hash) :
    LoopInv chain (height + 1) hash (c.makeSink S headers height hash) where
  pre := ⟨h.sink, h.recs, h.clean⟩
  rest := h.sink.new height hash
  next := rfl
  hash := rfl
  stands := hsc
  feeds := trivial
  feedHeight := rfl
  feedHash := rfl

/-- The live engine starts on the anchor. -/
theorem LoopInv.anchored {Tag : Batch → Prop} {tree : T → Tree} (hS : S.topo.Contract tree)
    (hU : HeadersByHash U)
    {b : Backfill} {low : Container} {cs : List Container} (hchain : Chain U b low cs)
    {anchor : Container} (hanchor : b.anchor = some anchor) {h : UInt64} {parent : Hash} {c : Core T}
    (hI : LoopInv b.chain h parent c) (hend : b.chain.get h = none) :
    CoreInv U Tag tree (c.anchored S anchor) := by
  obtain ⟨pc, hpc, hpch⟩ := hI.stands
  rw [hI.next] at hend
  obtain rfl : anchor = pc := Option.some.inj (hanchor.symm.trans (hchain.top hpc hend))
  obtain ⟨-, hn, hcU⟩ := hchain.of_get hpc
  have htree : tree (c.anchored S anchor).cons = ⟨anchor.id, fun _ => none⟩ := hS.init _ _ _
  have hnone : ∀ id r, (c.anchored S anchor).recs.get id = some r → False := by
    intro id r hr
    have hcr : c.recs.get id = some r := hr
    rw [hI.pre.recs] at hcr
    cases hcr
  refine ⟨?_, ?_, hI.pre.clean⟩
  · rw [htree]
    exact {
      recs := fun id r hr => (hnone id r hr).elim
      fresh := fun id r hr => (hnone id r hr).elim
      lastRec := hI.pre.recs _
      procs := fun id con => by
        constructor
        · intro hc
          cases hc
        · rintro ⟨r, hr, -⟩
          exact (hnone id r hr).elim
      last := rfl
      lastU := ⟨anchor, hcU, rfl, rfl⟩
      onLast := fun id r hr => (hnone id r hr).elim
      onRec := fun id r p hr => (hnone id r hr).elim
      published := hI.rest.published (by rw [hI.hash, ← hpch, numberOf_eq hU hcU, hn])
      height := hn.symm
      hash := hI.hash.trans hpch.symm
      table := fun id r hr => (hnone id r hr).elim
      feeds := hI.feeds
      feedHeight := hI.feedHeight.trans hn.symm
      feedHash := hI.feedHash.trans hpch.symm
      known := fun k b' hk => by
        have hk' : c.host.tracker.table.get k = some b' := hk
        rw [hI.rest.table] at hk'
        cases hk' }
  · rw [htree]
    intro id con hc
    cases hc

theorem backfillTurn_recs (c : Core T) (h : UInt64) (parent : Hash) (blk : EthBlock) :
    (c.backfillTurn S h parent blk).2.recs = c.recs := by
  rcases backfillTurn_cases S c h parent blk with
    ⟨e, he⟩ | ⟨ops, -, ⟨t, s, -, hres⟩ | ⟨e, t, s, -, hres⟩⟩
  · rw [he]
    rfl
  · rw [hres]
    rfl
  · rw [hres]
    rfl

theorem backfillLoop_recs (chain : Table UInt64 Container) (n : Nat) (h : UInt64) (parent : Hash)
    (c : Core T) : (c.backfillLoop S chain n h parent).2.recs = c.recs := by
  induction n generalizing h parent c with
  | zero =>
    rw [Core.backfillLoop]
    cases chain.get h <;> rfl
  | succ n ih =>
    rw [Core.backfillLoop]
    cases chain.get h with
    | none => rfl
    | some con =>
      have hturn := backfillTurn_recs (S := S) c h parent con.eth
      dsimp only
      cases hres : c.backfillTurn S h parent con.eth with
      | mk o c' =>
        rw [hres] at hturn
        cases o with
        | none => exact hturn
        | some hash => exact (ih (h + 1) hash c').trans hturn

theorem grows_backfillTurn (c : Core T) (h : UInt64) (parent : Hash) (blk : EthBlock) :
    Grows c (c.backfillTurn S h parent blk).2 := by
  rcases backfillTurn_cases S c h parent blk with
    ⟨e, he⟩ | ⟨ops, -, ⟨t, s, -, hres⟩ | ⟨e, t, s, -, hres⟩⟩
  · rw [he]
    exact ⟨⟨[_], rfl⟩, Nat.le_refl _⟩
  · rw [hres]
    exact ⟨List.prefix_rfl, Nat.le_refl _⟩
  · rw [hres]
    exact ⟨⟨[_], rfl⟩, Nat.le_refl _⟩

theorem grows_backfillLoop (c : Core T) (chain : Table UInt64 Container) (n : Nat) (h : UInt64)
    (parent : Hash) : Grows c (c.backfillLoop S chain n h parent).2 := by
  have hrule := backfillLoop_rule (S := S) chain (fun _ _ x => Grows c x) (fun x => Grows c x)
    (fun _ _ _ hx => hx)
    (fun h parent x con hx _ => by
      have hturn := hx.trans (grows_backfillTurn (S := S) x h parent con.eth)
      cases hres : x.backfillTurn S h parent con.eth with
      | mk o x' =>
        rw [hres] at hturn
        cases o <;> exact hturn)
    n h parent c (.refl c)
  cases hres : c.backfillLoop S chain n h parent with
  | mk ok c' =>
    rw [hres] at hrule
    cases ok with
    | true =>
      obtain ⟨-, -, hp, -⟩ := hrule
      exact hp
    | false => exact hrule

/-! ## Every run -/

/-- What holds of every engine reached, as long as the bus commits. -/
structure EngineInv (U : Container → Prop) (tree : T → Tree) (e : Engine T P N) : Prop where
  live : e.phase = .live → CoreInv U (Heads U) tree e.core
  pre : e.phase ≠ .live → PreLive e.core
  back : e.phase = .backfill → BackInv U e.back
  idle : e.phase = .pollAnchor → e.back.low = none ∧ e.back.anchor = none

/-- A lowest container is the foot of a chain. -/
theorem BackInv.chain {b : Backfill} (h : BackInv U b) {start : Container}
    (hlow : b.low = some start) : ∃ cs, Chain U b start cs := by
  rcases h with ⟨hnone, -⟩ | ⟨low, cs, hchain⟩
  · rw [hnone] at hlow
    cases hlow
  · obtain rfl : start = low := Option.some.inj (hlow.symm.trans hchain.bottom)
    exact ⟨cs, hchain⟩

theorem BackInv.congr {b b' : Backfill} (h : BackInv U b) (hl : b'.low = b.low)
    (ha : b'.anchor = b.anchor) (hc : b'.chain = b.chain) : BackInv U b' := by
  rcases h with ⟨h1, h2, h3⟩ | ⟨low, cs, h⟩
  · exact Or.inl ⟨hl.trans h1, ha.trans h2, by rw [hc]; exact h3⟩
  · exact Or.inr ⟨low, cs, hl.trans h.bottom, ha.trans h.anchored, h.ascends, h.delivered,
      by rw [hc]; exact h.get⟩

theorem BackInv.take {b : Backfill} (h : BackInv U b) {c : Container} (hc : U c)
    (ht : b.takes c = true) :
    BackInv U
      { b with chain := b.chain.set c.eth.number c, anchor := some (b.anchor.getD c), low := some c } := by
  rcases h with ⟨-, h2, h3⟩ | ⟨low, cs, h⟩
  · exact Or.inr ⟨c, [], chain_anchor hc h2 h3⟩
  · exact Or.inr ⟨c, low :: cs, h.extend hc ht⟩

theorem EngineInv.of_live {tree : T → Tree} {e : Engine T P N} (hp : e.phase = .live)
    (h : CoreInv U (Heads U) tree e.core) : EngineInv U tree e := by
  refine ⟨fun _ => h, fun hx => absurd hp hx, fun hx => ?_, fun hx => ?_⟩
  · rw [hp] at hx
    cases hx
  · rw [hp] at hx
    cases hx

theorem EngineInv.of_backfill {tree : T → Tree} {e : Engine T P N} (hp : e.phase = .backfill)
    (hc : PreLive e.core) (hb : BackInv U e.back) : EngineInv U tree e := by
  refine ⟨fun hx => ?_, fun _ => hc, fun _ => hb, fun hx => ?_⟩
  · rw [hp] at hx
    cases hx
  · rw [hp] at hx
    cases hx

/-- The gap loop with more to keep: `J` is kept by a turn that goes on, and one that stops
gives `D`, unless the bus cannot commit. -/
theorem LoopInv.loop_rule (hU : HeadersByHash U) {b : Backfill} {low : Container}
    {cs : List Container} (hchain : Chain U b low cs) {J D : Core T → Prop}
    (hD : ∀ h parent c, LoopInv b.chain h parent c → J c → D c)
    (hturn : ∀ h parent c con, LoopInv b.chain h parent c → J c → b.chain.get h = some con →
      match c.backfillTurn S h parent con.eth with
      | (none, c') => Stopped c c' → D c'
      | (some _, c') => LoopInv b.chain (h + 1) con.eth.hash c' → Ran h parent con c c' → J c')
    {h : UInt64} {parent : Hash} {c : Core T} (hI : LoopInv b.chain h parent c) (hJ : J c) (n : Nat) :
    match c.backfillLoop S b.chain n h parent with
    | (true, c') => ∃ h parent, ((LoopInv b.chain h parent c' ∧ J c') ∨ c'.BusFailed) ∧
        b.chain.get h = none
    | (false, c') => D c' ∨ c'.BusFailed := by
  refine backfillLoop_rule b.chain
    (fun h parent x => (LoopInv b.chain h parent x ∧ J x) ∨ x.BusFailed)
    (fun x => D x ∨ x.BusFailed) (fun h parent x hx => hx.imp_left (fun hI => hD h parent x hI.1 hI.2))
    ?_ n h parent c (Or.inl ⟨hI, hJ⟩)
  intro h parent x con hx hget
  rcases hx with ⟨hI, hJ⟩ | hbus
  · have hloop := hI.turn (S := S) hU (fun n con hn => (hchain.of_get hn).2) hget
    have hmore := hturn h parent x con hI hJ hget
    cases hres : x.backfillTurn S h parent con.eth with
    | mk res x' =>
      rw [hres] at hloop hmore
      cases res with
      | none => exact hloop.imp_left hmore
      | some hash =>
        obtain ⟨rfl, hI', hran⟩ := hloop
        exact Or.inl ⟨hI', hmore hI' hran⟩
  · have hfatal := busFailed_mono hbus (grows_backfillTurn (S := S) x h parent con.eth)
    cases hres : x.backfillTurn S h parent con.eth with
    | mk res x' =>
      rw [hres] at hfatal
      cases res <;> exact Or.inr hfatal

/-- What the gap loop leaves. -/
theorem backfillLoop_inv (hU : HeadersByHash U) {b : Backfill} {start : Container}
    {cs : List Container} (hchain : Chain U b start cs) {c : Core T} (hc : PreLive c)
    (headers : List (Hash × UInt64)) {height : UInt64} {hash : Hash}
    (hs : startPoint S b.chain start = .ok (height, hash)) (n : Nat) :
    match (c.makeSink S headers height hash).backfillLoop S b.chain n (height + 1) hash with
    | (true, c') => ∃ h parent, ((LoopInv b.chain h parent c' ∧ PreLive c') ∨ c'.BusFailed) ∧
        b.chain.get h = none
    | (false, c') => PreLive c' ∨ c'.BusFailed := by
  have hI := hc.makeSink (S := S) headers (hchain.start hs).1
  refine hI.loop_rule hU hchain (fun _ _ _ _ hc => hc) (fun h parent x con _ _ _ => ?_) hI.pre n
  split
  · exact Stopped.pre
  · exact fun hI _ => hI.pre

/-- A shift of an engine whose bus commits. -/
theorem EngineInv.shift {tree : T → Tree} (hS : S.topo.Contract tree) (hU : HeadersByHash U)
    {e e' : Engine T P N} (h : EngineInv U tree e) (hshift : Shift S U e e') :
    EngineInv U tree e' ∨ e'.core.BusFailed := by
  cases hshift with
  | same hp hc hl ha hchain =>
    left
    refine ⟨fun hx => ?_, fun hx => ?_, fun hx => ?_, fun hx => ?_⟩ <;> rw [hp] at hx
    · rw [hc]
      exact h.live hx
    · rw [hc]
      exact h.pre hx
    · exact (h.back hx).congr hl ha hchain
    · rw [hl, ha]
      exact h.idle hx
  | moves hp heff =>
    have hmoves := CoreInv.moves (Or.inl (h.live hp)) hS hU heff.moves
    exact hmoves.imp_left (.of_live (heff.phase.trans hp))
  | found hp a =>
    obtain ⟨h1, h2⟩ := h.idle hp
    have hc : PreLive e.core := h.pre (by rw [hp]; decide)
    exact Or.inl (.of_backfill rfl hc (Or.inl ⟨h1, h2, fun _ => rfl⟩))
  | take hp hc ht =>
    have hpre : PreLive e.core := h.pre (by rw [hp]; decide)
    exact Or.inl (.of_backfill hp hpre ((h.back hp).take hc ht))
  | refuse hp hs =>
    have hpre := (h.pre (by rw [hp]; decide)).fail (startPoint_error hs)
    exact Or.inl (.of_backfill hp hpre (h.back hp))
  | @stop start height hash c hp hlow hs hloop =>
    have hpre : PreLive e.core := h.pre (by rw [hp]; decide)
    obtain ⟨cs, hchain⟩ := (h.back hp).chain hlow
    have hinv := backfillLoop_inv hU hchain hpre (seeds e.back.chain start height) hs
      e.back.chain.size
    rw [hloop] at hinv
    exact hinv.imp_left fun hc => .of_backfill hp hc (h.back hp)
  | @live start anchor height hash c hp hlow hanchor hs hloop =>
    have hpre : PreLive e.core := h.pre (by rw [hp]; decide)
    obtain ⟨cs, hchain⟩ := (h.back hp).chain hlow
    have hinv := backfillLoop_inv hU hchain hpre (seeds e.back.chain start height) hs
      e.back.chain.size
    rw [hloop] at hinv
    obtain ⟨h', parent', hI, hend⟩ := hinv
    exact hI.imp_left (fun hI => .of_live rfl (hI.1.anchored hS hU hchain hanchor hend))

theorem Moves.grows {c c' : Core T} (h : Moves S U c c') : Grows c c' := by
  induction h with
  | refl => exact .refl c
  | tail _ hmove ih => exact ih.trans hmove.grows

/-- A sink is made, and the gap loop runs. -/
theorem grows_gap (c : Core T) (headers : List (Hash × UInt64)) (height : UInt64) (hash : Hash)
    {chain : Table UInt64 Container} {n : Nat} {h : UInt64} {parent : Hash} {ok : Bool} {c' : Core T}
    (hloop : (c.makeSink S headers height hash).backfillLoop S chain n h parent = (ok, c')) :
    Grows c c' ∧ c.made < c'.made := by
  have hg := grows_backfillLoop (S := S) (c.makeSink S headers height hash) chain n h parent
  rw [hloop] at hg
  exact ⟨⟨hg.fatal, Nat.le_of_lt hg.made⟩, hg.made⟩

theorem Shift.grows {e e' : Engine T P N} (h : Shift S U e e') : Grows e.core e'.core := by
  cases h with
  | same hp hc => exact hc ▸ .refl _
  | moves hp heff => exact Moves.grows heff.moves
  | found hp a => exact .refl _
  | take hp hc ht => exact .refl _
  | refuse hp hs => exact (Grows.refl _).fail _
  | stop hp hlow hs hloop => exact (grows_gap _ _ _ _ hloop).1
  | live hp hlow hanchor hs hloop =>
    have hg := (grows_gap _ _ _ _ hloop).1
    exact ⟨hg.fatal, hg.made⟩

theorem engineInv_new {tree : T → Tree} {host : Host} (hhost : Rest host.sink) {net : N} :
    EngineInv U tree (Engine.new S host net) :=
  ⟨fun hx => (by cases hx), fun _ => ⟨hhost, fun _ => rfl, by simp [Engine.new]⟩,
    fun hx => (by cases hx), fun _ => ⟨rfl, rfl⟩⟩

theorem EngineInv.looks {tree : T → Tree} {e : Engine T P N} (h : EngineInv U tree e)
    (handle : Handle) :
    EngineInv U tree
      { e with core := { e.core with host := { e.core.host with handle := handle } } } := by
  refine ⟨fun hx => ?_, fun hx => ?_, h.back, h.idle⟩
  · have hcore := h.live hx
    exact ⟨hcore.mid.congr rfl rfl rfl rfl rfl rfl rfl rfl, hcore.rooted, hcore.clean⟩
  · have hpre := h.pre hx
    exact ⟨hpre.sink, hpre.recs, hpre.clean⟩

/-- Every engine reached satisfies the invariant, unless the bus could not commit. -/
theorem engineInv_run {tree : T → Tree} (hS : S.topo.Contract tree) (hU : HeadersByHash U)
    {Q : Engine T P N → Input → Prop} {host : Host} (hhost : Rest host.sink) {net : N}
    {e : Engine T P N} (h : Run S U Q (Engine.new S host net) e) :
    EngineInv U tree e ∨ e.core.BusFailed := by
  refine h.rule (fun e => EngineInv U tree e ∨ e.core.BusFailed) (Or.inl (engineInv_new hhost)) ?_ ?_
  · intro e e' hI hshift
    rcases hI with hinv | hbus
    · exact hinv.shift hS hU hshift
    · exact Or.inr (busFailed_mono hbus hshift.grows)
  · exact fun e handle hI _ => hI.imp_left (fun hinv => hinv.looks handle)

/-! ## A run that goes live -/

namespace Sample

/-- The tree of the small consensus object. -/
def tree (t : Procs) : Tree := ⟨t.last, fun id => t.procs.find? (fun c => c.id = id)⟩

theorem find_of_mem {l : List Container} (hl : (l.map Container.id).Nodup) {c : Container}
    (hc : c ∈ l) : l.find? (fun o => o.id = c.id) = some c := by
  induction l with
  | nil => cases hc
  | cons x xs ih =>
    rw [List.map_cons, List.nodup_cons] at hl
    rw [List.find?_cons]
    rcases List.mem_cons.mp hc with rfl | hc
    · simp
    · have hne : x.id ≠ c.id := fun heq => hl.1 (heq ▸ List.mem_map_of_mem hc)
      simp [hne, ih hl.2 hc]

theorem update_find (l : List Container) (id : ID) :
    Function.update (fun i => l.find? (fun c => c.id = i)) id none =
      fun i => (l.filter (fun c => c.id ≠ id)).find? (fun c => c.id = i) := by
  funext i
  rw [List.find?_filter]
  by_cases hi : i = id
  · subst hi
    rw [Function.update_self]
    symm
    rw [List.find?_eq_none]
    simp
  · rw [Function.update_of_ne hi]
    congr 1
    funext c
    by_cases hc : c.id = i
    · simp [hc, hi]
    · simp [hc]

theorem replay_rejects (last : ID) (l : List Container) (hl : (l.map Container.id).Nodup) :
    Tree.Replay ⟨last, fun id => l.find? (fun c => c.id = id)⟩ (l.map .reject)
      ⟨last, fun _ => none⟩ := by
  induction l with
  | nil => exact .nil _
  | cons c cs ih =>
    have hnd := List.nodup_cons.mp hl
    refine .reject (find_of_mem hl (by simp)) ?_
    have hrest : (c :: cs).filter (fun o => o.id ≠ c.id) = cs := by
      rw [List.filter_cons_of_neg (by simp), List.filter_eq_self]
      intro o ho
      have hne : o.id ≠ c.id := fun heq => hnd.1 (heq ▸ List.mem_map_of_mem ho)
      simpa using hne
    rw [Tree.reject]
    dsimp only
    rw [update_find, hrest]
    exact ih hnd.2

theorem topo_contract : topo.Contract tree where
  init _ _ _ := rfl
  add t c t' hadd _ _ := by
    rw [topo] at hadd
    dsimp only at hadd
    split at hadd
    · cases hadd
    · obtain rfl := Option.some.inj hadd
      rw [tree, tree, Tree.insert]
      congr 1
      funext id
      by_cases hid : id = c.id
      · subst hid
        simp
      · rw [Function.update_of_ne hid, List.find?_cons]
        simp [Ne.symm hid]
  decisions t v := by
    rw [topo]
    dsimp only
    split
    · exact .nil _
    · rename_i c hc
      have hmem := List.mem_of_find?_eq_some hc
      have hpar : c.parentID = t.last := by
        have := List.find?_some hc
        simp only [decide_eq_true_eq] at this
        exact this.2
      refine .accept (find_of_mem t.nodup hmem) hpar ?_
      rw [Tree.accept, tree]
      dsimp only
      rw [update_find]
      exact replay_rejects _ _ (t.nodup.sublist (List.filter_sublist.map _))
  rooted t v h := by
    rw [topo]
    dsimp only
    split
    · exact h
    · intro id c hc
      cases hc
  preference t := by
    rw [topo, tree]
    dsimp only
    cases hp : t.procs with
    | nil => exact Or.inl rfl
    | cons c cs => exact Or.inr (by simp)

/-- The containers of the run below: the anchor and its child. -/
def delivered (c : Container) : Prop :=
  c ∈ (parse [105, 104, 5, 4, 5]).toList ++ (parse [106, 105, 6, 5, 6]).toList

/-- The anchor arrives and the engine goes live. -/
def alive : Engine Procs Unit UInt32 := (answered 1 2).onContainer setup 0 [105, 104, 5, 4, 5]

/-- A child of the anchor arrives, and a vote accepts it. -/
def settled : Engine Procs Unit UInt32 :=
  (alive.onContainer setup 0 [106, 105, 6, 5, 6]).onChits setup 0 (node 1) 3
    (FixedBytes.ofNat 32 106) ID.empty (FixedBytes.ofNat 32 105) 5

theorem alive_run {U : Container → Prop} (hU : ∀ c ∈ (parse [105, 104, 5, 4, 5]).toList, U c) :
    Run setup U (fun _ _ => True) (Engine.new setup host 0) alive :=
  (answered_run (asked_run fun _ => trivial) trivial trivial).call 0
    (.container (node 1) [105, 104, 5, 4, 5]) hU trivial

theorem settled_run : Run setup delivered (fun _ _ => True) (Engine.new setup host 0) settled :=
  ((alive_run fun _ hc => List.mem_append_left _ hc).call 0
    (.container (node 1) [106, 105, 6, 5, 6]) (fun _ hc => List.mem_append_right _ hc)
      trivial).call 0
      (.chits (node 1) 3 (FixedBytes.ofNat 32 106) ID.empty (FixedBytes.ofNat 32 105) 5)
      (by simp [Input.delivers]) trivial

theorem delivered_headersByHash : HeadersByHash delivered := by
  intro c c' hc hc'
  simp only [delivered, parse, Option.toList_some, List.cons_append, List.nil_append,
    List.mem_cons, List.not_mem_nil, or_false] at hc hc'
  rcases hc with rfl | rfl <;> rcases hc' with rfl | rfl
  · exact fun _ => ⟨rfl, rfl⟩
  · exact fun h => absurd h (by decide +kernel)
  · exact fun h => absurd h (by decide +kernel)
  · exact fun _ => ⟨rfl, rfl⟩

theorem host_rest : Rest host.sink := ⟨rfl, rfl, fun _ => rfl⟩

end Sample

/-! ## What the sink is fed -/

/-- In every live state that any order of containers, chits and ticks leads to, as long as
the bus commits: the calls to the sink form a chain, and neither `Head` nor `Accepted` has
failed. -/
theorem live_engine_feeds_chain {tree : T → Tree} (hS : S.topo.Contract tree)
    (hU : HeadersByHash U) {host : Host} (hhost : Rest host.sink) {net : N} {e : Engine T P N}
    (h : Run S U (fun _ _ => True) (Engine.new S host net) e) (hlive : e.phase = .live)
    (hbus : ∀ f ∈ e.core.fatal, f.isBus = false) :
    Feeds e.core.feed0 e.core.calls ∧ ∀ f ∈ e.core.fatal, f.isSink = false := by
  rcases engineInv_run hS hU hhost h with hinv | ⟨f, hf, hfb⟩
  · exact ⟨(hinv.live hlive).mid.feeds, (hinv.live hlive).clean⟩
  · rw [hbus f hf] at hfb
    cases hfb

open Sample in
/-- The anchor's child was verified, announced as head and accepted. -/
theorem live_engine_feeds_chain_settled :
    settled.phase = .live ∧ settled.core.calls.length = 3 ∧
      Feeds settled.core.feed0 settled.core.calls ∧ ∀ f ∈ settled.core.fatal, f.isSink = false := by
  have hfatal : settled.core.fatal = [] := by decide +kernel
  have hlive : settled.phase = .live := by decide +kernel
  refine ⟨hlive, by decide +kernel, live_engine_feeds_chain topo_contract delivered_headersByHash
    host_rest settled_run hlive ?_⟩
  rw [hfatal]
  simp

end Flatstate.Consensus
