import Flatstate.Consensus.Backfill

set_option autoImplicit false

/-!
# Consensus: the backfill executes exactly the gap

Whatever peers deliver, a container joins the backfill only as the anchor or as the parent of
the lowest one, by ID, by eth hash and by number.  A container at height zero ends the
backfill, so the numbers never wrap around and the chain has one container for every height
down from the anchor.  `finishBootstrap` looks up one height after another from the start
point; it goes live only at the first height without a container, which is the one above the
anchor.
-/

namespace Flatstate.Consensus

open Foundation Schema Capture Exec Node

variable {T P V N ρ : Type} {S : Setup T P V N ρ} {U : Container → Prop} {now : Nat}

/-! ## The chain that was fetched -/

/-- Containers on top of `low`: each has the one below it as its parent, by container ID and
by eth hash, and the next number. -/
def Follows : Container → List Container → Prop
  | _, [] => True
  | low, c :: cs =>
    c.parentID = low.id ∧ c.eth.parentHash = low.eth.hash ∧
      c.eth.number.toNat = low.eth.number.toNat + 1 ∧ Follows c cs

theorem Follows.number_lt {low : Container} {cs : List Container} (h : Follows low cs)
    {c : Container} (hc : c ∈ cs) : low.eth.number.toNat < c.eth.number.toNat := by
  induction cs generalizing low with
  | nil => cases hc
  | cons d cs ih =>
    obtain ⟨-, -, hn, h⟩ := h
    rcases List.mem_cons.mp hc with rfl | hc
    · omega
    · exact Nat.lt_trans (by omega) (ih h hc)

/-- One container for each number. -/
theorem Follows.find_iff {low : Container} {cs : List Container} (h : Follows low cs) {n : UInt64}
    {c : Container} : (low :: cs).find? (fun x => x.eth.number = n) = some c ↔
      c ∈ low :: cs ∧ c.eth.number = n := by
  constructor
  · intro hf
    exact ⟨List.mem_of_find?_eq_some hf, by simpa using List.find?_some hf⟩
  · rintro ⟨hm, hn⟩
    induction cs generalizing low with
    | nil =>
      obtain rfl := List.mem_singleton.mp hm
      simp [hn]
    | cons d cs ih =>
      rcases List.mem_cons.mp hm with rfl | hm
      · simp [hn]
      · have hlt := h.number_lt hm
        have hne : low.eth.number ≠ n := by
          rintro rfl
          rw [hn] at hlt
          exact Nat.lt_irrefl _ hlt
        rw [List.find?_cons_of_neg (by simpa using hne)]
        exact ih h.2.2.2 hm

/-- A chain of the backfill that is linked by ID too and has not wrapped around. -/
structure Fetched (U : Container → Prop) (b : Backfill) (low : Container) (cs : List Container) :
    Prop where
  chain : Chain U b low cs
  follows : Follows low cs
  anchorID : ((low :: cs).getLast (List.cons_ne_nil low cs)).id = b.anchorID

/-- What the backfill holds as long as nothing failed: nothing yet, or, if there is a resume
point, a chain above height zero. -/
def FetchInv (S : Setup T P V N ρ) (U : Container → Prop) (b : Backfill) : Prop :=
  (b.low = none ∧ b.anchor = none ∧ ∀ k, b.chain.get k = none) ∨
    S.cfg.resume ≠ none ∧ ∃ low cs, Fetched U b low cs ∧ low.eth.number ≠ 0

/-- A container that is taken is the new bottom of the chain. -/
theorem FetchInv.take {b : Backfill} (h : FetchInv S U b) {c : Container} (hc : U c)
    (ht : b.takes c = true) :
    ∃ cs, Fetched U
      { b with chain := b.chain.set c.eth.number c, anchor := some (b.anchor.getD c), low := some c }
      c cs ∧ (S.cfg.resume = none → cs = []) := by
  rcases h with ⟨h1, h2, h3⟩ | ⟨hr, low, cs, h, hpos⟩
  · rw [Backfill.takes, h1] at ht
    exact ⟨[], ⟨chain_anchor hc h2 h3, trivial, by simpa using ht⟩, fun _ => rfl⟩
  · refine ⟨low :: cs, ⟨h.chain.extend hc ht, ?_, ?_⟩, fun hn => absurd hn hr⟩
    · rw [Backfill.takes, h.chain.bottom] at ht
      obtain ⟨hn, hh, hid⟩ : c.eth.number = low.eth.number - 1 ∧
          c.eth.hash = low.eth.parentHash ∧ c.id = low.parentID := by simpa using ht
      refine ⟨hid.symm, hh.symm, ?_, h.follows⟩
      have hlow : 1 ≤ low.eth.number.toNat := by
        refine Nat.one_le_iff_ne_zero.mpr (fun hz => hpos ?_)
        exact UInt64.toNat_inj.mp hz
      have hle : (1 : UInt64) ≤ low.eth.number := UInt64.le_iff_toNat_le.mpr hlow
      rw [hn, UInt64.toNat_sub_of_le _ _ hle, UInt64.toNat_one]
      omega
    · rw [List.getLast_cons (List.cons_ne_nil low cs)]
      exact h.anchorID

/-! ## The blocks that are executed -/

/-- Each container's block is executed on the eth hash of the one before, and the batch is
verified and then accepted. -/
def Executes : Hash → List Container → List Call → List ExecCall → Prop
  | _, [], calls, execs => calls = [] ∧ execs = []
  | parent, con :: gap, calls, execs =>
    ∃ ops x calls' execs',
      calls = .verified (con.eth.batch parent ops) ::
        .accepted con.eth.number con.eth.hash :: calls' ∧
      execs = x :: execs' ∧ x.parent = parent ∧ x.blk = con.eth ∧
      Executes con.eth.hash gap calls' execs'

theorem backfillTurn_none {c c' : Core T} {h : UInt64} {parent : Hash} {blk : EthBlock}
    (hres : c.backfillTurn S h parent blk = (none, c')) : c'.fatal ≠ [] := by
  rcases backfillTurn_cases S c h parent blk with
    ⟨e, he⟩ | ⟨ops, -, ⟨t, s, -, hok⟩ | ⟨e, t, s, -, herr⟩⟩
  · rw [he] at hres
    rw [← (Prod.mk.inj hres).2]
    simp [Core.fail]
  · rw [hok] at hres
    cases (Prod.mk.inj hres).1
  · rw [herr] at hres
    rw [← (Prod.mk.inj hres).2]
    simp [Core.fail]

theorem backfillTurn_some {c c' : Core T} {h : UInt64} {parent hash : Hash} {blk : EthBlock}
    (hres : c.backfillTurn S h parent blk = (some hash, c')) :
    ∃ ops, c'.calls = c.calls ++ [.verified (blk.batch parent ops), .accepted h blk.hash] ∧
      c'.execs = c.execs ++ [c.execCall S parent c.accepted blk] := by
  rcases backfillTurn_cases S c h parent blk with
    ⟨e, he⟩ | ⟨ops, -, ⟨t, s, -, hok⟩ | ⟨e, t, s, -, herr⟩⟩
  · rw [he] at hres
    cases (Prod.mk.inj hres).1
  · rw [hok] at hres
    obtain rfl := (Prod.mk.inj hres).2
    exact ⟨ops, List.append_assoc c.calls [_] [_], rfl⟩
  · rw [herr] at hres
    cases (Prod.mk.inj hres).1

/-- What the loop leaves if it went through: it executed `gap`, one height after another, and
stands below a height without a container. -/
structure Crossed (chain : Table UInt64 Container) (parent : Hash) (c c' : Core T)
    (gap : List Container) : Prop where
  ends : ∃ h' parent', LoopInv chain h' parent' c' ∧ chain.get h' = none
  executes : ∃ calls execs, Executes parent gap calls execs ∧ c'.calls = c.calls ++ calls ∧
    c'.execs = c.execs ++ execs
  numbers : gap.map (fun con => con.eth.number.toNat) =
    List.range' (c.host.tracker.finalizedHeight.toNat + 1) gap.length
  last : c'.host.tracker.finalizedHeight.toNat =
    c.host.tracker.finalizedHeight.toNat + gap.length
  held : ∀ con ∈ gap, chain.get con.eth.number = some con

section Loop

variable {chain : Table UInt64 Container} {h : UInt64} {parent : Hash} {c : Core T}

theorem LoopInv.crossed (hI : LoopInv chain h parent c) (hg : chain.get h = none) :
    Crossed chain parent c c [] :=
  ⟨⟨h, parent, hI, hg⟩, ⟨[], [], ⟨rfl, rfl⟩, (List.append_nil _).symm, (List.append_nil _).symm⟩,
    rfl, rfl, by simp⟩

/-- A turn in front. -/
theorem Crossed.cons {c1 c' : Core T} {con : Container} {gap : List Container}
    (hres : c.backfillTurn S con.eth.number parent con.eth = (some con.eth.hash, c1))
    (hran : Ran con.eth.number parent con c c1) (hg : chain.get con.eth.number = some con)
    (hx : Crossed chain con.eth.hash c1 c' gap) : Crossed chain parent c c' (con :: gap) := by
  obtain ⟨ops, hcalls, hexecs⟩ := backfillTurn_some hres
  obtain ⟨calls, execs, hex, hc', he'⟩ := hx.executes
  have hfin : c1.host.tracker.finalizedHeight.toNat =
      c.host.tracker.finalizedHeight.toNat + 1 := by rw [hran.finalized.1, hran.next]
  refine ⟨hx.ends, ⟨_, _,
    ⟨ops, c.execCall S parent c.accepted con.eth, calls, execs, rfl, rfl, rfl, rfl, hex⟩, ?_, ?_⟩,
    ?_, ?_, List.forall_mem_cons.mpr ⟨hg, hx.held⟩⟩
  · rw [hc', hcalls, List.append_assoc]
    rfl
  · rw [he', hexecs, List.append_assoc]
    rfl
  · rw [List.map_cons, hx.numbers, hfin, hran.next, List.length_cons, List.range'_succ]
  · rw [hx.last, hfin, List.length_cons]
    omega

/-- The heights the loop has been at. -/
structure Seen (chain : Table UInt64 Container) (c : Core T) (seen : List UInt64) : Prop where
  nodup : seen.Nodup
  bound : ∀ k ∈ seen, chain.get k ≠ none
  range : ∀ k ∈ seen, 0 < k.toNat ∧ k.toNat ≤ c.host.tracker.finalizedHeight.toNat

/-- The height of the loop is one up from the last block, or has wrapped around to zero. -/
theorem LoopInv.notMem (hI : LoopInv chain h parent c) {seen : List UInt64}
    (hs : Seen chain c seen) : h ∉ seen := by
  intro hm
  obtain ⟨hpos, hle⟩ := hs.range h hm
  rw [hI.next, UInt64.toNat_add, UInt64.toNat_one] at hpos hle
  have := c.host.tracker.finalizedHeight.toNat_lt
  omega

/-- The loop goes through or fails: it is at no height twice, so the bound of the model is not
reached. -/
theorem LoopInv.crosses (hU : HeadersByHash U)
    (hchain : ∀ n con, chain.get n = some con → con.eth.number = n ∧ U con) (n : Nat)
    (hI : LoopInv chain h parent c) {seen : List UInt64} (hs : Seen chain c seen)
    (hn : chain.size ≤ n + seen.length) :
    match c.backfillLoop S chain n h parent with
    | (false, c') => c'.fatal ≠ []
    | (true, c') => ∃ gap, Crossed chain parent c c' gap := by
  induction n generalizing h parent c seen with
  | zero =>
    rw [Core.backfillLoop]
    cases hg : chain.get h with
    | none => exact ⟨[], hI.crossed hg⟩
    | some con =>
      have hle := Table.length_le_size (t := chain)
        (List.nodup_cons.mpr ⟨hI.notMem hs, hs.nodup⟩)
        (List.forall_mem_cons.mpr ⟨by rw [hg]; simp, hs.bound⟩)
      rw [List.length_cons] at hle
      omega
  | succ n ih =>
    rw [Core.backfillLoop]
    cases hg : chain.get h with
    | none => exact ⟨[], hI.crossed hg⟩
    | some con =>
      have hturn := hI.turn (S := S) hU hchain hg
      dsimp only
      cases hres : c.backfillTurn S h parent con.eth with
      | mk o c1 =>
        rw [hres] at hturn
        cases o with
        | none => exact backfillTurn_none hres
        | some hash =>
          obtain ⟨rfl, hI1, hran⟩ := hturn
          obtain ⟨rfl, -⟩ := hchain h con hg
          have hs1 : Seen chain c1 (con.eth.number :: seen) := by
            have hnext := hran.next
            have hfin := hran.finalized.1
            refine ⟨List.nodup_cons.mpr ⟨hI.notMem hs, hs.nodup⟩,
              List.forall_mem_cons.mpr ⟨by rw [hg]; simp, hs.bound⟩,
              List.forall_mem_cons.mpr ⟨⟨by omega, by rw [hfin]⟩, fun k hk => ?_⟩⟩
            obtain ⟨hpos, hle⟩ := hs.range k hk
            rw [hfin]
            omega
          have hrest := ih hI1 hs1 (by rw [List.length_cons]; omega)
          dsimp only
          cases hloop : Core.backfillLoop S chain n (con.eth.number + 1) con.eth.hash c1 with
          | mk ok c' =>
            rw [hloop] at hrest
            cases ok with
            | false => exact hrest
            | true =>
              obtain ⟨gap, hx⟩ := hrest
              exact ⟨con :: gap, hx.cons hres hran hg⟩

end Loop

/-! ## Going live -/

/-- What a backfill that goes live has fetched and executed. -/
structure ExactGap (S : Setup T P V N ρ) (b : Backfill) (low anchor : Container)
    (c0 c : Core T) : Prop where
  /-- one container for every height from the lowest to the anchor, each on the one below -/
  chain : ∃ cs, Follows low cs ∧ (low :: cs).getLast (List.cons_ne_nil low cs) = anchor ∧
    ∀ h con, b.chain.get h = some con ↔ con ∈ low :: cs ∧ con.eth.number = h
  anchorID : anchor.id = b.anchorID
  /-- every height above the start point up to the anchor, and no other call to the sink -/
  executed : ∃ start gap execs, b.chain.get start.eth.number = some start ∧
    (match S.cfg.resume with
      | none => start = anchor
      | some r => start.eth.number = r.height ∧
          ∀ want, r.ethHash = some want → start.eth.hash = want) ∧
    gap.map (fun con => con.eth.number.toNat) = List.range' (start.eth.number.toNat + 1)
      (anchor.eth.number.toNat - start.eth.number.toNat) ∧
    (∀ con ∈ gap, b.chain.get con.eth.number = some con) ∧
    Executes start.eth.hash gap c.calls execs ∧ c.execs = c0.execs ++ execs

theorem startPoint_ok {chain : Table UInt64 Container} {low : Container} {height : UInt64}
    {hash : Hash} (hs : startPoint S chain low = .ok (height, hash)) :
    match S.cfg.resume with
    | none => height = low.eth.number
    | some r => height = r.height ∧ ∀ want, r.ethHash = some want → hash = want := by
  rw [startPoint] at hs
  cases hr : S.cfg.resume with
  | none =>
    rw [hr] at hs
    exact (Prod.mk.inj (Except.ok.inj hs)).1.symm
  | some r =>
    rw [hr] at hs
    dsimp only at hs ⊢
    split at hs
    · cases hs
    · split at hs
      · rename_i hnone
        exact ⟨(Prod.mk.inj (Except.ok.inj hs)).1.symm, fun want hw => by rw [hnone] at hw; cases hw⟩
      · rename_i want hsome
        split at hs
        · cases hs
        · rename_i heq
          obtain ⟨rfl, rfl⟩ := Prod.mk.inj (Except.ok.inj hs)
          refine ⟨rfl, fun want' hw => ?_⟩
          rw [hsome] at hw
          rw [← Option.some.inj hw]
          exact not_not.mp heq

section Live

variable {e : Engine T P N}

/-- A loop that went through from the start point has crossed the gap up to the anchor. -/
theorem Fetched.exactGap {b : Backfill} {low : Container} {cs : List Container}
    (hF : Fetched U b low cs) (hone : S.cfg.resume = none → cs = []) {anchor : Container}
    (hanchor : b.anchor = some anchor) {height : UInt64} {hash : Hash}
    (hs : startPoint S b.chain low = .ok (height, hash)) {c0 c : Core T}
    {headers : List (Hash × UInt64)} {gap : List Container}
    (hx : Crossed b.chain hash (c0.makeSink S headers height hash) c gap) :
    ExactGap S b low anchor c0 c := by
  have hlast : (low :: cs).getLast (List.cons_ne_nil low cs) = anchor :=
    Option.some.inj (hF.chain.anchored.symm.trans hanchor)
  refine ⟨⟨cs, hF.follows, hlast, fun h con => ?_⟩, hlast ▸ hF.anchorID, ?_⟩
  · rw [hF.chain.get]
    exact hF.follows.find_iff
  · obtain ⟨sc, hsc, hsch⟩ := (hF.chain.start hs).1
    obtain ⟨hmem, hscn, -⟩ := hF.chain.of_get hsc
    -- the loop ends above the anchor
    obtain ⟨h', parent', hI, hend⟩ := hx.ends
    obtain ⟨pc, hpc, -⟩ := hI.stands
    rw [hI.next] at hend
    obtain rfl : anchor = pc := Option.some.inj (hanchor.symm.trans (hF.chain.top hpc hend))
    obtain ⟨-, hpcn, -⟩ := hF.chain.of_get hpc
    have hlen : anchor.eth.number.toNat - sc.eth.number.toNat = gap.length := by
      rw [hpcn, hx.last, hscn]
      exact Nat.add_sub_cancel_left _ _
    obtain ⟨calls, execs, hex, hcalls, hexecs⟩ := hx.executes
    have hcalls' : c.calls = calls := hcalls
    refine ⟨sc, gap, execs, by rw [hscn]; exact hsc, ?_, ?_, hx.held, ?_, hexecs⟩
    · have hstart := startPoint_ok hs
      cases hr : S.cfg.resume with
      | none =>
        rw [hone hr] at hlast hmem
        exact (List.mem_singleton.mp hmem).trans hlast
      | some r =>
        rw [hr] at hstart
        exact ⟨hscn.trans hstart.1, fun want hw => hsch.trans (hstart.2 want hw)⟩
    · rw [hlen, hx.numbers, hscn]
      rfl
    · rw [hcalls', hsch]
      exact hex

/-- `finishBootstrap` without a failure. -/
theorem Fetched.finishBootstrap (hU : HeadersByHash U) (hpre : PreLive e.core) {low : Container}
    {cs : List Container} (hF : Fetched U e.back low cs) (hone : S.cfg.resume = none → cs = [])
    {anchor : Container} (hanchor : e.back.anchor = some anchor)
    (hf : (e.finishBootstrap S now anchor low).core.fatal = []) :
    ∃ core, e.finishBootstrap S now anchor low = (e.goLive S core anchor).sendPoll S now ∧
      ExactGap S e.back low anchor e.core core := by
  rw [Engine.finishBootstrap] at hf ⊢
  cases hs : startPoint S e.back.chain low with
  | error f =>
    rw [hs] at hf
    simp [Core.fail] at hf
  | ok hh =>
    obtain ⟨height, hash⟩ := hh
    rw [hs] at hf
    dsimp only at hf ⊢
    have hI : LoopInv e.back.chain (height + 1) hash
        (e.core.makeSink S (seeds e.back.chain low height) height hash) :=
      hpre.makeSink _ (hF.chain.start hs).1
    have hseen : Seen e.back.chain
        (e.core.makeSink S (seeds e.back.chain low height) height hash) [] :=
      ⟨List.nodup_nil, by simp, by simp⟩
    have hcross := hI.crosses (S := S) hU (fun n con hn => (hF.chain.of_get hn).2)
      e.back.chain.size hseen (Nat.le_refl _)
    cases hloop : (e.core.makeSink S (seeds e.back.chain low height) height hash).backfillLoop S
        e.back.chain e.back.chain.size (height + 1) hash with
    | mk ok core =>
      rw [hloop] at hcross hf
      cases ok with
      | false => exact absurd hf hcross
      | true =>
        obtain ⟨gap, hx⟩ := hcross
        exact ⟨core, rfl, hF.exactGap hone hanchor hs hx⟩

/-- What holds of every engine reached without a failure, before it is live. -/
structure FetchingInv (S : Setup T P V N ρ) (U : Container → Prop) (e : Engine T P N) : Prop where
  pre : e.phase ≠ .live → PreLive e.core
  idle : e.phase = .pollAnchor → e.back.low = none ∧ e.back.anchor = none
  back : e.phase = .backfill → FetchInv S U e.back

theorem FetchingInv.of_live (hp : e.phase = .live) : FetchingInv S U e := by
  refine ⟨fun hx => absurd hp hx, fun hx => ?_, fun hx => ?_⟩
  · cases hp.symm.trans hx
  · cases hp.symm.trans hx

/-- A container of the backfill that is taken and ends it. -/
theorem FetchingInv.finish (hU : HeadersByHash U) (h : FetchingInv S U e) (hp : e.phase = .backfill)
    {c : Container} (hc : U c) (ht : e.back.takes c = true)
    (hf : ((e.take c).finishBootstrap S now (e.back.anchor.getD c) c).core.fatal = []) :
    ∃ core, (e.take c).finishBootstrap S now (e.back.anchor.getD c) c =
        ((e.take c).goLive S core (e.back.anchor.getD c)).sendPoll S now ∧
      ExactGap S (e.take c).back c (e.back.anchor.getD c) e.core core := by
  obtain ⟨cs, hF, hone⟩ := (h.back hp).take hc ht
  have hpre : PreLive (e.take c).core := h.pre (by rw [hp]; decide)
  exact Fetched.finishBootstrap (e := e.take c) hU hpre hF hone rfl hf

theorem FetchingInv.backfillContainer (hU : HeadersByHash U) (h : FetchingInv S U e)
    (hp : e.phase = .backfill) {c : Container} (hc : U c)
    (hf : (e.backfillContainer S now c).core.fatal = []) :
    FetchingInv S U (e.backfillContainer S now c) := by
  rw [Engine.backfillContainer] at hf ⊢
  split
  · exact h
  rename_i ht
  rw [if_neg ht] at hf
  have ht : e.back.takes c = true := by simpa using ht
  dsimp only at hf ⊢
  split
  · rename_i hlast
    rw [if_pos hlast] at hf
    obtain ⟨core, hres, -⟩ := h.finish hU hp hc ht hf
    rw [hres]
    exact .of_live (effect_sendPoll (U := U) _).phase
  · rename_i hmore
    rw [not_or] at hmore
    obtain ⟨cs, hF, hone⟩ := (h.back hp).take hc ht
    refine ⟨fun _ => h.pre (by rw [hp]; decide), fun hx => ?_, fun _ => .inr ⟨?_, c, cs, hF, hmore.2⟩⟩
    · cases hp.symm.trans hx
    · -- without a resume point the anchor ends the backfill
      intro hr
      have hanchor : e.back.anchor.getD c = c := by
        have hlast := Option.some.inj hF.chain.anchored
        rw [hone hr] at hlast
        exact hlast
      rw [backfillTarget, hr, hanchor] at hmore
      exact hmore.1 rfl

theorem FetchingInv.fetch (hU : HeadersByHash U) {e' : Engine T P N} (h : FetchingInv S U e)
    (hfetch : Fetch S U e e') (hf : e'.core.fatal = []) : FetchingInv S U e' := by
  cases hfetch with
  | same hp hc hl ha hchain hid =>
    refine ⟨fun hx => ?_, fun hx => ?_, fun hx => ?_⟩ <;> rw [hp] at hx
    · rw [hc]
      exact h.pre hx
    · rw [hl, ha]
      exact h.idle hx
    · rcases h.back hx with ⟨h1, h2, h3⟩ | ⟨hr, low, cs, hF, hpos⟩
      · exact .inl ⟨hl.trans h1, ha.trans h2, by rw [hchain]; exact h3⟩
      · refine .inr ⟨hr, low, cs, ⟨⟨hl.trans hF.chain.bottom, ha.trans hF.chain.anchored,
          hF.chain.ascends, hF.chain.delivered, by rw [hchain]; exact hF.chain.get⟩, hF.follows,
          hF.anchorID.trans hid.symm⟩, hpos⟩
  | moves hp heff => exact .of_live (heff.phase.trans hp)
  | found hp a =>
    obtain ⟨h1, h2⟩ := h.idle hp
    exact ⟨fun _ => h.pre (by rw [hp]; decide), fun hx => (by cases hx),
      fun _ => .inl ⟨h1, h2, fun _ => rfl⟩⟩
  | container now hp hc => exact h.backfillContainer hU hp hc hf

end Live

theorem Fetch.grows {e e' : Engine T P N} (h : Fetch S U e e') : Grows e.core e'.core := by
  have hshifts := h.shifts
  clear h
  induction hshifts with
  | refl => exact .refl _
  | tail _ hlast ih => exact ih.trans hlast.grows

theorem fetchingInv_run (hU : HeadersByHash U) {host : Host} (hhost : Rest host.sink) {net : N}
    {Q : Engine T P N → Input → Prop} {e : Engine T P N}
    (h : Run S U Q (Engine.new S host net) e) (hf : e.core.fatal = []) : FetchingInv S U e := by
  refine h.fetch_rule (fun e => e.core.fatal = [] → FetchingInv S U e) (fun _ => ?_)
    (fun e e' hI hfetch hf' => ?_) (fun e handle hI _ hf' => ?_) hf
  · exact ⟨fun _ => ⟨hhost, fun _ => rfl, by simp [Engine.new]⟩, fun _ => ⟨rfl, rfl⟩,
      fun hx => (by cases hx)⟩
  · exact (hI (List.prefix_nil.mp (hf' ▸ hfetch.grows.fatal))).fetch hU hfetch hf'
  · obtain ⟨hpre, hidle, hback⟩ := hI hf'
    exact ⟨fun hx => ⟨(hpre hx).sink, (hpre hx).recs, (hpre hx).clean⟩, hidle, hback⟩

/-- Whenever a container makes the engine go live, at any point of any run in which nothing
failed: the backfill holds exactly the chain from that container to the anchor, exactly the
gap above the start point was executed and passed on, and the engine starts on the anchor. -/
theorem backfill_executes_gap (hU : HeadersByHash U) {host : Host} (hhost : Rest host.sink)
    {net : N} {e e1 : Engine T P N} (h : Run S U (fun _ _ => True) (Engine.new S host net) e)
    (hfetch : Fetches S U e e1) (hp : e1.phase = .backfill) (now : Nat) {c : Container} (hc : U c)
    (hlive : (e1.backfillContainer S now c).phase = .live)
    (hf : (e1.backfillContainer S now c).core.fatal = []) :
    ∃ anchor core,
      e1.backfillContainer S now c = ((e1.take c).goLive S core anchor).sendPoll S now ∧
      ExactGap S (e1.take c).back c anchor e1.core core ∧
      ((e1.take c).goLive S core anchor).core.lastAcceptedID = anchor.id ∧
      ((e1.take c).goLive S core anchor).core.lastAcceptedHeight = anchor.eth.number ∧
      ((e1.take c).goLive S core anchor).core.lastAcceptedEthHash = anchor.eth.hash := by
  have hinv : e1.core.fatal = [] → FetchingInv S U e1 := by
    clear hp hlive hf
    induction hfetch with
    | refl => exact fetchingInv_run hU hhost h
    | tail _ hlast ih =>
      exact fun hf' => (ih (List.prefix_nil.mp (hf' ▸ hlast.grows.fatal))).fetch hU hlast hf'
  have hgrows := (Fetch.container (S := S) now hp hc).grows.fatal
  have h1 := hinv (List.prefix_nil.mp (hf ▸ hgrows))
  rw [Engine.backfillContainer] at hlive hf ⊢
  split at hlive
  · cases hp.symm.trans hlive
  rename_i ht
  rw [if_neg ht] at hf ⊢
  dsimp only at hlive hf ⊢
  split at hlive
  · rename_i hlast
    rw [if_pos hlast] at hf ⊢
    obtain ⟨core, hres, hgap⟩ := h1.finish hU hp hc (by simpa using ht) hf
    exact ⟨_, core, hres, hgap, rfl, rfl, rfl⟩
  · cases hp.symm.trans hlive

namespace Sample

/-- The containers from the resume point to the anchor. -/
def linked : List Bytes := [[105, 104, 5, 4, 5], [106, 105, 6, 5, 6], [107, 106, 7, 6, 7]]

/-- The anchor is container 107.  Its parent comes too early and is dropped; then the anchor
arrives, twice, and its parent. -/
def fetched : Engine Procs Unit UInt32 :=
  (((((asked.onChits setup 0 (node 1) 1 ID.empty ID.empty (FixedBytes.ofNat 32 107) 7).onChits
    setup 0 (node 2) 1 ID.empty ID.empty (FixedBytes.ofNat 32 107) 7).onContainer
      setup 0 [106, 105, 6, 5, 6]).onContainer setup 0 [107, 106, 7, 6, 7]).onContainer
        setup 0 [107, 106, 7, 6, 7]).onContainer setup 0 [106, 105, 6, 5, 6]

/-- The container at the resume point. -/
def bottom : Container :=
  ⟨FixedBytes.ofNat 32 105, FixedBytes.ofNat 32 104, eth 5 4 5 []⟩

theorem mem_linked {node : NodeID} {raw : Bytes} (hraw : raw ∈ linked) :
    ∀ c ∈ (Input.container node raw).delivers setup, c ∈ linked.filterMap parse := by
  intro c hc
  exact List.mem_filterMap.mpr ⟨raw, hraw, Option.mem_toList.mp hc⟩

theorem fetched_run : Run setup (fun c => c ∈ linked.filterMap parse) (fun _ _ => True)
    (Engine.new setup host 0) fetched :=
  ((((((asked_run fun _ => trivial).call 0
    (.chits (node 1) 1 ID.empty ID.empty (FixedBytes.ofNat 32 107) 7)
    (by simp [Input.delivers]) trivial).call 0
    (.chits (node 2) 1 ID.empty ID.empty (FixedBytes.ofNat 32 107) 7)
    (by simp [Input.delivers]) trivial).call 0 (.container (node 1) [106, 105, 6, 5, 6])
    (mem_linked (by decide)) trivial).call 0 (.container (node 1) [107, 106, 7, 6, 7])
    (mem_linked (by decide)) trivial).call 0 (.container (node 2) [107, 106, 7, 6, 7])
    (mem_linked (by decide)) trivial).call 0 (.container (node 1) [106, 105, 6, 5, 6])
    (mem_linked (by decide)) trivial

theorem linked_headersByHash : HeadersByHash (fun c => c ∈ linked.filterMap parse) := by
  have hall : ∀ c ∈ linked.filterMap parse, ∀ c' ∈ linked.filterMap parse,
      c.eth.hash = c'.eth.hash →
        c.eth.parentHash = c'.eth.parentHash ∧ c.eth.number = c'.eth.number := by
    decide +kernel
  exact fun c c' hc hc' => hall c hc c' hc'

end Sample

open Sample in
/-- The gap of two blocks is executed. -/
theorem backfill_executes_gap_two :
    (fetched.backfillContainer setup 0 bottom).core.calls.length = 4 ∧
      ∃ anchor core, anchor.id = FixedBytes.ofNat 32 107 ∧
        ExactGap setup (fetched.take bottom).back bottom anchor fetched.core core := by
  have hp : fetched.phase = .backfill := by decide +kernel
  have hid : (fetched.take bottom).back.anchorID = FixedBytes.ofNat 32 107 := by decide +kernel
  obtain ⟨anchor, core, -, hgap, -⟩ := backfill_executes_gap linked_headersByHash
    host_rest fetched_run .refl hp 0 (c := bottom) (by decide +kernel) (by decide +kernel)
    (by decide +kernel)
  exact ⟨by decide +kernel, anchor, core, hgap.anchorID.trans hid, hgap⟩

end Flatstate.Consensus
