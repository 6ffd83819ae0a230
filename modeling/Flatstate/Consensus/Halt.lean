import Flatstate.Consensus.Gap
import Flatstate.Consensus.Votes

set_option autoImplicit false

/-!
# Consensus: what still happens after a failure

`fail` puts the error into a channel and returns; no entry point looks whether it has been
called.  What follows says which calls reach the sink: a container that ends the backfill
or is issued, and a vote that finishes a poll.
-/

namespace Flatstate.Consensus

open Foundation Schema Capture Store Exec Node

variable {T P V N ρ : Type} {S : Setup T P V N ρ} {now : Nat}

/-- No sink was made, and none was called. -/
structure Core.Silent (c c' : Core T) : Prop where
  calls : c'.calls = c.calls
  made : c'.made = c.made

theorem Core.Silent.refl (c : Core T) : c.Silent c := ⟨rfl, rfl⟩

theorem Core.Silent.trans {c c' c'' : Core T} (h : c.Silent c') (h' : c'.Silent c'') :
    c.Silent c'' :=
  ⟨h'.calls.trans h.calls, h'.made.trans h.made⟩

theorem Core.Silent.of_eq {c c' : Core T} (h : c' = c) : c.Silent c' := h ▸ .refl c

/-! ## Votes that finish no poll -/

/-- Whatever the node answers to the request, and if its answer is dropped, no poll
finishes. -/
def Engine.Pending (S : Setup T P V N ρ) (e : Engine T P N) (requestID : UInt32)
    (node : NodeID) : Prop :=
  (∀ vote, (S.polls.vote e.core.cons e.polls requestID node vote).1 = []) ∧
    (S.polls.drop e.core.cons e.polls requestID node).1 = []

theorem Engine.Pending.fetch {e : Engine T P N} {requestID : UInt32} {node : NodeID}
    (h : e.Pending S requestID node) (id : ID) :
    (e.fetchIfUnknown S now id).Pending S requestID node := by
  rw [Engine.Pending, fetchIfUnknown_core, (quiet_fetchIfUnknown (U := fun _ => True) e id).polls]
  exact h

theorem recordPolls_nil (c : Core T) : c.recordPolls S ([] : List V) = c := rfl

section Votes

variable {e : Engine T P N} {v : ParkedVote} (h : e.Pending S v.requestID v.nodeID)
include h

theorem castVote_core (vote : ID) : (e.castVote S v vote).core = e.core := by
  rw [Engine.castVote]
  dsimp only
  rw [h.1 vote, recordPolls_nil]

theorem dropVote_core : (e.dropVote S v).core = e.core := by
  rw [Engine.dropVote]
  dsimp only
  rw [h.2, recordPolls_nil]

theorem applyOptions_core {allowPark first : Bool} {options : List ID} {e' : Engine T P N}
    (he : e.applyOptions S now v allowPark first options = some e') : e'.core = e.core := by
  induction options generalizing first with
  | nil => simp [Engine.applyOptions] at he
  | cons opt rest ih =>
    rw [Engine.applyOptions] at he
    split at he
    · rw [← Option.some.inj he]
      exact castVote_core h _
    · split at he
      · rw [← Option.some.inj he]
        exact fetchIfUnknown_core e _
      · exact ih he

theorem applyVote_core (allowPark : Bool) :
    (e.applyVote S now v allowPark).core = e.core := by
  rw [Engine.applyVote]
  split
  · rename_i he
    exact applyOptions_core h he
  · split
    · exact dropVote_core h
    · split
      · exact castVote_core h _
      · exact dropVote_core h

end Votes

/-! ## Containers that are not issued -/

/-- The parent is neither accepted nor issued, the block does not stand on it, or its
execution fails. -/
def Core.Bars (S : Setup T P V N ρ) (c : Core T) (con : Container) : Prop :=
  ∀ p, c.parentOf ⟨con, false, []⟩ = some p →
    (con.eth.parentHash ≠ p.1 ∨ con.eth.number ≠ p.2.1 + 1) ∨
      ∃ x, (c.execute S p.1 p.2.2 con.eth).1 = .error x

theorem silent_issue {c : Core T} {r : Rec} {p : Hash × UInt64 × List Batch}
    (h : (r.c.eth.parentHash ≠ p.1 ∨ r.c.eth.number ≠ p.2.1 + 1) ∨
      ∃ x, (c.execute S p.1 p.2.2 r.c.eth).1 = .error x) :
    (c.issue S r p).1 = false ∧ c.Silent (c.issue S r p).2 := by
  rw [Core.issue]
  split
  · exact ⟨rfl, rfl, rfl⟩
  · rename_i hn
    obtain ⟨x, hx⟩ := h.resolve_left hn
    cases hexec : c.execute S p.1 p.2.2 r.c.eth with
    | mk res c' =>
      have hc : c.Silent c' := by
        have hc : c' = (c.execute S p.1 p.2.2 r.c.eth).2 := by rw [hexec]
        rw [hc]
        exact ⟨rfl, rfl⟩
      rw [hexec] at hx
      subst hx
      exact ⟨rfl, hc.calls, hc.made⟩

/-- The container is known, old, or barred, and no vote waits for it. -/
def Engine.Ignores (S : Setup T P V N ρ) (e : Engine T P N) (c : Container) : Prop :=
  (e.core.recs.get c.id).isSome = true ∨ c.id = e.core.lastAcceptedID ∨
    c.eth.number ≤ e.core.lastAcceptedHeight ∨ (e.core.Bars S c ∧ e.parked.get c.id = none)

/-- A new container waits for its parent as before it is put among the others. -/
theorem parentOf_insert {c : Core T} {con : Container} (hnew : c.recs.get con.id = none) :
    ({ c with recs := c.recs.set con.id ⟨con, false, []⟩ } : Core T).parentOf ⟨con, false, []⟩ =
      c.parentOf ⟨con, false, []⟩ := by
  rw [Core.parentOf, Core.parentOf]
  by_cases hp : con.parentID = con.id
  · simp [hp, hnew]
  · simp [Table.get_set_of_ne _ _ hp]

theorem silent_await (e : Engine T P N) (c : Container) :
    e.core.Silent (e.await S now c).core := by
  rw [Engine.await]
  dsimp only
  split
  · exact ⟨rfl, rfl⟩
  · constructor <;> simp [fetchIfUnknown_core]

theorem silent_tryIssue {e e' : Engine T P N} {c : Container} {n : Nat}
    (hr : e.core.recs.get c.id = some ⟨c, false, []⟩) (hb : e.core.Bars S c)
    (h : e.tryIssue S now n c.id = some e') :
    e.core.Silent e'.core ∧ e'.parked = e.parked := by
  cases n with
  | zero => simp [Engine.tryIssue] at h
  | succ n =>
    rw [Engine.tryIssue, hr] at h
    dsimp only at h
    rw [if_neg (by simp)] at h
    cases hp : e.core.parentOf ⟨c, false, []⟩ with
    | none =>
      rw [hp] at h
      rw [← Option.some.inj h]
      exact ⟨silent_await e c, (quiet_await (U := fun _ => True) e c).parked⟩
    | some p =>
      rw [hp] at h
      have hissue := silent_issue (S := S) (r := ⟨c, false, []⟩) (hb p hp)
      cases hres : e.core.issue S ⟨c, false, []⟩ p with
      | mk ok core =>
        rw [hres] at hissue
        obtain ⟨rfl, hs⟩ := hissue
        simp only [hres] at h
        rw [← Option.some.inj h]
        exact ⟨hs, rfl⟩

theorem silent_addContainer {e : Engine T P N} {c : Container} (h : e.Ignores S c) :
    e.core.Silent (e.addContainer S now c).core := by
  rw [Engine.addContainer]
  split
  · exact .refl _
  split
  · exact .refl _
  rename_i hnew hold
  rw [not_or] at hold
  obtain ⟨hb, hparked⟩ :=
    ((h.resolve_left hnew).resolve_left hold.1).resolve_left hold.2
  have hnew : e.core.recs.get c.id = none := by simpa using hnew
  dsimp only
  split
  · exact ⟨rfl, rfl⟩
  · rename_i e' he'
    -- the execution sees nothing of the container being put among the others
    have hb' : Core.Bars S { e.core with recs := e.core.recs.set c.id ⟨c, false, []⟩ } c := by
      intro p hp
      rw [parentOf_insert hnew] at hp
      exact hb p hp
    obtain ⟨hs, hsame⟩ := silent_tryIssue (e := { e with
      core := { e.core with recs := e.core.recs.set c.id ⟨c, false, []⟩ } }) (by simp) hb' he'
    rw [hsame, hparked]
    exact ⟨hs.calls, hs.made⟩

/-! ## The rest of a tick -/

/-- No poll and no parked vote has expired, and the validators a new poll would ask are all
connected. -/
def Engine.Calm (S : Setup T P V N ρ) (now : Nat) (e : Engine T P N) : Prop :=
  (∀ en ∈ e.pollVdrs.entries, now < en.2.deadline) ∧
  (∀ en ∈ e.parked.entries, ∀ v ∈ en.2, ¬ v.deadline < now) ∧
  ∀ vdrs net, S.net.sampleValidators
      (((e.expirePolls S now).expireParked S now).retryGets S now).net S.cfg.k = (some vdrs, net) →
    ∀ v ∈ vdrs, S.net.isConnected (S.net.nextRequestID net).2 v = true

theorem foldl_core {α : Type} {f : Engine T P N → α → Engine T P N} {as : List α}
    (hf : ∀ e, ∀ a ∈ as, (f e a).core = e.core) (e : Engine T P N) :
    (as.foldl f e).core = e.core := by
  induction as generalizing e with
  | nil => rfl
  | cons a as ih =>
    rw [List.foldl_cons, ih (fun e b hb => hf e b (List.mem_cons_of_mem a hb))]
    exact hf e a List.mem_cons_self

theorem expireVotes_core {e : Engine T P N} {id : ID} {votes : List ParkedVote}
    (h : ∀ v ∈ votes, ¬ v.deadline < now) : (e.expireVotes S now id votes).core = e.core := by
  have hnone : votes.filter (fun v => v.deadline < now) = [] := by
    rw [List.filter_eq_nil_iff]
    exact fun v hv => by simpa using h v hv
  rw [Engine.expireVotes]
  dsimp only
  rw [hnone]
  rfl

theorem retryGet_core (e : Engine T P N) (id : ID) (g : GetReq) :
    (e.retryGet S now id g).core = e.core := by
  rw [Engine.retryGet]
  split
  · rfl
  split
  · rfl
  · exact fetchIfUnknown_core e id

theorem sendPoll_core {e : Engine T P N} (h : ∀ vdrs net,
      S.net.sampleValidators e.net S.cfg.k = (some vdrs, net) →
        ∀ v ∈ vdrs, S.net.isConnected (S.net.nextRequestID net).2 v = true) :
    (e.sendPoll S now).core = e.core := by
  rw [Engine.sendPoll]
  split
  · rfl
  · rfl
  · rename_i vdrs net _ hsample
    dsimp only
    split
    · rfl
    · have hnone : vdrs.dedup.filter (fun v => ¬ S.net.isConnected (S.net.nextRequestID net).2 v) =
          [] := by
        rw [List.filter_eq_nil_iff]
        intro v hv
        simpa using h vdrs net hsample v (List.mem_dedup.mp hv)
      split
      · rw [hnone]
        rfl
      · dsimp only [Engine.send]
        rw [hnone]
        rfl

theorem expirePolls_eq {e : Engine T P N} (h : ∀ en ∈ e.pollVdrs.entries, now < en.2.deadline) :
    e.expirePolls S now = e := by
  have hfold : ∀ (ens : List (UInt32 × PollState)), (∀ en ∈ ens, now < en.2.deadline) →
      ens.foldl (fun e en => e.expirePoll S now en.1 en.2) e = e := by
    intro ens hens
    induction ens with
    | nil => rfl
    | cons en ens ih =>
      rw [List.forall_mem_cons] at hens
      rw [List.foldl_cons, Engine.expirePoll, if_pos hens.1, ih hens.2]
  exact hfold _ h

theorem tickLive_core {e : Engine T P N} (h : e.Calm S now) : (e.tickLive S now).core = e.core := by
  obtain ⟨hpolls, hparked, hsample⟩ := h
  have hp : e.expirePolls S now = e := expirePolls_eq hpolls
  have hgets : (((e.expirePolls S now).expireParked S now).retryGets S now).core = e.core := by
    rw [Engine.retryGets, foldl_core (fun e en _ => retryGet_core e en.1 en.2), Engine.expireParked,
      hp, foldl_core fun e en hen => expireVotes_core (hparked en hen)]
  rw [Engine.tickLive]
  split
  · split
    · rw [sendPoll_core hsample, hgets]
    · exact hgets
  · split
    · rw [sendPoll_core hsample, hgets]
    · exact hgets

/-! ## Containers that do not end the backfill -/

/-- The container is the next one down, ends the backfill, and there is a start point. -/
def Engine.Completes (S : Setup T P V N ρ) (e : Engine T P N) (c : Container) : Prop :=
  e.back.takes c = true ∧
    (c.eth.number = backfillTarget S (e.back.anchor.getD c) ∨ c.eth.number = 0) ∧
    ∃ p, startPoint S (e.take c).back.chain c = .ok p

theorem silent_backfillContainer {e : Engine T P N} {c : Container} (h : ¬ e.Completes S c) :
    e.core.Silent (e.backfillContainer S now c).core := by
  rw [Engine.backfillContainer]
  split
  · exact .refl _
  rename_i ht
  dsimp only
  split
  · rename_i hlast
    rw [Engine.finishBootstrap]
    cases hs : startPoint S (e.take c).back.chain c with
    | error f => exact ⟨rfl, rfl⟩
    | ok p => exact absurd ⟨by simpa using ht, hlast, p, hs⟩ h
  · exact ⟨rfl, rfl⟩

/-- No container of `OnAncestors` ends the backfill, each looked at when its turn comes. -/
def Engine.Passes (S : Setup T P V N ρ) (now : Nat) (e : Engine T P N) : List Bytes → Prop
  | [] => True
  | raw :: rest => ∀ c, S.parse raw = some c →
      ¬ e.Completes S c ∧ (e.backfillContainer S now c).Passes S now rest

theorem silent_ancestorsLoop {raws : List Bytes} {e : Engine T P N} (h : e.Passes S now raws) :
    e.core.Silent (e.ancestorsLoop S now raws).2.core := by
  induction raws generalizing e with
  | nil => exact .refl _
  | cons raw rest ih =>
    rw [Engine.ancestorsLoop]
    cases hc : S.parse raw with
    | none => exact .refl _
    | some c =>
      obtain ⟨hno, hrest⟩ := h c hc
      have hs : e.core.Silent (e.backfillContainer S now c).core := silent_backfillContainer hno
      dsimp only
      split
      · exact hs.trans (ih hrest)
      · exact hs

/-! ## Calls -/

/-- What a call must look like to reach no sink. -/
def Engine.Spares (S : Setup T P V N ρ) (now : Nat) (e : Engine T P N) : Input → Prop
  | .container _ raw => ∀ c, S.parse raw = some c →
      (e.phase = .backfill → ¬ e.Completes S c) ∧ (e.phase = .live → e.Ignores S c)
  | .chits node requestID _ _ _ _ => e.phase = .live →
      ∀ ps, e.pollVdrs.get requestID = some ps → node ∈ ps.remaining → e.Pending S requestID node
  | .ancestors _ requestID raws => e.phase = .backfill → requestID = e.back.reqID →
      Engine.Passes S now { e with back := { e.back with reqID := 0 } } raws
  | .tick => e.phase = .live → e.Calm S now

theorem sendBackfillRequest_core (e : Engine T P N) :
    (e.sendBackfillRequest S now).core = e.core := by
  rw [Engine.sendBackfillRequest]
  split
  · rfl
  · dsimp only
    split <;> rfl

theorem sendBootstrapPoll_core (e : Engine T P N) :
    (e.sendBootstrapPoll S now).core = e.core := by
  rw [Engine.sendBootstrapPoll]
  split
  · rfl
  · rfl
  · dsimp only
    split <;> rfl

theorem bootstrapChit_core (e : Engine T P N) (node : NodeID) (requestID : UInt32) (accepted : ID) :
    (e.bootstrapChit S now node requestID accepted).core = e.core := by
  rw [Engine.bootstrapChit]
  split
  · rfl
  · dsimp only
    split
    · rfl
    · exact sendBackfillRequest_core _

theorem silent_onContainer {e : Engine T P N} {node : NodeID} {raw : Bytes}
    (h : e.Spares S now (.container node raw)) : e.core.Silent (e.onContainer S now raw).core := by
  rw [Engine.onContainer]
  cases hc : S.parse raw with
  | none => exact .refl _
  | some c =>
    obtain ⟨hback, hlive⟩ := h c hc
    dsimp only
    split
    · exact .refl _
    · rename_i hp
      have hs : e.core.Silent
          (Engine.backfillContainer S now { e with gets := e.gets.erase c.id } c).core :=
        silent_backfillContainer (e := { e with gets := e.gets.erase c.id }) (hback hp)
      split
      · rw [sendBackfillRequest_core]
        exact hs
      · exact hs
    · rename_i hp
      exact silent_addContainer (e := { e with gets := e.gets.erase c.id }) (hlive hp)

theorem onChits_core {e : Engine T P N} {node : NodeID} {requestID : UInt32}
    {preferred preferredAtHeight accepted : ID} {height : UInt64}
    (h : e.Spares S now (.chits node requestID preferred preferredAtHeight accepted height)) :
    (e.onChits S now node requestID preferred preferredAtHeight accepted height).core = e.core := by
  rw [Engine.onChits]
  dsimp only
  split
  · exact bootstrapChit_core _ _ _ _
  · rfl
  · rename_i hp
    split
    · rfl
    · rename_i ps hps
      split
      · rfl
      · rename_i hin
        have hopen := h hp ps hps (by simpa using hin)
        split
        · refine (applyVote_core (.fetch (.fetch ?_ preferred) preferredAtHeight) true).trans ?_
          · exact hopen
          · rw [fetchIfUnknown_core, fetchIfUnknown_core]
            rfl
        · refine (applyVote_core (.fetch ?_ preferred) true).trans (fetchIfUnknown_core _ _)
          exact hopen

theorem silent_onAncestors {e : Engine T P N} {node : NodeID} {requestID : UInt32}
    {raws : List Bytes} (h : e.Spares S now (.ancestors node requestID raws)) :
    e.core.Silent (e.onAncestors S now requestID raws).core := by
  rw [Engine.onAncestors]
  split
  · exact .refl _
  · rename_i hguard
    rw [not_or, not_not, not_not] at hguard
    have hs := silent_ancestorsLoop (h hguard.1 hguard.2)
    split
    · rename_i hloop
      rw [hloop] at hs
      exact hs
    · rename_i hloop
      rw [hloop] at hs
      rw [sendBackfillRequest_core]
      exact hs

theorem tick_core {e : Engine T P N} (h : e.Spares S now .tick) :
    (e.tick S now).core = e.core := by
  rw [Engine.tick]
  split
  · split
    · exact sendBootstrapPoll_core e
    · rfl
  · split
    · exact sendBackfillRequest_core e
    · rfl
  · rename_i hp
    exact tickLive_core (h hp)

theorem silent_step {e : Engine T P N} {i : Input} (h : e.Spares S now i) :
    e.core.Silent (e.step S now i).core := by
  cases i with
  | container node raw => exact silent_onContainer h
  | chits node requestID preferred preferredAtHeight accepted height => exact .of_eq (onChits_core h)
  | ancestors node requestID raws => exact silent_onAncestors h
  | tick => exact .of_eq (tick_core h)

/-! ## Runs -/

/-- A run in which, once something has failed, every call is one that spares the sink. -/
inductive Halting (S : Setup T P V N ρ) (e0 : Engine T P N) : Engine T P N → Prop where
  | init : Halting S e0 e0
  | call {e : Engine T P N} (h : Halting S e0 e) (now : Nat) (i : Input)
      (hs : e.core.fatal ≠ [] → e.Spares S now i) : Halting S e0 (e.step S now i)
  | net {e : Engine T P N} (h : Halting S e0 e) (n : N) : Halting S e0 { e with net := n }
  | reorder {e e' : Engine T P N} (h : Halting S e0 e) (ho : Reordered e e') : Halting S e0 e'
  | looks {e : Engine T P N} (h : Halting S e0 e) (handle : Handle)
      (hc : Coherent handle e.core.host.sink.env) :
      Halting S e0 { e with core := { e.core with host := { e.core.host with handle := handle } } }

theorem step_fatal (S : Setup T P V N ρ) (now : Nat) (e : Engine T P N) (i : Input) :
    e.core.fatal <+: (e.step S now i).core.fatal := by
  have hfetches : Fetches S (fun _ => True) e (e.step S now i) :=
    fetches_step e i fun _ _ => trivial
  generalize e.step S now i = e' at hfetches ⊢
  induction hfetches with
  | refl => exact List.prefix_rfl
  | tail _ hlast ih => exact ih.trans hlast.grows.fatal

/-- Nothing reaches a sink after a failure, in every run whose later calls spare it. -/
theorem no_sink_call_after_failure {e e' : Engine T P N} (hf : e.core.fatal ≠ [])
    (h : Halting S e e') : e'.core.calls = e.core.calls ∧ e'.core.made = e.core.made := by
  have hI : e'.core.fatal ≠ [] ∧ e.core.Silent e'.core := by
    induction h with
    | init => exact ⟨hf, .refl _⟩
    | call _ now i hs ih =>
      refine ⟨fun hnil => ih.1 ?_, ih.2.trans (silent_step (hs ih.1))⟩
      exact List.prefix_nil.mp (hnil ▸ step_fatal S now _ i)
    | net _ n ih => exact ih
    | reorder _ ho ih =>
      rw [ho.rest]
      exact ih
    | looks _ handle hc ih => exact ⟨ih.1, ih.2.calls, ih.2.made⟩
  exact ⟨hI.2.calls, hI.2.made⟩

namespace Sample

/-- The small follower resuming at `height`, with an executor that fails on every block with
a body. -/
def frail (height : UInt64) : Setup Procs Unit (Option ID) UInt32 Unit :=
  { setup with
    cfg := { setup.cfg with resume := some ⟨height, none⟩ }
    evm := { evm with run := fun σ blk => if blk.body = [] then evm.run σ blk else none } }

/-- Calls at time 0. -/
def fed (height : UInt64) (is : List Input) : Engine Procs Unit UInt32 :=
  is.foldl (fun e i => e.step (frail height) 0 i) (Engine.new (frail height) host 0)

theorem fed_run (height : UInt64) (is : List Input) :
    Run (frail height) (fun _ => True) (fun _ _ => True) (Engine.new (frail height) host 0)
      (fed height is) := by
  have hfold : ∀ e, Run (frail height) (fun _ => True) (fun _ _ => True)
      (Engine.new (frail height) host 0) e →
      Run (frail height) (fun _ => True) (fun _ _ => True) (Engine.new (frail height) host 0)
        (is.foldl (fun e i => e.step (frail height) 0 i) e) := by
    induction is with
    | nil => exact fun _ h => h
    | cons i is ih => exact fun e h => ih _ (h.call 0 i (fun _ _ => trivial) trivial)
  exact hfold _ .init

/-- Two nodes name the container `id` as the anchor. -/
def named (id : Nat) : List Input :=
  [.tick, .chits (node 1) 1 ID.empty ID.empty (FixedBytes.ofNat 32 id) 5,
    .chits (node 2) 1 ID.empty ID.empty (FixedBytes.ofNat 32 id) 5]

/-- The engine is live on container 105; its child 106 fails to execute. -/
def failedLive : Engine Procs Unit UInt32 :=
  fed 5 (named 105 ++ [.container (node 1) [105, 104, 5, 4, 5],
    .container (node 1) [106, 105, 6, 5, 6, 1]])

/-- The gap above block 1 is container 102, which fails to execute. -/
def failedGap : Engine Procs Unit UInt32 :=
  fed 1 (named 102 ++ [.container (node 1) [102, 101, 2, 1, 2, 1],
    .container (node 1) [101, 100, 1, 0, 1]])

end Sample

open Sample in
/-- After a block failed to execute, its sibling is executed, verified and made the head;
and after a gap failed to execute, the backfill goes on below the resume point and makes
another sink. -/
theorem sink_calls_after_failure :
    (Run (frail 5) (fun _ => True) (fun _ _ => True) (Engine.new (frail 5) host 0) failedLive ∧
      failedLive.core.fatal ≠ [] ∧ failedLive.core.calls.length = 0 ∧
      (failedLive.step (frail 5) 0 (.container (node 2) [107, 105, 7, 5, 6])).core.calls.length = 2) ∧
    (Run (frail 1) (fun _ => True) (fun _ _ => True) (Engine.new (frail 1) host 0) failedGap ∧
      failedGap.core.fatal ≠ [] ∧ failedGap.core.made = 1 ∧
      (failedGap.step (frail 1) 0 (.container (node 2) [100, 99, 0, 9, 0])).core.made = 2) :=
  ⟨⟨fed_run 5 _, by decide +kernel, by decide +kernel, by decide +kernel⟩,
    fed_run 1 _, by decide +kernel, by decide +kernel, by decide +kernel⟩

open Sample in
/-- The container that failed comes again. -/
theorem no_sink_call_after_failure_again :
    failedLive.core.fatal ≠ [] ∧
      (failedLive.step (frail 5) 0 (.container (node 2) [106, 105, 6, 5, 6, 1])).core.calls =
        failedLive.core.calls ∧
      (failedLive.step (frail 5) 0 (.container (node 2) [106, 105, 6, 5, 6, 1])).core.made =
        failedLive.core.made := by
  have hf : failedLive.core.fatal ≠ [] := by decide +kernel
  have hlive : failedLive.phase = .live := by decide +kernel
  have hknown : (failedLive.core.recs.get (FixedBytes.ofNat 32 106)).isSome = true := by
    decide +kernel
  refine ⟨hf, no_sink_call_after_failure hf
    (Halting.init.call 0 (.container (node 2) [106, 105, 6, 5, 6, 1]) fun _ c hc => ⟨?_, ?_⟩)⟩
  · rw [hlive]
    exact fun h => by cases h
  · obtain rfl := Option.some.inj hc
    exact fun _ => Or.inl hknown

end Flatstate.Consensus
