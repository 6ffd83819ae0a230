import Flatstate.Consensus.Backfill
import Flatstate.Consensus.Bubble
import Mathlib.Tactic.Abel

set_option autoImplicit false

/-!
# Consensus: every vote is counted once

A sampled validator of a poll is a ballot.  A ballot waits for the chits of its validator,
is parked on an unknown container, or has been counted by one call of `polls.Vote` or
`polls.Drop`; while an entry point is at work, some are in its hands.  Every function of
the engine moves ballots from one of these places to another and loses none (`Tally`,
`Balanced`), so the ballots sampled are at all times the ballots waiting, parked and counted.

For each function that calls the poll set we write down the calls it makes, each with the
engine as it is at that moment.  That these are all calls is part of the invariant: the poll
set is what they make of it.
-/

namespace Flatstate.Consensus

open Foundation Schema

variable {T P V N ρ : Type}

/-! ## Calls to the poll set -/

/-- A call to the poll set, with the engine as it is then. -/
inductive PollCall (T P N : Type) where
  /-- a poll that was added -/
  | add (requestID : UInt32) (vdrs : List NodeID)
  | vote (e : Engine T P N) (requestID : UInt32) (node : NodeID) (vote : ID)
  | drop (e : Engine T P N) (requestID : UInt32) (node : NodeID)

/-- The poll set after a call. -/
def PollCall.run (S : Setup T P V N ρ) (polls : P) : PollCall T P N → P
  | .add requestID vdrs => (S.polls.add polls requestID vdrs).getD polls
  | .vote e requestID node id => (S.polls.vote e.core.cons polls requestID node id).2
  | .drop e requestID node => (S.polls.drop e.core.cons polls requestID node).2

/-- The poll and the validator. -/
abbrev Ballot := UInt32 × NodeID

/-- The request ID of a poll that is added. -/
def PollCall.pollID : PollCall T P N → Option UInt32
  | .add requestID _ => some requestID
  | _ => none

/-- The ballots of a poll that is added. -/
def PollCall.samples : PollCall T P N → Multiset Ballot
  | .add requestID vdrs => (vdrs.dedup.map (fun v => (requestID, v)) : List Ballot)
  | _ => 0

/-- The ballot that is counted. -/
def PollCall.counts : PollCall T P N → Multiset Ballot
  | .add _ _ => 0
  | .vote _ requestID node _ => {(requestID, node)}
  | .drop _ requestID node => {(requestID, node)}

/-- The ballots of all polls. -/
def sampled (log : List (PollCall T P N)) : Multiset Ballot := (log.map PollCall.samples).sum

/-- The ballots counted. -/
def counted (log : List (PollCall T P N)) : Multiset Ballot := (log.map PollCall.counts).sum

theorem sampled_append (log log' : List (PollCall T P N)) :
    sampled (log ++ log') = sampled log + sampled log' := by
  rw [sampled, List.map_append, List.sum_append]
  rfl

theorem counted_append (log log' : List (PollCall T P N)) :
    counted (log ++ log') = counted log + counted log' := by
  rw [counted, List.map_append, List.sum_append]
  rfl

/-! ## The calls of each function -/

section Calls

variable (S : Setup T P V N ρ) (now : Nat)

/-- What `applyVote` does with a vote. -/
inductive Verdict where
  | vote (id : ID)
  | park (blocker : ID)
  | drop

/-- The outcome of the options, if they decide. -/
def Engine.optionsVerdict (e : Engine T P N) (allowPark : Bool) : Bool → List ID → Option Verdict
  | _, [] => none
  | first, opt :: rest =>
    match e.bubble S e.core.recs.size opt with
    | .ok vote => some (.vote vote)
    | .error blocker =>
      if allowPark ∧ first ∧ blocker ≠ ID.empty then some (.park blocker)
      else e.optionsVerdict allowPark false rest

/-- The outcome of `applyVote`. -/
def Engine.verdict (e : Engine T P N) (v : ParkedVote) (allowPark : Bool) : Verdict :=
  match e.optionsVerdict S allowPark true v.options with
  | some d => d
  | none =>
    match e.frontiers.get v.nodeID with
    | none => .drop
    | some fid =>
      match e.bubble S e.core.recs.size fid with
      | .ok vote => .vote vote
      | .error _ => .drop

def Engine.enact (e : Engine T P N) (v : ParkedVote) : Verdict → Engine T P N
  | .vote id => e.castVote S v id
  | .park blocker => e.park S now blocker v
  | .drop => e.dropVote S v

def Engine.applyVoteCalls (e : Engine T P N) (v : ParkedVote) (allowPark : Bool) :
    List (PollCall T P N) :=
  match e.verdict S v allowPark with
  | .vote id => [.vote e v.requestID v.nodeID id]
  | .park _ => []
  | .drop => [.drop e v.requestID v.nodeID]

/-- The calls of a loop, from those of its turns. -/
def loopCalls {α : Type} (f : Engine T P N → α → Engine T P N)
    (calls : Engine T P N → α → List (PollCall T P N)) : Engine T P N → List α → List (PollCall T P N)
  | _, [] => []
  | e, a :: as => calls e a ++ loopCalls f calls (f e a) as

def Engine.applyVotesCalls (e : Engine T P N) (vs : List ParkedVote) : List (PollCall T P N) :=
  loopCalls (fun e v => e.applyVote S now v false) (fun e v => e.applyVoteCalls S v false) e vs

def Engine.addContainerCalls (e : Engine T P N) (c : Container) : List (PollCall T P N) :=
  if (e.core.recs.get c.id).isSome then []
  else if c.id = e.core.lastAcceptedID ∨ c.eth.number ≤ e.core.lastAcceptedHeight then []
  else
    let e := { e with core := { e.core with recs := e.core.recs.set c.id ⟨c, false, []⟩ } }
    match e.tryIssue S now (e.core.unissued + 1) c.id with
    | none => []
    | some e =>
      match e.parked.get c.id with
      | none => []
      | some votes => ({ e with parked := e.parked.erase c.id }).applyVotesCalls S now votes

/-- A poll and the validators asked, as `sendPoll` leaves them before the votes of those
that are not connected. -/
def Engine.asking (e : Engine T P N) (net : N) (polls : P) (requestID : UInt32)
    (targets : List NodeID) : Engine T P N :=
  let e := { e with net := net, polls := polls, lastPollAt := some now }
  if targets = [] then e
  else
    ({ e with pollVdrs := e.pollVdrs.set requestID ⟨targets, now + S.cfg.pollTimeout⟩ }).send
      (.pullQuery targets requestID (S.topo.preference e.core.cons) (e.core.lastAcceptedHeight + 1))

def Engine.sendPollCalls (e : Engine T P N) : List (PollCall T P N) :=
  match S.net.sampleValidators e.net S.cfg.k with
  | (none, _) => []
  | (some [], _) => []
  | (some vdrs, net) =>
    let r := S.net.nextRequestID net
    match S.polls.add e.polls r.1 vdrs with
    | none => []
    | some polls =>
      .add r.1 vdrs ::
        (e.asking S now r.2 polls r.1
          (vdrs.dedup.filter (fun v => S.net.isConnected r.2 v))).applyVotesCalls S now
            ((vdrs.dedup.filter (fun v => ¬ S.net.isConnected r.2 v)).map (fun v => ⟨r.1, v, [], 0⟩))

def Engine.expirePollCalls (e : Engine T P N) (reqID : UInt32) (ps : PollState) :
    List (PollCall T P N) :=
  if now < ps.deadline then []
  else
    ({ e with pollVdrs := e.pollVdrs.erase reqID }).applyVotesCalls S now
      (ps.remaining.map (fun v => ⟨reqID, v, [], 0⟩))

def Engine.expireVotesCalls (e : Engine T P N) (votes : List ParkedVote) : List (PollCall T P N) :=
  e.applyVotesCalls S now
    ((votes.filter (fun v => v.deadline < now)).map (fun v => { v with options := [] }))

def Engine.expirePollsCalls (e : Engine T P N) : List (PollCall T P N) :=
  loopCalls (fun e (en : UInt32 × PollState) => e.expirePoll S now en.1 en.2)
    (fun e en => e.expirePollCalls S now en.1 en.2) e e.pollVdrs.entries

def Engine.expireParkedCalls (e : Engine T P N) : List (PollCall T P N) :=
  loopCalls (fun e (en : ID × List ParkedVote) => e.expireVotes S now en.1 en.2)
    (fun e en => e.expireVotesCalls S now en.2) e e.parked.entries

def Engine.tickLiveCalls (e : Engine T P N) : List (PollCall T P N) :=
  let e1 := e.expirePolls S now
  let e2 := e1.expireParked S now
  let e3 := e2.retryGets S now
  e.expirePollsCalls S now ++ (e1.expireParkedCalls S now ++
    if 0 < S.topo.numProcessing e3.core.cons then
      if S.polls.len e3.polls < S.cfg.concurrentRepolls ∧
          elapsed now S.cfg.pollInterval e3.lastPollAt
      then e3.sendPollCalls S now
      else []
    else if elapsed now S.cfg.idlePollInterval e3.lastPollAt then e3.sendPollCalls S now
    else [])

/-- The part of `OnChits` in front of `applyVote`, for a validator that is waited for. -/
def Engine.answered (e : Engine T P N) (node : NodeID) (requestID : UInt32) (ps : PollState)
    (preferred preferredAtHeight : ID) : Engine T P N :=
  let remaining := ps.remaining.erase node
  let e := { e with pollVdrs :=
    if remaining = [] then e.pollVdrs.erase requestID
    else e.pollVdrs.set requestID ⟨remaining, ps.deadline⟩ }
  let e := e.fetchIfUnknown S now preferred
  if preferredAtHeight ≠ preferred then e.fetchIfUnknown S now preferredAtHeight else e

def Engine.onChitsCalls (e : Engine T P N) (node : NodeID) (requestID : UInt32)
    (preferred preferredAtHeight accepted : ID) (acceptedHeight : UInt64) :
    List (PollCall T P N) :=
  let e := e.send (.chits node requestID preferred preferredAtHeight accepted acceptedHeight)
  match e.phase with
  | .pollAnchor => []
  | .backfill => []
  | .live =>
    let e := { e with frontiers := e.frontiers.set node accepted }
    match e.pollVdrs.get requestID with
    | none => []
    | some ps =>
      if node ∉ ps.remaining then []
      else
        (e.answered S now node requestID ps preferred preferredAtHeight).applyVoteCalls S
          ⟨requestID, node, [preferred, preferredAtHeight], now + requestTimeout⟩ true

def Engine.finishBootstrapCalls (e : Engine T P N) (anchor start : Container) :
    List (PollCall T P N) :=
  match startPoint S e.back.chain start with
  | .error _ => []
  | .ok (height, hash) =>
    let c := e.core.makeSink S (seeds e.back.chain start height) height hash
    match c.backfillLoop S e.back.chain e.back.chain.size (height + 1) hash with
    | (false, _) => []
    | (true, c) => (e.goLive S c anchor).sendPollCalls S now

def Engine.backfillContainerCalls (e : Engine T P N) (c : Container) : List (PollCall T P N) :=
  if e.back.takes c = false then []
  else
    let anchor := e.back.anchor.getD c
    if c.eth.number = backfillTarget S anchor ∨ c.eth.number = 0 then
      (e.take c).finishBootstrapCalls S now anchor c
    else []

def Engine.ancestorsLoopCalls (e : Engine T P N) : List Bytes → List (PollCall T P N)
  | [] => []
  | raw :: rest =>
    match S.parse raw with
    | none => []
    | some c =>
      e.backfillContainerCalls S now c ++
        if (e.backfillContainer S now c).phase = .backfill then
          (e.backfillContainer S now c).ancestorsLoopCalls rest
        else []

/-- The calls of an entry point. -/
def Engine.stepCalls (e : Engine T P N) : Input → List (PollCall T P N)
  | .container _ raw =>
    match S.parse raw with
    | none => []
    | some c =>
      let e := { e with gets := e.gets.erase c.id }
      match e.phase with
      | .pollAnchor => []
      | .backfill => e.backfillContainerCalls S now c
      | .live => e.addContainerCalls S now c
  | .chits node requestID preferred preferredAtHeight accepted acceptedHeight =>
    e.onChitsCalls S now node requestID preferred preferredAtHeight accepted acceptedHeight
  | .ancestors _ requestID containers =>
    if e.phase ≠ .backfill ∨ requestID ≠ e.back.reqID then []
    else ({ e with back := { e.back with reqID := 0 } }).ancestorsLoopCalls S now containers
  | .tick =>
    match e.phase with
    | .pollAnchor => []
    | .backfill => []
    | .live => e.tickLiveCalls S now

end Calls

/-! ## Runs -/

/-- A run of the engine from its start, with the calls it makes to the poll set. -/
inductive VoteRun (S : Setup T P V N ρ) (U : Container → Prop) (e0 : Engine T P N) :
    Engine T P N → List (PollCall T P N) → Prop where
  | init : VoteRun S U e0 e0 []
  | call {e : Engine T P N} {log : List (PollCall T P N)} (h : VoteRun S U e0 e log) (now : Nat)
      (i : Input) (hU : ∀ c ∈ i.delivers S, U c) :
      VoteRun S U e0 (e.step S now i) (log ++ e.stepCalls S now i)
  | net {e : Engine T P N} {log : List (PollCall T P N)} (h : VoteRun S U e0 e log) (n : N) :
      VoteRun S U e0 { e with net := n } log
  | reorder {e e' : Engine T P N} {log : List (PollCall T P N)} (h : VoteRun S U e0 e log)
      (ho : Reordered e e') : VoteRun S U e0 e' log
  | looks {e : Engine T P N} {log : List (PollCall T P N)} (h : VoteRun S U e0 e log)
      (handle : Store.Handle) (hc : Store.Coherent handle e.core.host.sink.env) :
      VoteRun S U e0
        { e with core := { e.core with host := { e.core.host with handle := handle } } } log

/-- No request ID is used for two polls. -/
def NoReuse (log : List (PollCall T P N)) : Prop := (log.filterMap PollCall.pollID).Nodup

/-! ## What the validators said -/

/-- The validator was asked in the poll and has sent no chits for it since. -/
def Queried (tr : List Msg) (requestID : UInt32) (node : NodeID) : Prop :=
  ∃ pre targets id height mid, tr = pre ++ .pullQuery targets requestID id height :: mid ∧
    node ∈ targets ∧ ∀ p h a ah, .chits node requestID p h a ah ∉ mid

/-- The validator was asked in the poll, and the first chits it sent for it since named
these two. -/
def Answered (tr : List Msg) (requestID : UInt32) (node : NodeID)
    (preferred preferredAtHeight : ID) : Prop :=
  ∃ before accepted acceptedHeight after, Queried before requestID node ∧
    tr = before ++
      .chits node requestID preferred preferredAtHeight accepted acceptedHeight :: after

/-- The last chits of the validator reported this accepted frontier. -/
def Reported (tr : List Msg) (node : NodeID) (accepted : ID) : Prop :=
  ∃ pre requestID preferred preferredAtHeight acceptedHeight post,
    tr = pre ++ .chits node requestID preferred preferredAtHeight accepted acceptedHeight :: post ∧
    ∀ r p h a ah, .chits node r p h a ah ∉ post

/-- A request of the engine, no message to it. -/
def Msg.isRequest : Msg → Bool
  | .chits .. => false
  | _ => true

section Said

variable {tr ms : List Msg} {requestID : UInt32} {node : NodeID}

theorem Queried.append (h : Queried tr requestID node)
    (hms : ∀ p h a ah, .chits node requestID p h a ah ∉ ms) : Queried (tr ++ ms) requestID node := by
  obtain ⟨pre, targets, id, height, mid, rfl, hn, hmid⟩ := h
  refine ⟨pre, targets, id, height, mid ++ ms, ?_, hn, fun p h a ah hm => ?_⟩
  · rw [List.append_assoc, List.cons_append]
  · rcases List.mem_append.mp hm with hm | hm
    · exact hmid p h a ah hm
    · exact hms p h a ah hm

theorem Answered.append {p h : ID} (ha : Answered tr requestID node p h) (ms : List Msg) :
    Answered (tr ++ ms) requestID node p h := by
  obtain ⟨before, a, ah, after, hask, rfl⟩ := ha
  exact ⟨before, a, ah, after ++ ms, hask, by rw [List.append_assoc, List.cons_append]⟩

theorem Reported.append {a : ID} (h : Reported tr node a)
    (hms : ∀ r p h a ah, .chits node r p h a ah ∉ ms) : Reported (tr ++ ms) node a := by
  obtain ⟨pre, r, p, hh, ah, post, rfl, hpost⟩ := h
  refine ⟨pre, r, p, hh, ah, post ++ ms, ?_, fun r p h a ah hm => ?_⟩
  · rw [List.append_assoc, List.cons_append]
  · rcases List.mem_append.mp hm with hm | hm
    · exact hpost r p h a ah hm
    · exact hms r p h a ah hm

theorem no_chits (hms : ∀ m ∈ ms, m.isRequest = true) (node : NodeID) (r : UInt32) (p h a : ID)
    (ah : UInt64) : .chits node r p h a ah ∉ ms := by
  intro hm
  cases hms _ hm

end Said

/-! ## The tally -/

variable {S : Setup T P V N ρ} {U : Container → Prop} {now : Nat}

/-- A vote is for a block that can be voted for at that moment, at or above one that the
validator named for the poll or the frontier it last reported. -/
def PollCall.Fair (S : Setup T P V N ρ) : PollCall T P N → Prop
  | .vote e requestID node id =>
    e.core.Votable S id ∧ ∃ b, Above e.core.recs b id ∧
      (Reported e.transcript node b ∨
        ∃ p h, Answered e.transcript requestID node p h ∧ (b = p ∨ b = h))
  | _ => True

def ParkedVote.ballot (v : ParkedVote) : Ballot := (v.requestID, v.nodeID)

def ballots (vs : List ParkedVote) : Multiset Ballot := (vs.map ParkedVote.ballot : List Ballot)

/-- The ballots of validators that are waited for. -/
def waiting (pollVdrs : Table UInt32 PollState) : Multiset Ballot :=
  pollVdrs.items (fun r ps => (ps.remaining.map (fun v => (r, v)) : List Ballot))

/-- The ballots of parked votes. -/
def parkedBallots (parked : Table ID (List ParkedVote)) : Multiset Ballot :=
  parked.items (fun _ vs => ballots vs)

/-- The options of a vote are the chits of its validator, or were given up. -/
def Backed (tr : List Msg) (v : ParkedVote) : Prop :=
  v.options = [] ∨
    ∃ p h, v.options = [p, h] ∧ Answered tr v.requestID v.nodeID p h

/-- The books, with the votes `hand` in the hands of the engine and the ballots `rest` in
its tables. -/
structure Tally (S : Setup T P V N ρ) (U : Container → Prop) (polls : P) (rest : Multiset Ballot)
    (hand : List ParkedVote) (e : Engine T P N) (log : List (PollCall T P N)) : Prop where
  known : e.core.Known U
  conserved : sampled log = ballots hand + rest + counted log
  backed : ∀ v ∈ hand, Backed e.transcript v
  reported : ∀ node a, e.frontiers.get node = some a → Reported e.transcript node a
  fair : ∀ x ∈ log, x.Fair S
  replay : e.polls = log.foldl (PollCall.run S) polls

/-- What the tables hold is backed by the transcript. -/
structure Tables (e : Engine T P N) : Prop where
  queried : ∀ r ps node, e.pollVdrs.get r = some ps → node ∈ ps.remaining →
    Queried e.transcript r node
  backed : ∀ id vs, e.parked.get id = some vs → ∀ v ∈ vs, Backed e.transcript v

/-- The engine between two functions: every sampled ballot is waited for, parked or counted. -/
structure Balanced (S : Setup T P V N ρ) (U : Container → Prop) (polls : P) (e : Engine T P N)
    (log : List (PollCall T P N)) : Prop where
  tally : Tally S U polls (waiting e.pollVdrs + parkedBallots e.parked) [] e log
  tables : Tables e

theorem Backed.append {tr : List Msg} {v : ParkedVote} (h : Backed tr v) (ms : List Msg) :
    Backed (tr ++ ms) v := by
  rcases h with h | ⟨p, q, ho, ha⟩
  · exact .inl h
  · exact .inr ⟨p, q, ho, ha.append ms⟩

/-! ### Quiet changes -/

/-- A change that leaves the ballots where they are. -/
structure Quiet (S : Setup T P V N ρ) (U : Container → Prop) (e e' : Engine T P N) : Prop where
  phase : e'.phase = e.phase
  polls : e'.polls = e.polls
  pollVdrs : e'.pollVdrs = e.pollVdrs
  parked : e'.parked = e.parked
  frontiers : e'.frontiers = e.frontiers
  sent : ∃ ms, e'.transcript = e.transcript ++ ms ∧ ∀ m ∈ ms, m.isRequest = true
  moves : Moves S U e.core e'.core

namespace Quiet

theorem refl (e : Engine T P N) : Quiet S U e e :=
  ⟨rfl, rfl, rfl, rfl, rfl, ⟨[], (List.append_nil _).symm, by simp⟩, .refl⟩

theorem trans {e e' e'' : Engine T P N} (h : Quiet S U e e') (h' : Quiet S U e' e'') :
    Quiet S U e e'' := by
  obtain ⟨ms, hms, hreq⟩ := h.sent
  obtain ⟨ms', hms', hreq'⟩ := h'.sent
  refine ⟨h'.phase.trans h.phase, h'.polls.trans h.polls, h'.pollVdrs.trans h.pollVdrs,
    h'.parked.trans h.parked, h'.frontiers.trans h.frontiers, ⟨ms ++ ms', ?_, fun m hm => ?_⟩,
    h.moves.trans h'.moves⟩
  · rw [hms', hms, List.append_assoc]
  · rcases List.mem_append.mp hm with hm | hm
    · exact hreq m hm
    · exact hreq' m hm

theorem foldl {α : Type} {f : Engine T P N → α → Engine T P N}
    (hf : ∀ e a, Quiet S U e (f e a)) (as : List α) (e : Engine T P N) :
    Quiet S U e (as.foldl f e) := by
  induction as generalizing e with
  | nil => exact refl e
  | cons a as ih => exact (hf e a).trans (ih (f e a))

/-- A change of the deciding part only. -/
theorem of_moves {e : Engine T P N} {core : Core T} (h : Moves S U e.core core) :
    Quiet S U e { e with core := core } :=
  ⟨rfl, rfl, rfl, rfl, rfl, ⟨[], (List.append_nil _).symm, by simp⟩, h⟩

/-- A change of the fetches and of the network. -/
theorem of_gets (e : Engine T P N) (gets : Table ID GetReq) (net : N) :
    Quiet S U e { e with gets := gets, net := net } :=
  ⟨rfl, rfl, rfl, rfl, rfl, ⟨[], (List.append_nil _).symm, by simp⟩, .refl⟩

theorem send (e : Engine T P N) {m : Msg} (hm : m.isRequest = true) : Quiet S U e (e.send m) :=
  ⟨rfl, rfl, rfl, rfl, rfl, ⟨[m], rfl, by simpa using hm⟩, .refl⟩

end Quiet

theorem quiet_fetchIfUnknown (e : Engine T P N) (id : ID) :
    Quiet S U e (e.fetchIfUnknown S now id) := by
  rw [Engine.fetchIfUnknown]
  split
  · exact .refl e
  split
  · exact .refl e
  split
  · exact .refl e
  split
  · exact .of_gets e e.gets _
  · exact (Quiet.of_gets e _ _).trans (.send _ rfl)

theorem quiet_await (e : Engine T P N) (c : Container) : Quiet S U e (e.await S now c) := by
  rw [Engine.await]
  dsimp only
  split
  · exact .of_moves (.single (.wait _))
  · exact (quiet_fetchIfUnknown e c.parentID).trans (.of_moves (.single (.wait _)))

theorem quiet_tryIssue (n : Nat) (e : Engine T P N) (id : ID) {e' : Engine T P N}
    (h : e.tryIssue S now n id = some e') : Quiet S U e e' :=
  tryIssue_rule Quiet.refl Quiet.trans (fun ht => .of_moves (Turns.moves ht)) quiet_await n e id h

theorem quiet_retryGets (e : Engine T P N) : Quiet S U e (e.retryGets S now) := by
  refine .foldl (fun e (en : ID × GetReq) => ?_) _ e
  rw [Engine.retryGet]
  split
  · exact .refl e
  · split
    · exact .of_gets e _ e.net
    · exact quiet_fetchIfUnknown e en.1

section Books

variable {polls : P} {rest : Multiset Ballot} {hand : List ParkedVote} {e e' : Engine T P N}
  {log : List (PollCall T P N)}

theorem Tally.quiet (h : Tally S U polls rest hand e log) (hq : Quiet S U e e') :
    Tally S U polls rest hand e' log := by
  obtain ⟨ms, hms, hreq⟩ := hq.sent
  refine ⟨Moves.known hq.moves h.known, h.conserved, fun v hv => ?_, fun node a ha => ?_, h.fair,
    hq.polls.trans h.replay⟩
  · rw [hms]
    exact (h.backed v hv).append ms
  · rw [hq.frontiers] at ha
    rw [hms]
    exact (h.reported node a ha).append (no_chits hreq node)

theorem Tables.quiet (h : Tables e) (hq : Quiet S U e e') : Tables e' := by
  obtain ⟨ms, hms, hreq⟩ := hq.sent
  refine ⟨fun r ps node hr hn => ?_, fun id vs hvs v hv => ?_⟩
  · rw [hq.pollVdrs] at hr
    rw [hms]
    exact (h.queried r ps node hr hn).append (no_chits hreq node r)
  · rw [hq.parked] at hvs
    rw [hms]
    exact (h.backed id vs hvs v hv).append ms

theorem Balanced.quiet (h : Balanced S U polls e log) (hq : Quiet S U e e') :
    Balanced S U polls e' log := by
  refine ⟨?_, h.tables.quiet hq⟩
  rw [hq.pollVdrs, hq.parked]
  exact h.tally.quiet hq

/-! ### Votes -/

theorem applyOptions_eq (e : Engine T P N) (v : ParkedVote) (allowPark first : Bool)
    (options : List ID) :
    e.applyOptions S now v allowPark first options =
      (e.optionsVerdict S allowPark first options).map (e.enact S now v) := by
  induction options generalizing first with
  | nil => rfl
  | cons opt rest ih =>
    rw [Engine.applyOptions, Engine.optionsVerdict]
    cases e.bubble S e.core.recs.size opt with
    | ok vote => rfl
    | error blocker =>
      dsimp only
      split
      · rfl
      · exact ih false

theorem applyVote_eq (e : Engine T P N) (v : ParkedVote) (allowPark : Bool) :
    e.applyVote S now v allowPark = e.enact S now v (e.verdict S v allowPark) := by
  rw [Engine.applyVote, applyOptions_eq, Engine.verdict]
  cases e.optionsVerdict S allowPark true v.options with
  | some d => rfl
  | none =>
    dsimp only [Option.map_none]
    cases e.frontiers.get v.nodeID with
    | none => rfl
    | some fid =>
      dsimp only
      cases e.bubble S e.core.recs.size fid <;> rfl

/-- Options that decide name what is voted for, or allow to park. -/
theorem optionsVerdict_some {allowPark first : Bool} {options : List ID} {d : Verdict}
    (h : e.optionsVerdict S allowPark first options = some d) :
    (∃ opt ∈ options, ∃ id, e.bubble S e.core.recs.size opt = .ok id ∧ d = .vote id) ∨
      allowPark = true ∧ ∃ blocker, d = .park blocker := by
  induction options generalizing first with
  | nil => cases h
  | cons opt rest ih =>
    rw [Engine.optionsVerdict] at h
    cases hb : e.bubble S e.core.recs.size opt with
    | ok id =>
      rw [hb] at h
      exact .inl ⟨opt, by simp, id, hb, (Option.some.inj h).symm⟩
    | error blocker =>
      rw [hb] at h
      dsimp only at h
      split at h
      · rename_i hpark
        exact .inr ⟨hpark.1, blocker, (Option.some.inj h).symm⟩
      · rcases ih h with ⟨opt', hm, hres⟩ | hres
        · exact .inl ⟨opt', by simp [hm], hres⟩
        · exact .inr hres

/-- A vote of `applyVote` bubbled up from an option or from the frontier. -/
theorem verdict_vote {v : ParkedVote} {allowPark : Bool} {id : ID}
    (h : e.verdict S v allowPark = .vote id) :
    ∃ b, e.bubble S e.core.recs.size b = .ok id ∧
      (b ∈ v.options ∨ e.frontiers.get v.nodeID = some b) := by
  rw [Engine.verdict] at h
  split at h
  · rename_i d hd
    subst h
    rcases optionsVerdict_some hd with ⟨opt, hm, id', hb, hid⟩ | ⟨-, blocker, hx⟩
    · obtain rfl := Verdict.vote.inj hid
      exact ⟨opt, hb, .inl hm⟩
    · cases hx
  · split at h
    · cases h
    · rename_i fid hfid
      split at h
      · rename_i vote hb
        obtain rfl := Verdict.vote.inj h
        exact ⟨fid, hb, .inr hfid⟩
      · cases h

theorem verdict_park {v : ParkedVote} {allowPark : Bool} {blocker : ID}
    (h : e.verdict S v allowPark = .park blocker) : allowPark = true := by
  rw [Engine.verdict] at h
  split at h
  · rename_i d hd
    subst h
    rcases optionsVerdict_some hd with ⟨opt, hm, id', hb, hid⟩ | ⟨hp, -⟩
    · cases hid
    · exact hp
  · split at h
    · cases h
    · split at h <;> cases h

/-- A vote taken from the hand is fair. -/
theorem Tally.fair_vote (hac : Acyclic U) {v : ParkedVote}
    (h : Tally S U polls rest (v :: hand) e log) {allowPark : Bool} {id : ID}
    (hv : e.verdict S v allowPark = .vote id) :
    (PollCall.vote e v.requestID v.nodeID id).Fair S := by
  obtain ⟨b, hb, hfrom⟩ := verdict_vote hv
  obtain ⟨hvot, habove⟩ := (bubbles (S := S) hac h.known b).ok hb
  refine ⟨hvot, b, habove, ?_⟩
  rcases hfrom with hopt | hfront
  · right
    rcases h.backed v (by simp) with hnil | ⟨p, q, ho, ha⟩
    · rw [hnil] at hopt
      cases hopt
    · rw [ho] at hopt
      exact ⟨p, q, ha, by simpa using hopt⟩
  · exact .inl (h.reported _ _ hfront)

/-- A ballot goes from the hand to the counted ones. -/
theorem Tally.count {v : ParkedVote} (h : Tally S U polls rest (v :: hand) e log)
    {x : PollCall T P N} (hs : x.samples = 0) (hc : x.counts = {v.ballot}) (hx : x.Fair S)
    {core : Core T} (hm : Moves S U e.core core) {p : P} (hp : p = x.run S e.polls) :
    Tally S U polls rest hand { e with polls := p, core := core } (log ++ [x]) := by
  refine ⟨Moves.known hm h.known, ?_, fun w hw => h.backed w (by simp [hw]), h.reported,
    fun y hy => ?_, ?_⟩
  · have hcons := h.conserved
    have hhand : ballots (v :: hand) = {v.ballot} + ballots hand := rfl
    rw [hhand] at hcons
    have hs' : sampled [x] = 0 := by simp [sampled, hs]
    have hc' : counted [x] = {v.ballot} := by simp [counted, hc]
    rw [sampled_append, counted_append, hcons, hs', hc']
    abel
  · rcases List.mem_append.mp hy with hy | hy
    · exact h.fair y hy
    · rw [List.mem_singleton.mp hy]
      exact hx
  · rw [List.foldl_append, ← h.replay]
    exact hp

/-- `applyVote` without parking counts the ballot and leaves the tables. -/
theorem Tally.applyVote (hac : Acyclic U) {v : ParkedVote}
    (h : Tally S U polls rest (v :: hand) e log) :
    Tally S U polls rest hand (e.applyVote S now v false) (log ++ e.applyVoteCalls S v false) := by
  rw [applyVote_eq, Engine.applyVoteCalls]
  cases hv : e.verdict S v false with
  | vote id => exact h.count rfl rfl (h.fair_vote hac hv) (moves_recordPolls S U e.core _) rfl
  | park blocker => cases verdict_park hv
  | drop =>
    exact h.count (x := .drop e v.requestID v.nodeID) rfl rfl trivial
      (moves_recordPolls S U e.core _) rfl

/-- What `applyVote` without parking leaves alone. -/
theorem applyVote_tables (S : Setup T P V N ρ) (now : Nat) (e : Engine T P N) (v : ParkedVote) :
    (e.applyVote S now v false).phase = e.phase ∧
      (e.applyVote S now v false).pollVdrs = e.pollVdrs ∧
      (e.applyVote S now v false).parked = e.parked ∧
      (e.applyVote S now v false).transcript = e.transcript := by
  rw [applyVote_eq]
  cases hv : e.verdict S v false with
  | vote _ | drop => exact ⟨rfl, rfl, rfl, rfl⟩
  | park blocker => cases verdict_park hv

theorem applyVotes_tables (S : Setup T P V N ρ) (now : Nat) (vs : List ParkedVote)
    (e : Engine T P N) :
    (e.applyVotes S now vs).phase = e.phase ∧
      (e.applyVotes S now vs).pollVdrs = e.pollVdrs ∧
      (e.applyVotes S now vs).parked = e.parked ∧
      (e.applyVotes S now vs).transcript = e.transcript := by
  induction vs generalizing e with
  | nil => exact ⟨rfl, rfl, rfl, rfl⟩
  | cons v vs ih =>
    obtain ⟨h1, h2, h3, h4⟩ := ih (e.applyVote S now v false)
    obtain ⟨g1, g2, g3, g4⟩ := applyVote_tables S now e v
    exact ⟨h1.trans g1, h2.trans g2, h3.trans g3, h4.trans g4⟩

theorem Tally.applyVotes (hac : Acyclic U) (vs : List ParkedVote)
    (h : Tally S U polls rest (vs ++ hand) e log) :
    Tally S U polls rest hand (e.applyVotes S now vs) (log ++ e.applyVotesCalls S now vs) := by
  induction vs generalizing e log with
  | nil =>
    rw [show e.applyVotesCalls S now [] = [] from rfl, List.append_nil]
    exact h
  | cons v vs ih =>
    have hcalls : e.applyVotesCalls S now (v :: vs) = e.applyVoteCalls S v false ++
        (e.applyVote S now v false).applyVotesCalls S now vs := rfl
    rw [hcalls, ← List.append_assoc]
    exact ih (h.applyVote hac)

theorem Tables.applyVotes (h : Tables e) (vs : List ParkedVote) :
    Tables (e.applyVotes S now vs) := by
  obtain ⟨-, hp, hq, ht⟩ := applyVotes_tables S now vs e
  refine ⟨fun r ps node hr hn => ?_, fun id ws hws v hv => ?_⟩
  · rw [ht]
    rw [hp] at hr
    exact h.queried r ps node hr hn
  · rw [ht]
    rw [hq] at hws
    exact h.backed id ws hws v hv

/-- Votes that were taken out of the tables are applied. -/
theorem Balanced.applyVotes (hac : Acyclic U) {vs : List ParkedVote}
    (h : Tally S U polls (waiting e.pollVdrs + parkedBallots e.parked) vs e log)
    (ht : Tables e) :
    Balanced S U polls (e.applyVotes S now vs) (log ++ e.applyVotesCalls S now vs) := by
  obtain ⟨-, hp, hq, -⟩ := applyVotes_tables S now vs e
  refine ⟨?_, ht.applyVotes vs⟩
  rw [hp, hq]
  refine Tally.applyVotes hac vs ?_
  rwa [List.append_nil]

/-! ### Parking -/

theorem ballots_append (vs ws : List ParkedVote) : ballots (vs ++ ws) = ballots vs + ballots ws := by
  rw [ballots, List.map_append]
  rfl

theorem parkedBallots_set (parked : Table ID (List ParkedVote)) (id : ID) (vs : List ParkedVote) :
    parkedBallots (parked.set id vs) = ballots vs + parkedBallots (parked.erase id) :=
  Table.items_set parked id vs

theorem parkedBallots_get {parked : Table ID (List ParkedVote)} {id : ID} {vs : List ParkedVote}
    (h : parked.get id = some vs) :
    parkedBallots parked = ballots vs + parkedBallots (parked.erase id) :=
  Table.items_eq h

/-- A vote is parked behind those that wait for the same container. -/
theorem parkedBallots_push (parked : Table ID (List ParkedVote)) (id : ID) (v : ParkedVote) :
    parkedBallots (parked.set id ((parked.get id).getD [] ++ [v])) =
      {v.ballot} + parkedBallots parked := by
  have hv : ballots [v] = {v.ballot} := rfl
  rw [parkedBallots_set, ballots_append, hv]
  cases h : parked.get id with
  | some vs =>
    rw [parkedBallots_get h, Option.getD_some]
    abel
  | none =>
    have herase : parkedBallots (parked.erase id) = parkedBallots parked := Table.items_erase h
    rw [herase, Option.getD_none]
    rfl

/-- A vote goes from the hand to the parked ones. -/
theorem Balanced.park {v : ParkedVote}
    (h : Tally S U polls (waiting e.pollVdrs + parkedBallots e.parked) [v] e log) (ht : Tables e)
    (blocker : ID) : Balanced S U polls (e.park S now blocker v) log := by
  have hq : Quiet S U e (e.fetchIfUnknown S now blocker) := quiet_fetchIfUnknown e blocker
  have h1 := h.quiet hq
  have ht1 := ht.quiet hq
  rw [Engine.park]
  refine ⟨⟨h1.known, ?_, by simp, h1.reported, h1.fair, h1.replay⟩, ⟨ht1.queried, ?_⟩⟩
  · have hcons := h1.conserved
    have hv : ballots [v] = {v.ballot} := rfl
    have hnil : ballots [] = 0 := rfl
    rw [hv] at hcons
    dsimp only
    rw [parkedBallots_push, hq.pollVdrs, hq.parked, hcons, hnil]
    abel
  · intro id vs hvs w hw
    dsimp only at hvs
    rw [Table.get_set] at hvs
    split at hvs
    · rename_i hid
      obtain rfl := Option.some.inj hvs
      rcases List.mem_append.mp hw with hw | hw
      · cases hold : (e.fetchIfUnknown S now blocker).parked.get blocker with
        | none => rw [hold] at hw; cases hw
        | some ws =>
          rw [hold] at hw
          exact ht1.backed blocker ws hold w hw
      · rw [List.mem_singleton.mp hw]
        exact h1.backed v (by simp)
    · exact ht1.backed id vs hvs w hw

/-- `applyVote` of the one vote in the hand, with parking. -/
theorem Balanced.applyVote (hac : Acyclic U) {v : ParkedVote}
    (h : Tally S U polls (waiting e.pollVdrs + parkedBallots e.parked) [v] e log) (ht : Tables e) :
    Balanced S U polls (e.applyVote S now v true) (log ++ e.applyVoteCalls S v true) := by
  rw [applyVote_eq, Engine.applyVoteCalls]
  cases hv : e.verdict S v true with
  | vote id =>
    exact ⟨h.count rfl rfl (h.fair_vote hac hv) (moves_recordPolls S U e.core _) rfl,
      ⟨ht.queried, ht.backed⟩⟩
  | park blocker =>
    rw [List.append_nil]
    exact Balanced.park h ht blocker
  | drop =>
    exact ⟨h.count (x := .drop e v.requestID v.nodeID) rfl rfl trivial
      (moves_recordPolls S U e.core _) rfl, ⟨ht.queried, ht.backed⟩⟩

/-! ### Containers -/

/-- The votes parked on a container are taken into the hand. -/
theorem Balanced.release (h : Balanced S U polls e log) {id : ID} {votes : List ParkedVote}
    (hv : e.parked.get id = some votes) :
    Tally S U polls (waiting e.pollVdrs + parkedBallots (e.parked.erase id)) votes
        { e with parked := e.parked.erase id } log ∧
      Tables { e with parked := e.parked.erase id } := by
  have ht := h.tally
  refine ⟨⟨ht.known, ?_, fun v hm => h.tables.backed id votes hv v hm, ht.reported, ht.fair,
    ht.replay⟩, ⟨h.tables.queried, fun id' vs hvs => ?_⟩⟩
  · have hnil : ballots [] = 0 := rfl
    rw [ht.conserved, parkedBallots_get hv, hnil]
    abel
  · exact h.tables.backed id' vs (Table.get_of_erase hvs)

theorem Balanced.addContainer (hac : Acyclic U) (h : Balanced S U polls e log) {c : Container}
    (hU : U c) :
    Balanced S U polls (e.addContainer S now c) (log ++ e.addContainerCalls S now c) := by
  rw [Engine.addContainer, Engine.addContainerCalls]
  by_cases hold : (e.core.recs.get c.id).isSome
  · rw [if_pos hold, if_pos hold, List.append_nil]
    exact h
  rw [if_neg hold, if_neg hold]
  by_cases hlow : c.id = e.core.lastAcceptedID ∨ c.eth.number ≤ e.core.lastAcceptedHeight
  · rw [if_pos hlow, if_pos hlow, List.append_nil]
    exact h
  rw [if_neg hlow, if_neg hlow]
  rw [not_or, UInt64.not_le] at hlow
  have hins : Balanced S U polls
      { e with core := { e.core with recs := e.core.recs.set c.id ⟨c, false, []⟩ } } log :=
    h.quiet (.of_moves (.single (.insert c hU (by simpa using hold) hlow.1 hlow.2)))
  revert hins
  generalize ({ e with core := { e.core with recs := e.core.recs.set c.id ⟨c, false, []⟩ } } :
    Engine T P N) = e1
  intro hins
  cases ht : e1.tryIssue S now (e1.core.unissued + 1) c.id with
  | none =>
    simp only [ht, List.append_nil]
    exact hins
  | some e2 =>
    have h2 := hins.quiet (quiet_tryIssue _ _ _ ht)
    simp only [ht]
    cases hp : e2.parked.get c.id with
    | none =>
      simp only [List.append_nil]
      exact h2
    | some votes =>
      obtain ⟨h3, ht3⟩ := h2.release hp
      exact Balanced.applyVotes hac h3 ht3

/-! ### Polls -/

theorem mem_sampled {r : UInt32} {node : NodeID} (h : (r, node) ∈ sampled log) :
    r ∈ log.filterMap PollCall.pollID := by
  induction log with
  | nil => simp [sampled] at h
  | cons x log ih =>
    have hcons : sampled (x :: log) = x.samples + sampled log := rfl
    rw [hcons, Multiset.mem_add] at h
    cases x with
    | add r' vdrs =>
      rcases h with h | h
      · obtain ⟨v, -, hv⟩ := List.mem_map.mp (Multiset.mem_coe.mp h)
        rw [← (Prod.mk.inj hv).1]
        exact List.mem_cons_self
      · exact List.mem_cons_of_mem _ (ih h)
    | vote _ _ _ _ | drop _ _ _ => exact ih (h.resolve_left (Multiset.notMem_zero _))

theorem NoReuse.of_append {log' : List (PollCall T P N)} (h : NoReuse (log ++ log')) :
    NoReuse log := by
  rw [NoReuse, List.filterMap_append] at h
  exact (List.nodup_append.mp h).1

/-- The ID of a poll that is added was not used before. -/
theorem NoReuse.fresh {r : UInt32} {vdrs : List NodeID} {log' : List (PollCall T P N)}
    (h : NoReuse (log ++ .add r vdrs :: log')) (node : NodeID) : (r, node) ∉ sampled log := by
  intro hm
  rw [NoReuse, List.filterMap_append] at h
  exact (List.nodup_append.mp h).2.2 r (mem_sampled hm) r List.mem_cons_self rfl

theorem sampled_nodup (h : NoReuse log) : (sampled log).Nodup := by
  induction log with
  | nil => exact Multiset.nodup_zero
  | cons x log ih =>
    have hcons : sampled (x :: log) = x.samples + sampled log := rfl
    rw [hcons]
    cases x with
    | add r vdrs =>
      obtain ⟨hnew, htail⟩ := List.nodup_cons.mp h
      refine Multiset.nodup_add.mpr ⟨Multiset.coe_nodup.mpr ?_, ih htail, ?_⟩
      · exact (List.nodup_dedup vdrs).map (fun a b hab => (Prod.mk.inj hab).2)
      · refine Multiset.disjoint_left.mpr (fun {b} hb hm => ?_)
        obtain ⟨v, -, rfl⟩ := List.mem_map.mp (Multiset.mem_coe.mp hb)
        exact hnew (mem_sampled hm)
    | vote e' r' n' id =>
      rw [show (PollCall.vote e' r' n' id).samples = 0 from rfl, zero_add]
      exact ih h
    | drop e' r' n' =>
      rw [show (PollCall.drop e' r' n').samples = 0 from rfl, zero_add]
      exact ih h

theorem waiting_get {t : Table UInt32 PollState} {r : UInt32} {ps : PollState}
    (h : t.get r = some ps) :
    waiting t = (ps.remaining.map (fun v => (r, v)) : List Ballot) + waiting (t.erase r) :=
  Table.items_eq h

theorem Balanced.waiting_le (h : Balanced S U polls e log) : waiting e.pollVdrs ≤ sampled log := by
  rw [h.tally.conserved, show ballots [] = 0 from rfl, zero_add, add_assoc]
  exact Multiset.le_add_right _ _

/-- No validator is waited for twice in a poll. -/
theorem Balanced.remaining_nodup (h : Balanced S U polls e log) (hnew : NoReuse log) {r : UInt32}
    {ps : PollState} (hp : e.pollVdrs.get r = some ps) : ps.remaining.Nodup := by
  have hw := Multiset.nodup_of_le h.waiting_le (sampled_nodup hnew)
  rw [waiting_get hp] at hw
  exact .of_map _ (Multiset.coe_nodup.mp (Multiset.nodup_add.mp hw).1)

/-! ### Chits -/

/-- The engine with the chits of a validator taken down and `pollVdrs` to be waited for. -/
def Engine.heard (e : Engine T P N) (pollVdrs : Table UInt32 PollState) (node : NodeID)
    (requestID : UInt32) (p h a : ID) (ah : UInt64) : Engine T P N :=
  { e.send (.chits node requestID p h a ah) with
    frontiers := e.frontiers.set node a
    pollVdrs := pollVdrs }

theorem Tally.heard (ht : Tally S U polls rest hand e log) (pollVdrs : Table UInt32 PollState)
    (node : NodeID) (requestID : UInt32) (p h a : ID) (ah : UInt64) :
    Tally S U polls rest hand (e.heard pollVdrs node requestID p h a ah) log := by
  refine ⟨ht.known, ht.conserved, fun v hv => (ht.backed v hv).append _, fun n b hb => ?_,
    ht.fair, ht.replay⟩
  rw [Engine.heard] at hb
  dsimp only at hb
  rw [Table.get_set] at hb
  split at hb
  · rename_i hn
    obtain rfl := Option.some.inj hb
    subst hn
    exact ⟨e.transcript, requestID, p, h, ah, [], rfl, by simp⟩
  · rename_i hn
    refine (ht.reported n b hb).append (fun r p' h' a' ah' hm => hn ?_)
    rw [List.mem_singleton] at hm
    exact (Msg.chits.inj hm).1

theorem Tables.heard (ht : Tables e) {pollVdrs : Table UInt32 PollState} {node : NodeID}
    {requestID : UInt32} (hpv : ∀ r ps n, pollVdrs.get r = some ps → n ∈ ps.remaining →
      ¬ (r = requestID ∧ n = node) ∧ ∃ ps', e.pollVdrs.get r = some ps' ∧ n ∈ ps'.remaining)
    (p h a : ID) (ah : UInt64) : Tables (e.heard pollVdrs node requestID p h a ah) := by
  refine ⟨fun r ps n hr hn => ?_, fun id vs hvs v hv => (ht.backed id vs hvs v hv).append _⟩
  obtain ⟨hne, ps', hr', hn'⟩ := hpv r ps n hr hn
  refine (ht.queried r ps' n hr' hn').append (fun p' h' a' ah' hm => hne ?_)
  rw [List.mem_singleton] at hm
  exact ⟨(Msg.chits.inj hm).2.1, (Msg.chits.inj hm).1⟩

/-- Chits of a validator that is not waited for. -/
theorem Balanced.unsolicited (h : Balanced S U polls e log) {node : NodeID} {requestID : UInt32}
    (hno : ∀ ps, e.pollVdrs.get requestID = some ps → node ∉ ps.remaining) (p q a : ID)
    (ah : UInt64) : Balanced S U polls (e.heard e.pollVdrs node requestID p q a ah) log := by
  refine ⟨h.tally.heard _ node requestID p q a ah, h.tables.heard (fun r ps n hr hn => ?_) p q a ah⟩
  refine ⟨?_, ps, hr, hn⟩
  rintro ⟨rfl, rfl⟩
  exact hno ps hr hn

/-- The polls without a validator that has answered. -/
def PollState.without (ps : PollState) (pollVdrs : Table UInt32 PollState) (requestID : UInt32)
    (node : NodeID) : Table UInt32 PollState :=
  if ps.remaining.erase node = [] then pollVdrs.erase requestID
  else pollVdrs.set requestID ⟨ps.remaining.erase node, ps.deadline⟩

theorem waiting_without {t : Table UInt32 PollState} {r : UInt32} {ps : PollState}
    (h : t.get r = some ps) {node : NodeID} (hn : node ∈ ps.remaining) :
    waiting t = {(r, node)} + waiting (ps.without t r node) := by
  have hperm : (ps.remaining.map (fun v => (r, v)) : Multiset Ballot) =
      {(r, node)} + ((ps.remaining.erase node).map (fun v => (r, v)) : List Ballot) :=
    Multiset.coe_eq_coe.mpr ((List.perm_cons_erase hn).map _)
  have hrest : waiting (ps.without t r node) =
      ((ps.remaining.erase node).map (fun v => (r, v)) : List Ballot) + waiting (t.erase r) := by
    rw [PollState.without]
    split
    · rename_i hnil
      rw [hnil, List.map_nil, Multiset.coe_nil, zero_add]
    · exact Table.items_set t r _
  rw [waiting_get h, hperm, hrest, add_assoc]

theorem get_without {t : Table UInt32 PollState} {r : UInt32} {ps : PollState}
    (hp : t.get r = some ps) (hnodup : ps.remaining.Nodup) {node n : NodeID} {r' : UInt32}
    {ps' : PollState} (h : (ps.without t r node).get r' = some ps') (hn : n ∈ ps'.remaining) :
    ¬ (r' = r ∧ n = node) ∧ ∃ ps'', t.get r' = some ps'' ∧ n ∈ ps''.remaining := by
  rw [PollState.without] at h
  split at h
  · rw [Table.get_erase] at h
    split at h
    · cases h
    · rename_i hne
      exact ⟨fun hx => hne hx.1, ps', h, hn⟩
  · rw [Table.get_set] at h
    split at h
    · rename_i heq
      obtain rfl := Option.some.inj h
      have hmem := hnodup.mem_erase_iff.mp hn
      exact ⟨fun hx => hmem.1 hx.2, ps, heq ▸ hp, hmem.2⟩
    · rename_i hne
      exact ⟨fun hx => hne hx.1, ps', h, hn⟩

/-- Chits of a validator that is waited for put its ballot into the hand. -/
theorem Balanced.solicited (hb : Balanced S U polls e log) (hnew : NoReuse log) {node : NodeID}
    {requestID : UInt32} {ps : PollState} (hp : e.pollVdrs.get requestID = some ps)
    (hn : node ∈ ps.remaining) (p h a : ID) (ah : UInt64) (deadline : Nat) :
    Tally S U polls
        (waiting (ps.without e.pollVdrs requestID node) + parkedBallots e.parked)
        [⟨requestID, node, [p, h], deadline⟩]
        (e.heard (ps.without e.pollVdrs requestID node) node requestID p h a ah) log ∧
      Tables (e.heard (ps.without e.pollVdrs requestID node) node requestID p h a ah) := by
  have ht := hb.tally.heard (ps.without e.pollVdrs requestID node) node requestID p h a ah
  refine ⟨⟨ht.known, ?_, fun v hv => ?_, ht.reported, ht.fair, ht.replay⟩,
    hb.tables.heard (fun r ps' n hr hn' => get_without hp (hb.remaining_nodup hnew hp) hr hn') p h a
      ah⟩
  · have hone : ballots [⟨requestID, node, [p, h], deadline⟩] = {(requestID, node)} := rfl
    rw [hb.tally.conserved, waiting_without hp hn, hone, show ballots [] = 0 from rfl]
    abel
  · rw [List.mem_singleton.mp hv]
    exact .inr ⟨p, h, rfl, e.transcript, a, ah, [], hb.tables.queried _ ps node hp hn, rfl⟩

theorem onChits_live (hlive : e.phase = .live) (node : NodeID) (requestID : UInt32) (p h a : ID)
    (ah : UInt64) :
    e.onChits S now node requestID p h a ah =
      match e.pollVdrs.get requestID with
      | none => e.heard e.pollVdrs node requestID p h a ah
      | some ps =>
        if node ∉ ps.remaining then e.heard e.pollVdrs node requestID p h a ah
        else
          ((e.heard e.pollVdrs node requestID p h a ah).answered S now node requestID ps p h).applyVote
            S now ⟨requestID, node, [p, h], now + requestTimeout⟩ true := by
  rw [Engine.onChits]
  dsimp only
  split
  · rename_i hx
    cases hlive.symm.trans hx
  · rename_i hx
    cases hlive.symm.trans hx
  · rfl

theorem onChitsCalls_live (hlive : e.phase = .live) (node : NodeID) (requestID : UInt32)
    (p h a : ID) (ah : UInt64) :
    e.onChitsCalls S now node requestID p h a ah =
      match e.pollVdrs.get requestID with
      | none => []
      | some ps =>
        if node ∉ ps.remaining then []
        else
          ((e.heard e.pollVdrs node requestID p h a ah).answered S now node requestID ps
            p h).applyVoteCalls S ⟨requestID, node, [p, h], now + requestTimeout⟩ true := by
  rw [Engine.onChitsCalls]
  dsimp only
  split
  · rename_i hx
    cases hlive.symm.trans hx
  · rename_i hx
    cases hlive.symm.trans hx
  · rfl

theorem quiet_answered (S : Setup T P V N ρ) (U : Container → Prop) (now : Nat)
    (e : Engine T P N) (ps : PollState) (node : NodeID) (requestID : UInt32) (p h a : ID)
    (ah : UInt64) :
    Quiet S U (e.heard (ps.without e.pollVdrs requestID node) node requestID p h a ah)
      ((e.heard e.pollVdrs node requestID p h a ah).answered S now node requestID ps p h) := by
  rw [Engine.answered]
  split
  · exact (quiet_fetchIfUnknown _ p).trans (quiet_fetchIfUnknown _ h)
  · exact quiet_fetchIfUnknown _ p

theorem Balanced.onChits (hac : Acyclic U) (hb : Balanced S U polls e log) (hnew : NoReuse log)
    (hlive : e.phase = .live) (node : NodeID) (requestID : UInt32) (p h a : ID) (ah : UInt64) :
    Balanced S U polls (e.onChits S now node requestID p h a ah)
      (log ++ e.onChitsCalls S now node requestID p h a ah) := by
  rw [onChits_live hlive, onChitsCalls_live hlive]
  cases hp : e.pollVdrs.get requestID with
  | none =>
    rw [List.append_nil]
    exact hb.unsolicited (fun ps hps => by rw [hp] at hps; cases hps) p h a ah
  | some ps =>
    dsimp only
    by_cases hn : node ∉ ps.remaining
    · rw [if_pos hn, if_pos hn, List.append_nil]
      refine hb.unsolicited (fun ps' hps => ?_) p h a ah
      rw [hp] at hps
      rwa [← Option.some.inj hps]
    · rw [if_neg hn, if_neg hn]
      obtain ⟨ht, htab⟩ := hb.solicited hnew hp (not_not.mp hn) p h a ah (now + requestTimeout)
      have hq := quiet_answered S U now e ps node requestID p h a ah
      refine Balanced.applyVote hac ?_ (htab.quiet hq)
      rw [hq.pollVdrs, hq.parked]
      exact ht.quiet hq

/-! ### Timeouts -/

/-- A loop over the bindings a table has at its start, each turn of which leaves the other
bindings alone. -/
theorem Balanced.walk {κ ν : Type} (table : Engine T P N → Table κ ν)
    {f : Engine T P N → κ × ν → Engine T P N}
    {calls : Engine T P N → κ × ν → List (PollCall T P N)} [DecidableEq κ]
    (hturn : ∀ e log (en : κ × ν), Balanced S U polls e log → (table e).get en.1 = some en.2 →
      Balanced S U polls (f e en) (log ++ calls e en) ∧
        ∀ k, k ≠ en.1 → (table (f e en)).get k = (table e).get k)
    (ens : List (κ × ν)) (hkeys : (ens.map Prod.fst).Nodup)
    (hbound : ∀ en ∈ ens, (table e).get en.1 = some en.2) (h : Balanced S U polls e log) :
    Balanced S U polls (ens.foldl f e) (log ++ loopCalls f calls e ens) := by
  induction ens generalizing e log with
  | nil =>
    rw [loopCalls, List.append_nil]
    exact h
  | cons en ens ih =>
    obtain ⟨hnew, htail⟩ := List.nodup_cons.mp hkeys
    obtain ⟨h1, hother⟩ := hturn e log en h (hbound en List.mem_cons_self)
    rw [loopCalls, ← List.append_assoc]
    refine ih htail (fun en' hm => ?_) h1
    have hne : en'.1 ≠ en.1 := fun heq => hnew (heq ▸ List.mem_map_of_mem hm)
    rw [hother _ hne]
    exact hbound en' (List.mem_cons_of_mem _ hm)

theorem ballots_map_giveUp (votes : List ParkedVote) :
    ballots (votes.map (fun v => { v with options := [] })) = ballots votes := by
  rw [ballots, List.map_map]
  rfl

theorem Balanced.expirePoll (hac : Acyclic U) (h : Balanced S U polls e log) {r : UInt32}
    {ps : PollState} (hp : e.pollVdrs.get r = some ps) :
    Balanced S U polls (e.expirePoll S now r ps) (log ++ e.expirePollCalls S now r ps) ∧
      ∀ r', r' ≠ r → (e.expirePoll S now r ps).pollVdrs.get r' = e.pollVdrs.get r' := by
  rw [Engine.expirePoll, Engine.expirePollCalls]
  by_cases hd : now < ps.deadline
  · rw [if_pos hd, if_pos hd, List.append_nil]
    exact ⟨h, fun _ _ => rfl⟩
  rw [if_neg hd, if_neg hd]
  have ht := h.tally
  refine ⟨Balanced.applyVotes hac ⟨ht.known, ?_, fun v hv => ?_, ht.reported, ht.fair, ht.replay⟩
    ⟨fun r' ps' node hr' => h.tables.queried r' ps' node (Table.get_of_erase hr'),
      h.tables.backed⟩, fun r' hne => ?_⟩
  · have hhand : ballots (ps.remaining.map (fun v => ⟨r, v, [], 0⟩)) =
        (ps.remaining.map (fun v => (r, v)) : List Ballot) := by
      rw [ballots, List.map_map]
      rfl
    rw [ht.conserved, waiting_get hp, hhand, show ballots [] = 0 from rfl]
    dsimp only
    abel
  · obtain ⟨node, -, rfl⟩ := List.mem_map.mp hv
    exact .inl rfl
  · rw [(applyVotes_tables S now _ _).2.1]
    exact Table.get_erase_of_ne _ hne

theorem Balanced.expirePolls (hac : Acyclic U) (h : Balanced S U polls e log) :
    Balanced S U polls (e.expirePolls S now) (log ++ e.expirePollsCalls S now) :=
  Balanced.walk Engine.pollVdrs (fun _ _ _ h hp => h.expirePoll hac hp) _ e.pollVdrs.nodup
    (fun _ hm => Table.get_eq_some_iff.mpr hm) h

/-- Votes that are kept on a container, the others being in the hand. -/
theorem parkedBallots_expire {parked : Table ID (List ParkedVote)} {id : ID}
    {votes : List ParkedVote} (hp : parked.get id = some votes) (q : ParkedVote → Prop)
    [DecidablePred q] :
    parkedBallots parked = ballots (votes.filter (fun v => q v)) +
      parkedBallots (if votes.filter (fun v => ¬ q v) = [] then parked.erase id
        else parked.set id (votes.filter (fun v => ¬ q v))) := by
  have hsplit : ballots votes =
      ballots (votes.filter (fun v => q v)) + ballots (votes.filter (fun v => ¬ q v)) := by
    rw [← ballots_append]
    have hperm := List.filter_append_perm (fun v => decide (q v)) votes
    simp only [← decide_not] at hperm
    exact Multiset.coe_eq_coe.mpr (hperm.symm.map _)
  have hrest : parkedBallots (if votes.filter (fun v => ¬ q v) = [] then parked.erase id
      else parked.set id (votes.filter (fun v => ¬ q v))) =
      ballots (votes.filter (fun v => ¬ q v)) + parkedBallots (parked.erase id) := by
    split
    · rename_i hnil
      rw [hnil, show ballots [] = 0 from rfl, zero_add]
    · exact parkedBallots_set parked id _
  rw [parkedBallots_get hp, hsplit, hrest, add_assoc]

theorem Balanced.expireVotes (hac : Acyclic U) (h : Balanced S U polls e log) {id : ID}
    {votes : List ParkedVote} (hp : e.parked.get id = some votes) :
    Balanced S U polls (e.expireVotes S now id votes) (log ++ e.expireVotesCalls S now votes) ∧
      ∀ id', id' ≠ id → (e.expireVotes S now id votes).parked.get id' = e.parked.get id' := by
  have ht := h.tally
  obtain ⟨-, hvdrs, hparked, htr⟩ := applyVotes_tables S now
    ((votes.filter (fun v => v.deadline < now)).map (fun v => { v with options := [] })) e
  rw [Engine.expireVotes, Engine.expireVotesCalls]
  refine ⟨⟨?_, ?_⟩, fun id' hne => ?_⟩
  · dsimp only
    rw [hvdrs, hparked]
    have hbooks : Tally S U polls
        (waiting e.pollVdrs + parkedBallots
          (if votes.filter (fun v => ¬ v.deadline < now) = [] then e.parked.erase id
            else e.parked.set id (votes.filter (fun v => ¬ v.deadline < now))))
        ((votes.filter (fun v => v.deadline < now)).map (fun v => { v with options := [] }) ++ [])
        e log := by
      refine ⟨ht.known, ?_, fun v hv => ?_, ht.reported, ht.fair, ht.replay⟩
      · rw [List.append_nil, ballots_map_giveUp, ht.conserved,
          parkedBallots_expire hp (fun v => v.deadline < now), show ballots [] = 0 from rfl]
        abel
      · rw [List.append_nil] at hv
        obtain ⟨w, -, rfl⟩ := List.mem_map.mp hv
        exact .inl rfl
    have hdone : Tally S U polls _ [] (e.applyVotes S now _) (log ++ e.applyVotesCalls S now _) :=
      hbooks.applyVotes hac _
    exact ⟨hdone.known, hdone.conserved, hdone.backed, hdone.reported, hdone.fair, hdone.replay⟩
  · refine ⟨fun r ps node hr hn => ?_, fun id' vs hvs v hv => ?_⟩
    · dsimp only at hr ⊢
      rw [hvdrs] at hr
      rw [htr]
      exact h.tables.queried r ps node hr hn
    · dsimp only at hvs ⊢
      rw [hparked] at hvs
      rw [htr]
      split at hvs
      · exact h.tables.backed id' vs (Table.get_of_erase hvs) v hv
      · rw [Table.get_set] at hvs
        split at hvs
        · obtain rfl := Option.some.inj hvs
          exact h.tables.backed id votes hp v (List.mem_of_mem_filter hv)
        · exact h.tables.backed id' vs hvs v hv
  · dsimp only
    rw [hparked]
    split
    · exact Table.get_erase_of_ne _ hne
    · exact Table.get_set_of_ne _ _ hne

theorem Balanced.expireParked (hac : Acyclic U) (h : Balanced S U polls e log) :
    Balanced S U polls (e.expireParked S now) (log ++ e.expireParkedCalls S now) :=
  Balanced.walk Engine.parked (fun _ _ _ h hp => h.expireVotes hac hp) _ e.parked.nodup
    (fun _ hm => Table.get_eq_some_iff.mpr hm) h

/-! ### New polls -/

theorem sendPoll_eq (e : Engine T P N) {vdrs : List NodeID} {net : N} {polls : P}
    (hs : S.net.sampleValidators e.net S.cfg.k = (some vdrs, net)) (hv : vdrs ≠ [])
    (hadd : S.polls.add e.polls (S.net.nextRequestID net).1 vdrs = some polls) :
    e.sendPoll S now =
      (e.asking S now (S.net.nextRequestID net).2 polls (S.net.nextRequestID net).1
        (vdrs.dedup.filter (fun v => S.net.isConnected (S.net.nextRequestID net).2 v))).applyVotes
          S now ((vdrs.dedup.filter
            (fun v => ¬ S.net.isConnected (S.net.nextRequestID net).2 v)).map
              (fun v => ⟨(S.net.nextRequestID net).1, v, [], 0⟩)) := by
  cases vdrs with
  | nil => exact absurd rfl hv
  | cons v vs =>
    rw [Engine.sendPoll, hs]
    dsimp only
    rw [hadd]
    rfl

/-- What `asking` leaves alone. -/
theorem asking_same (S : Setup T P V N ρ) (now : Nat) (e : Engine T P N) (net : N) (p : P)
    (r : UInt32) (targets : List NodeID) :
    (e.asking S now net p r targets).core = e.core ∧
      (e.asking S now net p r targets).polls = p ∧
      (e.asking S now net p r targets).parked = e.parked ∧
      (e.asking S now net p r targets).frontiers = e.frontiers ∧
      ∃ ms, (e.asking S now net p r targets).transcript = e.transcript ++ ms ∧
        ∀ m ∈ ms, m.isRequest = true := by
  rw [Engine.asking]
  split
  · exact ⟨rfl, rfl, rfl, rfl, [], (List.append_nil _).symm, by simp⟩
  · exact ⟨rfl, rfl, rfl, rfl, _, rfl, by simp [Msg.isRequest]⟩

/-- The ballots waited for once a poll under a new ID is out. -/
theorem waiting_asking (e : Engine T P N) (net : N) (p : P) {r : UInt32} (targets : List NodeID)
    (hfresh : ∀ node, (r, node) ∉ waiting e.pollVdrs) :
    waiting (e.asking S now net p r targets).pollVdrs =
      (targets.map (fun v => (r, v)) : List Ballot) + waiting e.pollVdrs := by
  have hold : waiting (e.pollVdrs.erase r) = waiting e.pollVdrs := by
    cases hr : e.pollVdrs.get r with
    | none => exact Table.items_erase hr
    | some ps =>
      have hnil : ps.remaining = [] := by
        refine List.eq_nil_iff_forall_not_mem.mpr (fun node hm => hfresh node ?_)
        rw [waiting_get hr]
        exact Multiset.mem_add.mpr (.inl (Multiset.mem_coe.mpr (List.mem_map_of_mem hm)))
      rw [waiting_get hr, hnil, List.map_nil, Multiset.coe_nil, zero_add]
  rw [Engine.asking]
  dsimp only
  split
  · rename_i hnil
    rw [hnil, List.map_nil, Multiset.coe_nil, zero_add]
  · rw [← hold]
    exact Table.items_set e.pollVdrs r _

/-- The poll is added and its validators are asked; those that are not connected are in
the hand. -/
theorem Balanced.asking (h : Balanced S U polls e log) (now : Nat) (net : N) {p : P} {r : UInt32}
    {vdrs : List NodeID} (hadd : S.polls.add e.polls r vdrs = some p)
    (hfresh : ∀ node, (r, node) ∉ sampled log) (c : NodeID → Bool) :
    Tally S U polls
        (waiting (e.asking S now net p r (vdrs.dedup.filter (fun v => c v))).pollVdrs +
          parkedBallots (e.asking S now net p r (vdrs.dedup.filter (fun v => c v))).parked)
        ((vdrs.dedup.filter (fun v => ¬ c v)).map (fun v => ⟨r, v, [], 0⟩))
        (e.asking S now net p r (vdrs.dedup.filter (fun v => c v))) (log ++ [.add r vdrs]) ∧
      Tables (e.asking S now net p r (vdrs.dedup.filter (fun v => c v))) := by
  have hwait : ∀ node, (r, node) ∉ waiting e.pollVdrs :=
    fun node hm => hfresh node (Multiset.mem_of_le h.waiting_le hm)
  have ht := h.tally
  generalize htargets : vdrs.dedup.filter (fun v => c v) = targets
  obtain ⟨hcore, hpolls, hparked, hfront, ms, hms, hreq⟩ := asking_same S now e net p r targets
  refine ⟨⟨hcore ▸ ht.known, ?_, fun v hv => ?_, fun node a ha => ?_, fun x hx => ?_, ?_⟩,
    ⟨fun r' ps node hr hn => ?_, fun id vs hvs v hv => ?_⟩⟩
  · have hone : sampled [(PollCall.add r vdrs : PollCall T P N)] =
        (vdrs.dedup.map (fun v => (r, v)) : List Ballot) := by simp [sampled, PollCall.samples]
    have hzero : counted [(PollCall.add r vdrs : PollCall T P N)] = 0 := by
      simp [counted, PollCall.counts]
    have hhand : ballots ((vdrs.dedup.filter (fun v => ¬ c v)).map (fun v => ⟨r, v, [], 0⟩)) =
        ((vdrs.dedup.filter (fun v => ¬ c v)).map (fun v => (r, v)) : List Ballot) := by
      rw [ballots, List.map_map]
      rfl
    have hsplit : (vdrs.dedup.map (fun v => (r, v)) : Multiset Ballot) =
        (targets.map (fun v => (r, v)) : List Ballot) +
          ((vdrs.dedup.filter (fun v => ¬ c v)).map (fun v => (r, v)) : List Ballot) := by
      have hperm := List.filter_append_perm c vdrs.dedup
      rw [Multiset.coe_add, ← List.map_append, ← htargets]
      refine Multiset.coe_eq_coe.mpr (List.Perm.map _ ?_)
      simpa using hperm.symm
    rw [sampled_append, counted_append, ht.conserved, waiting_asking e net p targets hwait, hparked,
      hone, hzero, hhand, hsplit, show ballots [] = 0 from rfl]
    abel
  · obtain ⟨node, -, rfl⟩ := List.mem_map.mp hv
    exact .inl rfl
  · rw [hfront] at ha
    rw [hms]
    exact (ht.reported node a ha).append (no_chits hreq node)
  · rcases List.mem_append.mp hx with hx | hx
    · exact ht.fair x hx
    · rw [List.mem_singleton.mp hx]
      trivial
  · rw [List.foldl_append, ← ht.replay, hpolls, List.foldl_cons, List.foldl_nil, PollCall.run, hadd,
      Option.getD_some]
  · rw [Engine.asking] at hr ⊢
    dsimp only at hr ⊢
    split at hr
    · rename_i hnil
      rw [if_pos hnil]
      exact h.tables.queried r' ps node hr hn
    · rename_i hne
      rw [if_neg hne]
      have hset : (e.pollVdrs.set r ⟨targets, now + S.cfg.pollTimeout⟩).get r' = some ps := hr
      rw [Table.get_set] at hset
      split at hset
      · rename_i heq
        obtain rfl := Option.some.inj hset
        subst heq
        exact ⟨e.transcript, targets, _, _, [], rfl, hn, by simp⟩
      · exact (h.tables.queried r' ps node hset hn).append (by simp)
  · rw [hparked] at hvs
    rw [hms]
    exact (h.tables.backed id vs hvs v hv).append ms

theorem Balanced.sendPoll (hac : Acyclic U) (h : Balanced S U polls e log)
    (hnew : NoReuse (log ++ e.sendPollCalls S now)) :
    Balanced S U polls (e.sendPoll S now) (log ++ e.sendPollCalls S now) := by
  cases hs : S.net.sampleValidators e.net S.cfg.k with
  | mk sample net =>
    have hnone : ∀ net', Balanced S U polls { e with net := net' } (log ++ []) := by
      intro net'
      rw [List.append_nil]
      exact h.quiet (.of_gets e e.gets net')
    match sample with
    | none =>
      rw [Engine.sendPoll, Engine.sendPollCalls, hs]
      exact hnone net
    | some [] =>
      rw [Engine.sendPoll, Engine.sendPollCalls, hs]
      exact hnone net
    | some (v :: vs) =>
      cases hadd : S.polls.add e.polls (S.net.nextRequestID net).1 (v :: vs) with
      | none =>
        rw [Engine.sendPoll, Engine.sendPollCalls, hs]
        dsimp only
        rw [hadd]
        exact hnone _
      | some p =>
        rw [Engine.sendPollCalls, hs] at hnew ⊢
        rw [sendPoll_eq e hs (by simp) hadd]
        dsimp only at hnew ⊢
        rw [hadd] at hnew ⊢
        dsimp only at hnew ⊢
        obtain ⟨hbooks, htables⟩ := h.asking now (S.net.nextRequestID net).2 hadd hnew.fresh
          (S.net.isConnected (S.net.nextRequestID net).2)
        rw [List.append_cons]
        exact Balanced.applyVotes hac hbooks htables

theorem Balanced.tickLive (hac : Acyclic U) (h : Balanced S U polls e log)
    (hnew : NoReuse (log ++ e.tickLiveCalls S now)) :
    Balanced S U polls (e.tickLive S now) (log ++ e.tickLiveCalls S now) := by
  have h3 : Balanced S U polls (((e.expirePolls S now).expireParked S now).retryGets S now)
      (log ++ e.expirePollsCalls S now ++ (e.expirePolls S now).expireParkedCalls S now) :=
    ((h.expirePolls hac).expireParked hac).quiet (quiet_retryGets _)
  rw [Engine.tickLiveCalls] at hnew ⊢
  rw [Engine.tickLive]
  rw [← List.append_assoc, ← List.append_assoc] at hnew ⊢
  split
  · rename_i hproc
    rw [if_pos hproc] at hnew
    split
    · rename_i hdue
      rw [if_pos hdue] at hnew
      exact h3.sendPoll hac hnew
    · rw [List.append_nil]
      exact h3
  · rename_i hproc
    rw [if_neg hproc] at hnew
    split
    · rename_i hdue
      rw [if_pos hdue] at hnew
      exact h3.sendPoll hac hnew
    · rw [List.append_nil]
      exact h3

end Books

/-! ## Before the engine is live -/

/-- The engine is not live and has no polls yet. -/
structure Early (S : Setup T P V N ρ) (U : Container → Prop) (e : Engine T P N) : Prop where
  phase : e.phase ≠ .live
  known : e.core.Known U
  polls : e.polls = S.polls.new
  pollVdrs : ∀ r, e.pollVdrs.get r = none
  parked : ∀ id, e.parked.get id = none
  frontiers : ∀ node, e.frontiers.get node = none

/-- The invariant of a run. -/
inductive VoteInv (S : Setup T P V N ρ) (U : Container → Prop) (e : Engine T P N) :
    List (PollCall T P N) → Prop where
  | early (h : Early S U e) : VoteInv S U e []
  | live {log : List (PollCall T P N)} (hp : e.phase = .live) (h : Balanced S U S.polls.new e log) :
      VoteInv S U e log

namespace Early

variable {e : Engine T P N}

/-- The engine goes live without a ballot. -/
theorem goLive (h : Early S U e) {c : Core T} (hk : c.Known U) (anchor : Container) :
    Balanced S U S.polls.new (e.goLive S c anchor) [] := by
  have hwait : waiting e.pollVdrs = 0 :=
    (Table.items_congr (t := Table.empty) (fun r => h.pollVdrs r)).trans Table.items_empty
  have hparked : parkedBallots e.parked = 0 :=
    (Table.items_congr (t := Table.empty) (fun id => h.parked id)).trans Table.items_empty
  refine ⟨⟨hk, ?_, by simp, fun node a ha => ?_, by simp, rfl⟩,
    ⟨fun r ps node hr => ?_, fun id vs hvs => ?_⟩⟩
  · have hvdrs : (e.goLive S c anchor).pollVdrs = e.pollVdrs := rfl
    have hheld : (e.goLive S c anchor).parked = e.parked := rfl
    rw [hvdrs, hheld, hwait, hparked]
    rfl
  · cases (h.frontiers node).symm.trans ha
  · cases (h.pollVdrs r).symm.trans hr
  · cases (h.parked id).symm.trans hvs

theorem sendBackfillRequest (h : Early S U e) : Early S U (e.sendBackfillRequest S now) := by
  rw [Engine.sendBackfillRequest]
  split
  · exact ⟨h.phase, h.known, h.polls, h.pollVdrs, h.parked, h.frontiers⟩
  · dsimp only
    split <;> exact ⟨h.phase, h.known, h.polls, h.pollVdrs, h.parked, h.frontiers⟩

theorem sendBootstrapPoll (h : Early S U e) : Early S U (e.sendBootstrapPoll S now) := by
  rw [Engine.sendBootstrapPoll]
  split
  · exact ⟨h.phase, h.known, h.polls, h.pollVdrs, h.parked, h.frontiers⟩
  · exact ⟨h.phase, h.known, h.polls, h.pollVdrs, h.parked, h.frontiers⟩
  · dsimp only
    split <;> exact ⟨h.phase, h.known, h.polls, h.pollVdrs, h.parked, h.frontiers⟩

theorem bootstrapChit (h : Early S U e) (node : NodeID) (requestID : UInt32) (accepted : ID) :
    Early S U (e.bootstrapChit S now node requestID accepted) := by
  rw [Engine.bootstrapChit]
  split
  · exact h
  dsimp only
  split
  · exact ⟨h.phase, h.known, h.polls, h.pollVdrs, h.parked, h.frontiers⟩
  · have hfound : Early S U ((e.count node accepted).anchorFound accepted) :=
      ⟨by simp [Engine.anchorFound], h.known, h.polls, h.pollVdrs, h.parked, h.frontiers⟩
    exact hfound.sendBackfillRequest

theorem finishBootstrap (hac : Acyclic U) (h : Early S U e) (anchor start : Container)
    (hnew : NoReuse (e.finishBootstrapCalls S now anchor start)) :
    VoteInv S U (e.finishBootstrap S now anchor start)
      (e.finishBootstrapCalls S now anchor start) := by
  rw [Engine.finishBootstrapCalls] at hnew ⊢
  rw [Engine.finishBootstrap]
  cases hs : startPoint S e.back.chain start with
  | error f => exact .early ⟨h.phase, h.known, h.polls, h.pollVdrs, h.parked, h.frontiers⟩
  | ok hh =>
    obtain ⟨height, hash⟩ := hh
    have hrecs := backfillLoop_recs (S := S) e.back.chain e.back.chain.size (height + 1) hash
      (e.core.makeSink S (seeds e.back.chain start height) height hash)
    rw [hs] at hnew
    dsimp only at hnew ⊢
    cases hloop : (e.core.makeSink S (seeds e.back.chain start height) height hash).backfillLoop S
        e.back.chain e.back.chain.size (height + 1) hash with
    | mk ok c =>
      rw [hloop] at hrecs hnew
      have hk : c.Known U := fun id r hr => h.known id r (hrecs ▸ hr)
      cases ok with
      | false => exact .early ⟨h.phase, hk, h.polls, h.pollVdrs, h.parked, h.frontiers⟩
      | true =>
        have hphase : ((e.goLive S c anchor).sendPoll S now).phase = .live :=
          (effect_sendPoll (U := U) (e.goLive S c anchor)).phase
        exact .live hphase ((h.goLive hk anchor).sendPoll hac hnew)

theorem backfillContainer (hac : Acyclic U) (h : Early S U e) (c : Container)
    (hnew : NoReuse (e.backfillContainerCalls S now c)) :
    VoteInv S U (e.backfillContainer S now c) (e.backfillContainerCalls S now c) := by
  have htake : Early S U (e.take c) :=
    ⟨h.phase, h.known, h.polls, h.pollVdrs, h.parked, h.frontiers⟩
  rw [Engine.backfillContainerCalls] at hnew ⊢
  rw [Engine.backfillContainer]
  dsimp only at hnew ⊢
  split
  · exact .early h
  · rename_i ht
    rw [if_neg ht] at hnew
    split
    · rename_i hlast
      rw [if_pos hlast] at hnew
      exact htake.finishBootstrap hac _ c hnew
    · exact .early htake

theorem ancestorsLoop (hac : Acyclic U) (raws : List Bytes) (h : Early S U e)
    (hnew : NoReuse (e.ancestorsLoopCalls S now raws)) :
    VoteInv S U (e.ancestorsLoop S now raws).2 (e.ancestorsLoopCalls S now raws) ∧
      ((e.ancestorsLoop S now raws).1 = true → Early S U (e.ancestorsLoop S now raws).2) := by
  induction raws generalizing e with
  | nil => exact ⟨.early h, fun _ => h⟩
  | cons raw rest ih =>
    rw [Engine.ancestorsLoopCalls] at hnew ⊢
    rw [Engine.ancestorsLoop]
    cases hc : S.parse raw with
    | none => exact ⟨.early h, by simp⟩
    | some c =>
      rw [hc] at hnew
      dsimp only at hnew ⊢
      have hstep := h.backfillContainer hac c hnew.of_append
      split
      · rename_i hp
        rw [if_pos hp] at hnew
        generalize hcalls : e.backfillContainerCalls S now c = calls at hstep hnew
        cases hstep with
        | early hearly => exact ih hearly hnew
        | live hlive => cases hp.symm.trans hlive
      · rw [List.append_nil]
        exact ⟨hstep, by simp⟩

end Early

/-! ## Runs keep the books -/

section Run

variable {e : Engine T P N} {log : List (PollCall T P N)}

namespace VoteInv

/-- A change of the fetches. -/
theorem gets (h : VoteInv S U e log) (gets : Table ID GetReq) :
    VoteInv S U { e with gets := gets } log := by
  cases h with
  | early h => exact .early ⟨h.phase, h.known, h.polls, h.pollVdrs, h.parked, h.frontiers⟩
  | live hp h => exact .live hp (h.quiet (.of_gets e gets e.net))

theorem early_of_phase (h : VoteInv S U e log) (hp : e.phase ≠ .live) :
    log = [] ∧ Early S U e := by
  cases h with
  | early h => exact ⟨rfl, h⟩
  | live hlive => exact absurd hlive hp

theorem live_of_phase (h : VoteInv S U e log) (hp : e.phase = .live) :
    Balanced S U S.polls.new e log := by
  cases h with
  | early h => exact absurd hp h.phase
  | live _ h => exact h

theorem onContainer (hac : Acyclic U) (h : VoteInv S U e log) (node : NodeID) (raw : Bytes)
    (hU : ∀ c ∈ (S.parse raw).toList, U c)
    (hnew : NoReuse (log ++ e.stepCalls S now (.container node raw))) :
    VoteInv S U (e.onContainer S now raw) (log ++ e.stepCalls S now (.container node raw)) := by
  rw [Engine.stepCalls] at hnew ⊢
  rw [Engine.onContainer]
  cases hc : S.parse raw with
  | none =>
    rw [List.append_nil]
    exact h
  | some c =>
    have h1 := h.gets (e.gets.erase c.id)
    rw [hc, Option.toList_some, List.forall_mem_singleton] at hU
    rw [hc] at hnew
    dsimp -zeta only at hnew ⊢
    generalize ({ e with gets := e.gets.erase c.id } : Engine T P N) = e1 at h1 hnew ⊢
    dsimp only at hnew ⊢
    cases hp : e1.phase with
    | pollAnchor =>
      dsimp only
      rw [List.append_nil]
      exact h1
    | backfill =>
      obtain ⟨rfl, hearly⟩ := h1.early_of_phase (by rw [hp]; simp)
      rw [hp] at hnew
      dsimp only at hnew ⊢
      rw [List.nil_append] at hnew ⊢
      have hback := hearly.backfillContainer hac c hnew
      split
      · rename_i hstays
        obtain ⟨hlog, hstill⟩ := hback.early_of_phase (by rw [hstays]; simp)
        rw [hlog]
        exact .early hstill.sendBackfillRequest
      · exact hback
    | live =>
      have hphase : (e1.addContainer S now c).phase = .live :=
        (effect_addContainer e1 hU).phase.trans hp
      exact .live hphase ((h1.live_of_phase hp).addContainer hac hU)

theorem onChits (hac : Acyclic U) (h : VoteInv S U e log) (hnew : NoReuse log) (node : NodeID)
    (requestID : UInt32) (p q a : ID) (ah : UInt64) :
    VoteInv S U (e.onChits S now node requestID p q a ah)
      (log ++ e.onChitsCalls S now node requestID p q a ah) := by
  by_cases hlive : e.phase = .live
  · have hphase : (e.onChits S now node requestID p q a ah).phase = .live :=
      (effect_onChits_live (U := U) hlive node requestID p q a ah).phase.trans hlive
    exact .live hphase ((h.live_of_phase hlive).onChits hac hnew hlive node requestID p q a ah)
  · obtain ⟨rfl, hearly⟩ := h.early_of_phase hlive
    have hsend : Early S U (e.send (.chits node requestID p q a ah)) :=
      ⟨hlive, hearly.known, hearly.polls, hearly.pollVdrs, hearly.parked, hearly.frontiers⟩
    rw [Engine.onChits, Engine.onChitsCalls]
    generalize e.send (.chits node requestID p q a ah) = e1 at hsend ⊢
    dsimp only
    cases hp : e1.phase with
    | pollAnchor => exact .early (hsend.bootstrapChit node requestID a)
    | backfill => exact .early hsend
    | live => exact absurd hp hsend.phase

theorem onAncestors (hac : Acyclic U) (h : VoteInv S U e log) (node : NodeID) (requestID : UInt32)
    (raws : List Bytes)
    (hnew : NoReuse (log ++ e.stepCalls S now (.ancestors node requestID raws))) :
    VoteInv S U (e.onAncestors S now requestID raws)
      (log ++ e.stepCalls S now (.ancestors node requestID raws)) := by
  rw [Engine.stepCalls] at hnew ⊢
  rw [Engine.onAncestors]
  split
  · rw [List.append_nil]
    exact h
  · rename_i hguard
    rw [if_neg hguard] at hnew
    rw [not_or, not_not] at hguard
    obtain ⟨rfl, hearly⟩ := h.early_of_phase (by rw [hguard.1]; simp)
    have hzero : Early S U { e with back := { e.back with reqID := 0 } } :=
      ⟨hearly.phase, hearly.known, hearly.polls, hearly.pollVdrs, hearly.parked, hearly.frontiers⟩
    rw [List.nil_append] at hnew ⊢
    obtain ⟨hinv, hstill⟩ := hzero.ancestorsLoop hac raws hnew
    cases hloop : Engine.ancestorsLoop S now { e with back := { e.back with reqID := 0 } } raws with
    | mk ok e' =>
      rw [hloop] at hinv hstill
      cases ok with
      | false => exact hinv
      | true =>
        have hearly' := hstill rfl
        rw [(hinv.early_of_phase hearly'.phase).1]
        exact .early hearly'.sendBackfillRequest

theorem tick (hac : Acyclic U) (h : VoteInv S U e log)
    (hnew : NoReuse (log ++ e.stepCalls S now .tick)) :
    VoteInv S U (e.tick S now) (log ++ e.stepCalls S now .tick) := by
  rw [Engine.stepCalls] at hnew ⊢
  rw [Engine.tick]
  cases hp : e.phase with
  | pollAnchor =>
    obtain ⟨rfl, hearly⟩ := h.early_of_phase (by rw [hp]; simp)
    dsimp only
    split
    · exact .early hearly.sendBootstrapPoll
    · exact .early hearly
  | backfill =>
    obtain ⟨rfl, hearly⟩ := h.early_of_phase (by rw [hp]; simp)
    dsimp only
    split
    · exact .early hearly.sendBackfillRequest
    · exact .early hearly
  | live =>
    rw [hp] at hnew
    have hphase : (e.tickLive S now).phase = .live := (effect_tickLive (U := U) e).phase.trans hp
    exact .live hphase ((h.live_of_phase hp).tickLive hac hnew)

theorem step (hac : Acyclic U) (h : VoteInv S U e log) (i : Input)
    (hU : ∀ c ∈ i.delivers S, U c) (hnew : NoReuse (log ++ e.stepCalls S now i)) :
    VoteInv S U (e.step S now i) (log ++ e.stepCalls S now i) := by
  cases i with
  | container node raw => exact h.onContainer hac node raw hU hnew
  | chits node requestID p q a ah => exact h.onChits hac hnew.of_append node requestID p q a ah
  | ancestors node requestID raws => exact h.onAncestors hac node requestID raws hnew
  | tick => exact h.tick hac hnew

theorem net (h : VoteInv S U e log) (n : N) : VoteInv S U { e with net := n } log := by
  cases h with
  | early h => exact .early ⟨h.phase, h.known, h.polls, h.pollVdrs, h.parked, h.frontiers⟩
  | live hp h => exact .live hp (h.quiet (.of_gets e e.gets n))

theorem looks (h : VoteInv S U e log) (handle : Store.Handle) :
    VoteInv S U
      { e with core := { e.core with host := { e.core.host with handle := handle } } } log := by
  cases h with
  | early h => exact .early ⟨h.phase, h.known, h.polls, h.pollVdrs, h.parked, h.frontiers⟩
  | live hp h =>
    have ht := h.tally
    exact .live hp ⟨⟨ht.known, ht.conserved, ht.backed, ht.reported, ht.fair, ht.replay⟩,
      ⟨h.tables.queried, h.tables.backed⟩⟩

theorem reorder {e' : Engine T P N} (h : VoteInv S U e log) (ho : Reordered e e') :
    VoteInv S U e' log := by
  rw [ho.rest]
  cases h with
  | early h =>
    exact .early ⟨h.phase, h.known, h.polls, fun r => (ho.pollVdrs r).trans (h.pollVdrs r),
      fun id => (ho.parked id).trans (h.parked id), h.frontiers⟩
  | live hp h =>
    have ht := h.tally
    have hwait : waiting e'.pollVdrs = waiting e.pollVdrs := Table.items_congr ho.pollVdrs
    have hheld : parkedBallots e'.parked = parkedBallots e.parked := Table.items_congr ho.parked
    refine .live hp ⟨⟨ht.known, ?_, ht.backed, ht.reported, ht.fair, ht.replay⟩,
      ⟨fun r ps node hr => ?_, fun id vs hvs => ?_⟩⟩
    · dsimp only
      rw [hwait, hheld]
      exact ht.conserved
    · exact h.tables.queried r ps node ((ho.pollVdrs r).symm.trans hr)
    · exact h.tables.backed id vs ((ho.parked id).symm.trans hvs)

end VoteInv

theorem VoteRun.inv (hac : Acyclic U) {host : Host} {n0 : N}
    (h : VoteRun S U (Engine.new S host n0) e log) (hnew : NoReuse log) : VoteInv S U e log := by
  induction h with
  | init =>
    refine .early ⟨by simp [Engine.new], fun id r hr => ?_, rfl, fun _ => rfl, fun _ => rfl,
      fun _ => rfl⟩
    cases hr
  | call h now i hU ih => exact (ih hnew.of_append).step hac i hU hnew
  | net h n ih => exact (ih hnew).net n
  | reorder h ho ih => exact (ih hnew).reorder ho
  | looks h handle hc ih => exact (ih hnew).looks handle

/-- Every ballot counted was sampled, and none is counted twice. -/
theorem VoteInv.counted (h : VoteInv S U e log) (hnew : NoReuse log) :
    counted log ≤ sampled log ∧ (counted log).Nodup := by
  have hle : Consensus.counted log ≤ sampled log := by
    cases h with
    | early => exact le_refl (0 : Multiset Ballot)
    | live _ h =>
      rw [h.tally.conserved]
      exact Multiset.le_add_left _ _
  exact ⟨hle, Multiset.nodup_of_le hle (sampled_nodup hnew)⟩

theorem VoteInv.known (h : VoteInv S U e log) : e.core.Known U := by
  cases h with
  | early h => exact h.known
  | live _ h => exact h.tally.known

/-- Votes are counted once and only for what the validator said: over a whole run, the
ballots counted are sampled ones, each once; each vote is for a block that can be voted for
and that is at or above what the validator named; the calls written down are those the poll
set has seen; and the walk of a vote ends, wherever in a function it starts. -/
theorem votes_counted_once (hac : Acyclic U) {host : Host} {n0 : N}
    (h : VoteRun S U (Engine.new S host n0) e log) (hnew : NoReuse log) :
    (counted log ≤ sampled log ∧ (counted log).Nodup) ∧
      (∀ x ∈ log, x.Fair S) ∧
      e.polls = log.foldl (PollCall.run S) S.polls.new ∧
      ∀ core, Moves S U e.core core → ∀ id,
        Bubbles S core id (Engine.bubble S { e with core := core } core.recs.size id) := by
  have hinv := h.inv hac hnew
  refine ⟨hinv.counted hnew, ?_, ?_, fun core hm id => ?_⟩
  · cases hinv with
    | early => simp
    | live _ hb => exact hb.tally.fair
  · cases hinv with
    | early hearly => exact hearly.polls
    | live _ hb => exact hb.tally.replay
  · have hk : Core.Known U ({ e with core := core } : Engine T P N).core := hm.known hinv.known
    exact bubbles hac hk id

end Run

namespace Sample

/-- The engine goes live and polls nodes 1 and 2.  Node 1 votes, twice, for a container that
is not known yet and then arrives. -/
def parkedInputs : List Input :=
  [.tick,
    .chits (node 1) 1 ID.empty ID.empty (FixedBytes.ofNat 32 105) 5,
    .chits (node 2) 1 ID.empty ID.empty (FixedBytes.ofNat 32 105) 5,
    .container (node 1) [105, 104, 5, 4, 5],
    .chits (node 1) 3 (FixedBytes.ofNat 32 106) (FixedBytes.ofNat 32 106) (FixedBytes.ofNat 32 105) 5,
    .chits (node 1) 3 (FixedBytes.ofNat 32 106) (FixedBytes.ofNat 32 106) (FixedBytes.ofNat 32 105) 5,
    .container (node 1) [106, 105, 6, 5, 6]]

/-- The engine after some inputs, with the calls it made. -/
def logged (inputs : List Input) :
    Engine Procs Unit UInt32 × List (PollCall Procs Unit UInt32) :=
  inputs.foldl (fun s i => (s.1.step setup 0 i, s.2 ++ s.1.stepCalls setup 0 i))
    (Engine.new setup host 0, [])

theorem logged_run {U : Container → Prop} (inputs : List Input)
    (hU : ∀ i ∈ inputs, ∀ c ∈ i.delivers setup, U c) :
    VoteRun setup U (Engine.new setup host 0) (logged inputs).1 (logged inputs).2 := by
  rw [logged]
  have hfold : ∀ (inputs : List Input)
      (s : Engine Procs Unit UInt32 × List (PollCall Procs Unit UInt32)),
      (∀ i ∈ inputs, ∀ c ∈ i.delivers setup, U c) →
      VoteRun setup U (Engine.new setup host 0) s.1 s.2 →
      VoteRun setup U (Engine.new setup host 0)
        (inputs.foldl (fun s i => (s.1.step setup 0 i, s.2 ++ s.1.stepCalls setup 0 i)) s).1
        (inputs.foldl (fun s i => (s.1.step setup 0 i, s.2 ++ s.1.stepCalls setup 0 i)) s).2 := by
    intro inputs
    induction inputs with
    | nil => exact fun s _ hs => hs
    | cons i rest ih =>
      intro s hall hs
      obtain ⟨hi, hrest⟩ := List.forall_mem_cons.mp hall
      exact ih _ hrest (hs.call 0 i hi)
  exact hfold inputs _ hU .init

/-- How high a container of the run is. -/
def height (id : ID) : Nat :=
  if id = FixedBytes.ofNat 32 106 then 2 else if id = FixedBytes.ofNat 32 105 then 1 else 0

theorem parkedInputs_acyclic :
    Acyclic (fun c => c ∈ parkedInputs.flatMap (Input.delivers setup)) := by
  have hstep : ∀ a b, Parent (fun c => c ∈ parkedInputs.flatMap (Input.delivers setup)) a b →
      height b < height a := by
    rintro a b ⟨c, hc, rfl, rfl⟩
    revert c
    decide +kernel
  intro id hcycle
  have hlt : ∀ a b,
      Relation.TransGen (Parent (fun c => c ∈ parkedInputs.flatMap (Input.delivers setup))) a b →
      height b < height a := by
    intro a b h
    induction h with
    | single h => exact hstep _ _ h
    | tail _ hlast ih => exact (hstep _ _ hlast).trans ih
  exact Nat.lt_irrefl _ (hlt id id hcycle)

end Sample

open Sample in
/-- The parked vote is counted once, and node 2 has not voted. -/
theorem votes_counted_once_parked :
    counted (logged parkedInputs).2 = {(3, node 1)} ∧
      sampled (logged parkedInputs).2 = {(3, node 1), (3, node 2)} ∧
      ∀ x ∈ (logged parkedInputs).2, x.Fair setup := by
  have hnew : NoReuse (logged parkedInputs).2 := by
    rw [NoReuse]
    decide +kernel
  refine ⟨by decide +kernel, by decide +kernel, ?_⟩
  exact (votes_counted_once parkedInputs_acyclic (logged_run parkedInputs
    (fun i hi c hc => List.mem_flatMap.mpr ⟨i, hi, hc⟩)) hnew).2.1

end Flatstate.Consensus
