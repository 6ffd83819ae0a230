import Flatstate.Consensus.Core

set_option autoImplicit false

/-!
# Consensus: the engine (`follower/consensus/consensus.go`)

The engine asks validators for the accepted anchor, fetches and executes the gap from the
resume point up to it, and then follows consensus live.  Every entry point holds the lock
for its whole length, so it is a function of the engine and of the time it reads.  Maps
that the source ranges over are tables whose order the environment may change at will.
-/

namespace Flatstate.Consensus

open Foundation Schema Capture Store Exec Node

/-! ## State -/

/-- `phase`. -/
inductive Phase where
  | pollAnchor
  | backfill
  | live
  deriving DecidableEq

/-- `pollState`. -/
structure PollState where
  remaining : List NodeID
  deadline : Nat

/-- `getReq`. -/
structure GetReq where
  deadline : Nat
  tries : Nat

/-- `parkedVote`. -/
structure ParkedVote where
  requestID : UInt32
  nodeID : NodeID
  /-- decreasing height: preferred, preferredAtHeight -/
  options : List ID
  deadline : Nat

/-- The bootstrap fields of `Engine`. -/
structure Bootstrap where
  reqID : UInt32
  votes : Table ID Nat
  voters : List NodeID
  /-- of the last query, if one was sent -/
  lastAt : Option Nat

/-- The backfill fields of `Engine`. -/
structure Backfill where
  anchorID : ID
  /-- contiguous from the lowest container to the anchor, by eth number -/
  chain : Table UInt64 Container
  anchor : Option Container
  low : Option Container
  reqID : UInt32
  due : Nat

/-- `Engine`, with the network it is on and the transcript of what it sends and is told.
Counters and times that are only logged are left out. -/
structure Engine (T P N : Type) where
  phase : Phase
  boot : Bootstrap
  back : Backfill
  core : Core T
  polls : P
  pollVdrs : Table UInt32 PollState
  /-- outstanding container fetches -/
  gets : Table ID GetReq
  /-- votes blocked on an unknown container -/
  parked : Table ID (List ParkedVote)
  /-- per-peer last known accepted frontier -/
  frontiers : Table NodeID ID
  lastPollAt : Option Nat
  net : N
  transcript : List Msg

variable {T P V N ρ : Type}

/-- `New`, over the sink and the executor of the follower. -/
def Engine.new (S : Setup T P V N ρ) (host : Host) (net : N) : Engine T P N where
  phase := .pollAnchor
  boot := ⟨0, Table.empty, [], none⟩
  back := ⟨ID.empty, Table.empty, none, none, 0, 0⟩
  core := {
    cons := S.topo.blank, recs := Table.empty, pendingByPa := Table.empty
    lastAcceptedID := ID.empty, lastAcceptedHeight := 0, lastAcceptedEthHash := Hash.zero
    lastPref := Hash.zero, host := host, fatal := [], made := 0, startHeight := 0
    startHash := Hash.zero, calls := [], accepted := [], execs := [] }
  polls := S.polls.new
  pollVdrs := Table.empty
  gets := Table.empty
  parked := Table.empty
  frontiers := Table.empty
  lastPollAt := none
  net := net
  transcript := []

/-- Hand a request to the network. -/
def Engine.send (e : Engine T P N) (m : Msg) : Engine T P N :=
  { e with transcript := e.transcript ++ [m] }

/-- Whether `d` has passed since `t`; a zero time is long ago. -/
def elapsed (now d : Nat) : Option Nat → Bool
  | none => true
  | some t => t + d ≤ now

section Functions

variable (S : Setup T P V N ρ) (now : Nat)

/-! ## Fetching and voting -/

/-- `Engine.fetchIfUnknown`. -/
def Engine.fetchIfUnknown (e : Engine T P N) (id : ID) : Engine T P N :=
  if id = ID.empty ∨ id = e.core.lastAcceptedID then e
  else if (e.core.recs.get id).isSome then e
  else if (e.gets.get id).any (fun g => now < g.deadline) then e
  else
    match S.net.selectPeer e.net with
    | (none, net) => { e with net := net }
    | (some peer, net) =>
      let r := S.net.nextRequestID net
      let tries := ((e.gets.get id).map GetReq.tries).getD 0
      ({ e with gets := e.gets.set id ⟨now + 2500000000, tries + 1⟩, net := r.2 }).send
        (.get peer r.1 id)

/-- `Engine.bubble`: the vote, or the blocker (`ids.Empty` for none).  The source walks
without a bound; a walk that visits no container twice ends within as many steps as there
are containers. -/
def Engine.bubble (e : Engine T P N) : Nat → ID → Except ID ID
  | n, id =>
    if id = e.core.lastAcceptedID ∨ S.topo.processing e.core.cons id then .ok id
    else
      match e.core.recs.get id with
      | none => .error id
      | some r =>
        -- a stale fork below the accepted frontier: nothing to vote for
        if r.c.eth.number ≤ e.core.lastAcceptedHeight then .error ID.empty
        else
          match n with
          | 0 => .error ID.empty
          | n + 1 => e.bubble n r.c.parentID

/-- `recordPolls(polls.Vote(..))`. -/
def Engine.castVote (e : Engine T P N) (v : ParkedVote) (vote : ID) : Engine T P N :=
  let r := S.polls.vote e.core.cons e.polls v.requestID v.nodeID vote
  { e with polls := r.2, core := e.core.recordPolls S r.1 }

/-- `recordPolls(polls.Drop(..))`. -/
def Engine.dropVote (e : Engine T P N) (v : ParkedVote) : Engine T P N :=
  let r := S.polls.drop e.core.cons e.polls v.requestID v.nodeID
  { e with polls := r.2, core := e.core.recordPolls S r.1 }

/-- Park a vote on the container that blocks it. -/
def Engine.park (e : Engine T P N) (blocker : ID) (v : ParkedVote) : Engine T P N :=
  let e := e.fetchIfUnknown S now blocker
  { e with parked := e.parked.set blocker ((e.parked.get blocker).getD [] ++ [v]) }

/-- The loop of `applyVote` over the options, `first` being true at the first one; `none`
if it goes through them. -/
def Engine.applyOptions (e : Engine T P N) (v : ParkedVote) (allowPark : Bool) :
    Bool → List ID → Option (Engine T P N)
  | _, [] => none
  | first, opt :: rest =>
    match e.bubble S e.core.recs.size opt with
    | .ok vote => some (e.castVote S v vote)
    | .error blocker =>
      if allowPark ∧ first ∧ blocker ≠ ID.empty then some (e.park S now blocker v)
      else e.applyOptions v allowPark false rest

/-- `Engine.applyVote`. -/
def Engine.applyVote (e : Engine T P N) (v : ParkedVote) (allowPark : Bool) : Engine T P N :=
  match e.applyOptions S now v allowPark true v.options with
  | some e => e
  | none =>
    match e.frontiers.get v.nodeID with
    | none => e.dropVote S v
    | some fid =>
      match e.bubble S e.core.recs.size fid with
      | .ok vote => e.castVote S v vote
      | .error _ => e.dropVote S v

/-- `applyVote` for each of some votes, without parking. -/
def Engine.applyVotes (e : Engine T P N) (vs : List ParkedVote) : Engine T P N :=
  vs.foldl (fun e v => e.applyVote S now v false) e

/-! ## Containers -/

/-- How many containers are not issued. -/
def Core.unissued (c : Core T) : Nat := (c.recs.keep (fun _ r => !r.issued)).size

/-- The wait of `tryIssue` for a parent that is not issued. -/
def Engine.await (e : Engine T P N) (c : Container) : Engine T P N :=
  let e := if (e.core.recs.get c.parentID).isSome then e else e.fetchIfUnknown S now c.parentID
  let waiting := (e.core.pendingByPa.get c.parentID).getD []
  { e with core := { e.core with
    pendingByPa := e.core.pendingByPa.set c.parentID (waiting ++ [c.id]) } }

/-- `Engine.tryIssue`, on the container with that ID; `none` if the recursion is cut off. -/
def Engine.tryIssue : Nat → Engine T P N → ID → Option (Engine T P N)
  | 0, _, _ => none
  | n + 1, e, id =>
    match e.core.recs.get id with
    | none => some e
    | some r =>
      if r.issued then some e
      else
        match e.core.parentOf r with
        | none => some (e.await S now r.c)
        | some p =>
          match e.core.issue S r p with
          | (false, core) => some { e with core := core }
          | (true, core) =>
            let children := (core.pendingByPa.get id).getD []
            let e := { e with core := { core with pendingByPa := core.pendingByPa.erase id } }
            children.foldlM (fun e child => Engine.tryIssue n e child) e

/-- `Engine.addContainer`. -/
def Engine.addContainer (e : Engine T P N) (c : Container) : Engine T P N :=
  if (e.core.recs.get c.id).isSome then e
  else if c.id = e.core.lastAcceptedID ∨ c.eth.number ≤ e.core.lastAcceptedHeight then e
  else
    let e := { e with core := { e.core with recs := e.core.recs.set c.id ⟨c, false, []⟩ } }
    match e.tryIssue S now (e.core.unissued + 1) c.id with
    | none => e
    | some e =>
      match e.parked.get c.id with
      | none => e
      | some votes => ({ e with parked := e.parked.erase c.id }).applyVotes S now votes

/-! ## Polls -/

/-- `Engine.sendPoll`. -/
def Engine.sendPoll (e : Engine T P N) : Engine T P N :=
  match S.net.sampleValidators e.net S.cfg.k with
  | (none, net) => { e with net := net }
  | (some [], net) => { e with net := net }
  | (some vdrs, net) =>
    let r := S.net.nextRequestID net
    match S.polls.add e.polls r.1 vdrs with
    | none => { e with net := r.2 }
    | some polls =>
      let e := { e with net := r.2, polls := polls, lastPollAt := some now }
      let targets := vdrs.dedup.filter (fun v => S.net.isConnected e.net v)
      let disconnected := vdrs.dedup.filter (fun v => ¬ S.net.isConnected e.net v)
      let e :=
        if targets = [] then e
        else
          ({ e with pollVdrs := e.pollVdrs.set r.1 ⟨targets, now + S.cfg.pollTimeout⟩ }).send
            (.pullQuery targets r.1 (S.topo.preference e.core.cons) (e.core.lastAcceptedHeight + 1))
      e.applyVotes S now (disconnected.map (fun v => ⟨r.1, v, [], 0⟩))

/-- One poll of `Engine.expirePolls`. -/
def Engine.expirePoll (e : Engine T P N) (reqID : UInt32) (ps : PollState) : Engine T P N :=
  if now < ps.deadline then e
  else
    ({ e with pollVdrs := e.pollVdrs.erase reqID }).applyVotes S now
      (ps.remaining.map (fun v => ⟨reqID, v, [], 0⟩))

/-- `Engine.expirePolls`. -/
def Engine.expirePolls (e : Engine T P N) : Engine T P N :=
  e.pollVdrs.entries.foldl (fun e en => e.expirePoll S now en.1 en.2) e

/-- The votes on one container in `Engine.expireParked`. -/
def Engine.expireVotes (e : Engine T P N) (id : ID) (votes : List ParkedVote) : Engine T P N :=
  let expired := votes.filter (fun v => v.deadline < now)
  let kept := votes.filter (fun v => ¬ v.deadline < now)
  let e := e.applyVotes S now (expired.map (fun v => { v with options := [] }))
  { e with parked := if kept = [] then e.parked.erase id else e.parked.set id kept }

/-- `Engine.expireParked`. -/
def Engine.expireParked (e : Engine T P N) : Engine T P N :=
  e.parked.entries.foldl (fun e en => e.expireVotes S now en.1 en.2) e

/-- One request of `Engine.retryGets`. -/
def Engine.retryGet (e : Engine T P N) (id : ID) (g : GetReq) : Engine T P N :=
  if now < g.deadline then e
  else if 10 ≤ g.tries then { e with gets := e.gets.erase id }
  else e.fetchIfUnknown S now id

/-- `Engine.retryGets`. -/
def Engine.retryGets (e : Engine T P N) : Engine T P N :=
  e.gets.entries.foldl (fun e en => e.retryGet S now en.1 en.2) e

/-- The live part of `Engine.Tick`.  The source's loop over `sendPoll` makes at most one
turn: a poll that is sent resets the interval, and one that is not ends the loop. -/
def Engine.tickLive (e : Engine T P N) : Engine T P N :=
  let e := ((e.expirePolls S now).expireParked S now).retryGets S now
  if 0 < S.topo.numProcessing e.core.cons then
    if S.polls.len e.polls < S.cfg.concurrentRepolls ∧ elapsed now S.cfg.pollInterval e.lastPollAt
    then e.sendPoll S now
    else e
  else if elapsed now S.cfg.idlePollInterval e.lastPollAt then e.sendPoll S now
  else e

/-! ## Bootstrap -/

/-- `Engine.sendBootstrapPoll`. -/
def Engine.sendBootstrapPoll (e : Engine T P N) : Engine T P N :=
  match S.net.sampleValidators e.net S.cfg.k with
  | (none, net) => { e with net := net }
  | (some [], net) => { e with net := net }
  | (some vdrs, net) =>
    let r := S.net.nextRequestID net
    let e := { e with
      net := r.2
      boot := { e.boot with reqID := r.1, votes := Table.empty, voters := [] } }
    let targets := (vdrs.filter (fun v => S.net.isConnected e.net v)).dedup
    if targets = [] then e
    else
      ({ e with boot := { e.boot with lastAt := some now } }).send
        (.pullQuery targets r.1 ID.empty 0)

/-- `Engine.sendBackfillRequest`. -/
def Engine.sendBackfillRequest (e : Engine T P N) : Engine T P N :=
  match S.net.selectPeer e.net with
  | (none, net) => { e with net := net }
  | (some peer, net) =>
    let r := S.net.nextRequestID net
    let e := { e with
      net := r.2
      back := { e.back with reqID := r.1, due := now + requestTimeout } }
    match e.back.low with
    | none => e.send (.get peer r.1 e.back.anchorID)
    | some low => e.send (.getAncestors peer r.1 low.parentID)

/-- How many nodes have named a container. -/
def Bootstrap.tally (b : Bootstrap) (id : ID) : Nat := (b.votes.get id).getD 0

/-- Count a node's vote. -/
def Engine.count (e : Engine T P N) (node : NodeID) (accepted : ID) : Engine T P N :=
  { e with boot := { e.boot with
    voters := node :: e.boot.voters
    votes := e.boot.votes.set accepted (e.boot.tally accepted + 1) } }

/-- The anchor is found. -/
def Engine.anchorFound (e : Engine T P N) (accepted : ID) : Engine T P N :=
  { e with
    phase := .backfill
    back := { e.back with anchorID := accepted, chain := Table.empty } }

/-- `Engine.bootstrapChit`. -/
def Engine.bootstrapChit (e : Engine T P N) (node : NodeID) (requestID : UInt32) (accepted : ID) :
    Engine T P N :=
  if requestID ≠ e.boot.reqID ∨ node ∈ e.boot.voters then e
  else
    let e := e.count node accepted
    if e.boot.tally accepted < S.cfg.alphaPreference then e
    else (e.anchorFound accepted).sendBackfillRequest S now

/-! ## Backfill -/

/-- One block of the gap: executed, verified and accepted.  Its hash, if the loop goes on. -/
def Core.backfillTurn (c : Core T) (h : UInt64) (parent : Hash) (blk : EthBlock) :
    Option Hash × Core T :=
  match c.execute S parent c.accepted blk with
  | (.error e, c) => (none, c.fail (.backfillExecute h e))
  | (.ok b, c) =>
    match (c.verified b).accept h b.hash with
    | (.error e, c) => (none, c.fail (.backfillAccept h e))
    | (.ok (), c) => (some b.hash, { c with accepted := c.accepted ++ [b] })

/-- The gap of `finishBootstrap`, executed forward from height `h`, and whether it went
through.  A turn raises the height, so as many turns as there are containers suffice. -/
def Core.backfillLoop (chain : Table UInt64 Container) :
    Nat → UInt64 → Hash → Core T → Bool × Core T
  | n, h, parent, c =>
    match chain.get h with
    | none => (true, c)
    | some con =>
      match n with
      | 0 => (false, c)
      | n + 1 =>
        match c.backfillTurn S h parent con.eth with
        | (none, c) => (false, c)
        | (some hash, c) => Core.backfillLoop chain n (h + 1) hash c

/-- The start point of `finishBootstrap`. -/
def startPoint (chain : Table UInt64 Container) (start : Container) : Except Fatal (UInt64 × Hash) :=
  match S.cfg.resume with
  | none => .ok (start.eth.number, start.eth.hash)
  | some r =>
    match chain.get r.height with
    | none => .error (.noContainer r.height)
    | some rc =>
      match r.ethHash with
      | none => .ok (r.height, rc.eth.hash)
      | some want =>
        if rc.eth.hash ≠ want then .error (.hashMismatch rc.eth.hash r.height want)
        else .ok (r.height, rc.eth.hash)

/-- The headers `finishBootstrap` seeds: those from the lowest container to the start. -/
def seeds (chain : Table UInt64 Container) (start : Container) (startHeight : UInt64) :
    List (Hash × UInt64) :=
  (List.range (startHeight.toNat + 1 - start.eth.number.toNat)).filterMap (fun i =>
    (chain.get (start.eth.number + UInt64.ofNat i)).map (fun c => (c.eth.hash, c.eth.number)))

/-- `SeedHeaders` and `MakeSink` of `finishBootstrap`. -/
def Core.makeSink (c : Core T) (headers : List (Hash × UInt64)) (height : UInt64) (hash : Hash) :
    Core T :=
  { c with
    host := { c.host with
      exec := if S.cfg.seedHeaders then c.host.exec.seedHeaders headers else c.host.exec
      tracker := newTracker height hash }
    made := c.made + 1
    startHeight := height
    startHash := hash
    calls := []
    accepted := [] }

/-- The last part of `finishBootstrap`: the engine takes the anchor as accepted. -/
def Core.anchored (c : Core T) (anchor : Container) : Core T :=
  { c with
    lastAcceptedID := anchor.id
    lastAcceptedHeight := anchor.eth.number
    lastAcceptedEthHash := anchor.eth.hash
    lastPref := anchor.eth.hash
    cons := S.topo.init anchor.id anchor.eth.number anchor.eth.time }

/-- The engine goes live on the anchor. -/
def Engine.goLive (e : Engine T P N) (c : Core T) (anchor : Container) : Engine T P N :=
  { e with
    core := c.anchored S anchor
    polls := S.polls.new
    back := { e.back with chain := Table.empty, anchor := none, low := none }
    phase := .live }

/-- `Engine.finishBootstrap`; errors of `Topological.Initialize` and of the poll factory
are not modelled. -/
def Engine.finishBootstrap (e : Engine T P N) (anchor start : Container) : Engine T P N :=
  match startPoint S e.back.chain start with
  | .error f => { e with core := e.core.fail f }
  | .ok (height, hash) =>
    let c := e.core.makeSink S (seeds e.back.chain start height) height hash
    match c.backfillLoop S e.back.chain e.back.chain.size (height + 1) hash with
    | (false, c) => { e with core := c }
    | (true, c) => (e.goLive S c anchor).sendPoll S now

/-- `Engine.backfillTarget`. -/
def backfillTarget (anchor : Container) : UInt64 :=
  match S.cfg.resume with
  | none => anchor.eth.number
  | some r =>
    if S.cfg.seedHeaders = false ∨ r.height < S.cfg.headerBackfill then r.height
    else r.height - S.cfg.headerBackfill

/-- Whether `backfillContainer` takes a container: the anchor, or the next parent down. -/
def Backfill.takes (b : Backfill) (c : Container) : Bool :=
  match b.low with
  | none => c.id = b.anchorID
  | some low =>
    c.eth.number = low.eth.number - 1 ∧ c.eth.hash = low.eth.parentHash ∧ c.id = low.parentID

/-- The container becomes the lowest one. -/
def Engine.take (e : Engine T P N) (c : Container) : Engine T P N :=
  { e with back := { e.back with
    chain := e.back.chain.set c.eth.number c
    anchor := some (e.back.anchor.getD c)
    low := some c } }

/-- `Engine.backfillContainer`. -/
def Engine.backfillContainer (e : Engine T P N) (c : Container) : Engine T P N :=
  if e.back.takes c = false then e
  else
    let anchor := e.back.anchor.getD c
    if c.eth.number = backfillTarget S anchor ∨ c.eth.number = 0 then
      (e.take c).finishBootstrap S now anchor c
    else e.take c

/-! ## Entry points -/

/-- `Engine.OnContainer`. -/
def Engine.onContainer (e : Engine T P N) (raw : Bytes) : Engine T P N :=
  match S.parse raw with
  | none => e
  | some c =>
    let e := { e with gets := e.gets.erase c.id }
    match e.phase with
    | .pollAnchor => e
    | .backfill =>
      let e := e.backfillContainer S now c
      if e.phase = .backfill then e.sendBackfillRequest S now else e
    | .live => e.addContainer S now c

/-- `Engine.OnChits`. -/
def Engine.onChits (e : Engine T P N) (node : NodeID) (requestID : UInt32)
    (preferred preferredAtHeight accepted : ID) (acceptedHeight : UInt64) : Engine T P N :=
  let e := e.send (.chits node requestID preferred preferredAtHeight accepted acceptedHeight)
  match e.phase with
  | .pollAnchor => e.bootstrapChit S now node requestID accepted
  | .backfill => e
  | .live =>
    let e := { e with frontiers := e.frontiers.set node accepted }
    match e.pollVdrs.get requestID with
    | none => e
    | some ps =>
      if node ∉ ps.remaining then e
      else
        let remaining := ps.remaining.erase node
        let e := { e with pollVdrs :=
          if remaining = [] then e.pollVdrs.erase requestID
          else e.pollVdrs.set requestID ⟨remaining, ps.deadline⟩ }
        let e := e.fetchIfUnknown S now preferred
        let e := if preferredAtHeight ≠ preferred then e.fetchIfUnknown S now preferredAtHeight else e
        e.applyVote S now
          ⟨requestID, node, [preferred, preferredAtHeight], now + requestTimeout⟩ true

/-- The loop of `OnAncestors`, and whether it went through without leaving the backfill. -/
def Engine.ancestorsLoop (e : Engine T P N) : List Bytes → Bool × Engine T P N
  | [] => (true, e)
  | raw :: rest =>
    match S.parse raw with
    | none => (false, e)
    | some c =>
      let e := e.backfillContainer S now c
      if e.phase = .backfill then e.ancestorsLoop rest else (false, e)

/-- `Engine.OnAncestors`. -/
def Engine.onAncestors (e : Engine T P N) (requestID : UInt32) (containers : List Bytes) :
    Engine T P N :=
  if e.phase ≠ .backfill ∨ requestID ≠ e.back.reqID then e
  else
    match ({ e with back := { e.back with reqID := 0 } }).ancestorsLoop S now containers with
    | (false, e) => e
    | (true, e) => e.sendBackfillRequest S now

/-- `Engine.Tick`. -/
def Engine.tick (e : Engine T P N) : Engine T P N :=
  match e.phase with
  | .pollAnchor => if elapsed now 2000000000 e.boot.lastAt then e.sendBootstrapPoll S now else e
  | .backfill => if e.back.reqID = 0 ∨ e.back.due < now then e.sendBackfillRequest S now else e
  | .live => e.tickLive S now

/-- What the engine is called with. -/
inductive Input where
  | container (node : NodeID) (raw : Bytes)
  | chits (node : NodeID) (requestID : UInt32) (preferred preferredAtHeight accepted : ID)
      (acceptedHeight : UInt64)
  | ancestors (node : NodeID) (requestID : UInt32) (containers : List Bytes)
  | tick

/-- A call of an entry point. -/
def Engine.step (e : Engine T P N) : Input → Engine T P N
  | .container _ raw => e.onContainer S now raw
  | .chits node requestID preferred preferredAtHeight accepted acceptedHeight =>
    e.onChits S now node requestID preferred preferredAtHeight accepted acceptedHeight
  | .ancestors _ requestID containers => e.onAncestors S now requestID containers
  | .tick => e.tick S now

end Functions

/-- The containers an input delivers. -/
def Input.delivers (S : Setup T P V N ρ) : Input → List Container
  | .container _ raw => (S.parse raw).toList
  | .chits .. => []
  | .ancestors _ _ raws => raws.filterMap S.parse
  | .tick => []

/-- The maps the source ranges over, in another order. -/
structure Reordered (e e' : Engine T P N) : Prop where
  gets : ∀ id, e'.gets.get id = e.gets.get id
  pollVdrs : ∀ id, e'.pollVdrs.get id = e.pollVdrs.get id
  parked : ∀ id, e'.parked.get id = e.parked.get id
  rest : e' = { e with gets := e'.gets, pollVdrs := e'.pollVdrs, parked := e'.parked }

/-- A run of the engine from `e0`: calls in any order and at any time that deliver
containers in `U` and satisfy `Q`, a network that changes on its own, ranges in any order,
and a store handle that looks at the store. -/
inductive Run (S : Setup T P V N ρ) (U : Container → Prop) (Q : Engine T P N → Input → Prop)
    (e0 : Engine T P N) : Engine T P N → Prop where
  | init : Run S U Q e0 e0
  | call {e : Engine T P N} (h : Run S U Q e0 e) (now : Nat) (i : Input)
      (hU : ∀ c ∈ i.delivers S, U c) (hQ : Q e i) : Run S U Q e0 (e.step S now i)
  | net {e : Engine T P N} (h : Run S U Q e0 e) (n : N) : Run S U Q e0 { e with net := n }
  | reorder {e e' : Engine T P N} (h : Run S U Q e0 e) (ho : Reordered e e') : Run S U Q e0 e'
  | looks {e : Engine T P N} (h : Run S U Q e0 e) (handle : Handle)
      (hc : Coherent handle e.core.host.sink.env) :
      Run S U Q e0 { e with core := { e.core with host := { e.core.host with handle := handle } } }

end Flatstate.Consensus
