import Flatstate.Consensus.Types
import Flatstate.Node.Published

set_option autoImplicit false

/-!
# Consensus: the part of the engine that executes and decides
(`follower/consensus/consensus.go`, `liveSink` of `cmd/follower/main.go`)

The containers above the last accepted one, the consensus object over them, and the sink
and executor they are fed to.  Everything else of the engine (polls, votes, fetches) acts
on this part through five moves only: a container comes in, waits, is issued, votes are
recorded, a head is announced.

Three fields are ghosts that no function reads: the batches of a container's chain, the
calls made to the sink, and what each execution was run on.
-/

namespace Flatstate.Consensus

open Foundation Schema Capture Store Exec Node

/-! ## State -/

/-- `rec`; its `ethHash` is that of the container's block. -/
structure Rec where
  c : Container
  issued : Bool
  /-- ghost: the batches of the containers from the start to this one, each as the
  execution of its own container gave it -/
  line : List Batch

/-- What the engine's sink and executor work on: `liveSink` with its tracker and node
sink, the executor, and the store handle they share. -/
structure Host where
  sink : Node.Sink
  tracker : Tracker
  exec : Executor
  handle : Handle

/-- A call to the consensus sink. -/
inductive Call where
  | verified (b : Batch)
  | head (hash : Hash)
  | accepted (block : UInt64) (hash : Hash)

/-- A call to the executor: its arguments, the batches of the parent container's chain,
the accepted chain, and the walk and the view it ran on. -/
structure ExecCall where
  parent : Hash
  blk : EthBlock
  line : List Batch
  accepted : List Batch
  /-- the last accepted eth hash -/
  last : Hash
  walk : List Layer × Hash
  /-- whether the walk ended, at a hash without a layer -/
  ended : Bool
  reads : (k : Key) → Except Err (Val k)

/-- What is passed to `fail`. -/
inductive Fatal where
  /-- "consensus: backfill chain has no container at resume height %d" -/
  | noContainer (height : UInt64)
  /-- "consensus: chain hash %x at %d does not match store %x" -/
  | hashMismatch (found : Hash) (height : UInt64) (want : Hash)
  /-- "consensus: backfill execute %d: %w" -/
  | backfillExecute (height : UInt64) (e : ExecErr)
  /-- "consensus: backfill accept %d: %w" -/
  | backfillAccept (height : UInt64) (e : TrackErr)
  /-- "consensus: execute %d %x: %w" -/
  | execute (height : UInt64) (hash : Hash) (e : ExecErr)
  /-- "consensus: add %x: %w" -/
  | add (id : ID)
  /-- "consensus: record poll: %w" -/
  | recordPoll (e : TrackErr)
  /-- "consensus: head: %w" -/
  | head (e : TrackErr)
  deriving DecidableEq

/-- The part of `Engine` that executes and decides. -/
structure Core (T : Type) where
  cons : T
  recs : Table ID Rec
  /-- children container IDs waiting for parent -/
  pendingByPa : Table ID (List ID)
  lastAcceptedID : ID
  lastAcceptedHeight : UInt64
  lastAcceptedEthHash : Hash
  lastPref : Hash
  host : Host
  /-- everything passed to `fail`; the channel keeps the first -/
  fatal : List Fatal
  /-- how often `MakeSink` was called, and what it was called with last -/
  made : Nat
  startHeight : UInt64
  startHash : Hash
  /-- ghost: the calls to the last sink made -/
  calls : List Call
  /-- ghost: the batches of the containers accepted since, as each was executed -/
  accepted : List Batch
  /-- ghost: all executions -/
  execs : List ExecCall

variable {T P V N ρ : Type}

/-- `fail`. -/
def Core.fail (c : Core T) (f : Fatal) : Core T := { c with fatal := c.fatal ++ [f] }

/-- The hash the sink accepted last. -/
def Core.lastHash (c : Core T) : Hash := (c.accepted.getLast?.map Batch.hash).getD c.startHash

/-! ## Executor and sink calls -/

/-- What `Exec.Execute` is run on. -/
def Core.execCall (S : Setup T P V N ρ) (c : Core T) (parent : Hash) (line : List Batch)
    (blk : EthBlock) : ExecCall where
  parent := parent
  blk := blk
  line := line
  accepted := c.accepted
  last := c.lastHash
  walk := c.host.exec.walk c.host.exec.pending.size parent
  ended := (c.host.exec.pending.get (c.host.exec.walk c.host.exec.pending.size parent).2).isNone
  reads := readKey S.keccak c.host.handle c.host.sink.env (c.host.exec.viewAt parent)

/-- `cfg.Exec.Execute`. -/
def Core.execute (S : Setup T P V N ρ) (c : Core T) (parent : Hash) (line : List Batch)
    (blk : EthBlock) : Except ExecErr Batch × Core T :=
  let r := c.host.exec.execute S.evm S.keccak c.host.handle c.host.sink.env parent blk
  (r.1, { c with
    host := { c.host with exec := r.2 }
    execs := c.execs ++ [c.execCall S parent line blk] })

/-- `sink.Verified`. -/
def Core.verified (c : Core T) (b : Batch) : Core T :=
  { c with
    host := { c.host with tracker := c.host.tracker.verified b }
    calls := c.calls ++ [.verified b] }

/-- `sink.Head`. -/
def Core.head (c : Core T) (hash : Hash) : Except TrackErr Unit × Core T :=
  let r := c.host.tracker.head c.host.sink hash
  (r.1, { c with
    host := { c.host with tracker := r.2.1, sink := r.2.2 }
    calls := c.calls ++ [.head hash] })

/-- `sink.Accepted`: the executor prunes after the store committed. -/
def Core.accept (c : Core T) (block : UInt64) (hash : Hash) : Except TrackErr Unit × Core T :=
  let r := c.host.tracker.accepted c.host.sink block hash
  (r.1, { c with
    host := { c.host with
      tracker := r.2.1
      sink := r.2.2
      exec :=
        match r.1 with
        | .ok () => c.host.exec.onFinalized block
        | .error _ => c.host.exec }
    calls := c.calls ++ [.accepted block hash] })

/-! ## Decisions -/

/-- `Engine.onAccept`.  The ghost takes the container's own batch. -/
def Core.onAccept (c : Core T) (con : Container) : Except TrackErr Unit × Core T :=
  ({ c with
    lastAcceptedID := con.id
    lastAcceptedHeight := con.eth.number
    lastAcceptedEthHash := con.eth.hash
    recs := (c.recs.erase con.id).keep (fun _ o => o.issued ∨ ¬ o.c.eth.number ≤ con.eth.number)
    accepted := c.accepted ++ ((c.recs.get con.id).bind (·.line.getLast?)).toList }).accept
      con.eth.number con.eth.hash

/-- `Engine.onReject`. -/
def Core.onReject (c : Core T) (con : Container) : Core T :=
  { c with recs := c.recs.erase con.id, pendingByPa := c.pendingByPa.erase con.id }

/-- The callbacks of one `RecordPoll`, how many were made, and what they leave. -/
def Core.callbacks (c : Core T) : List Decision → Except TrackErr Unit × Nat × Core T
  | [] => (.ok (), 0, c)
  | .accept con :: ds =>
    match c.onAccept con with
    | (.error e, c) => (.error e, 1, c)
    | (.ok (), c) =>
      let r := c.callbacks ds
      (r.1, r.2.1 + 1, r.2.2)
  | .reject con :: ds =>
    let r := (c.onReject con).callbacks ds
    (r.1, r.2.1 + 1, r.2.2)

/-- One turn of `recordPolls`, and whether it goes on. -/
def Core.recordPoll (S : Setup T P V N ρ) (c : Core T) (votes : V) : Bool × Core T :=
  let d := S.topo.recordPoll c.cons votes
  match c.callbacks d.1 with
  | (.ok (), _, c') => (true, { c' with cons := d.2 })
  | (.error e, n, c') =>
    (false, ({ c' with cons := S.topo.aborted c.cons votes n }).fail (.recordPoll e))

/-- The hash `emitHead` announces. -/
def Core.prefHash (S : Setup T P V N ρ) (c : Core T) : Option Hash :=
  if S.topo.preference c.cons = c.lastAcceptedID then some c.lastAcceptedEthHash
  else (c.recs.get (S.topo.preference c.cons)).map (·.c.eth.hash)

/-- `Engine.emitHead`. -/
def Core.emitHead (S : Setup T P V N ρ) (c : Core T) : Core T :=
  match c.prefHash S with
  | none => c
  | some h =>
    if h = c.lastPref then c
    else
      match ({ c with lastPref := h }).head h with
      | (.error e, c) => c.fail (.head e)
      | (.ok (), c) => c

/-- The loop of `recordPolls`, and whether it went through. -/
def Core.recordLoop (S : Setup T P V N ρ) (c : Core T) : List V → Bool × Core T
  | [] => (true, c)
  | votes :: rest =>
    match c.recordPoll S votes with
    | (false, c) => (false, c)
    | (true, c) => c.recordLoop S rest

/-- `Engine.recordPolls`. -/
def Core.recordPolls (S : Setup T P V N ρ) (c : Core T) (results : List V) : Core T :=
  match c.recordLoop S results with
  | (false, c) => c
  | (true, c) => if results.length > 0 then c.emitHead S else c

/-! ## Issuing -/

/-- The first part of `tryIssue`: hash, height and line of the parent, if it is accepted
or issued. -/
def Core.parentOf (c : Core T) (r : Rec) : Option (Hash × UInt64 × List Batch) :=
  if r.c.parentID = c.lastAcceptedID then
    some (c.lastAcceptedEthHash, c.lastAcceptedHeight, c.accepted)
  else
    match c.recs.get r.c.parentID with
    | none => none
    | some pr => if pr.issued then some (pr.c.eth.hash, pr.c.eth.number, pr.line) else none

/-- A container that consensus has taken is issued. -/
def Core.join (c : Core T) (cons : T) (r : Rec) : Core T :=
  { c with cons := cons, recs := c.recs.set r.c.id r }

/-- The second part of `tryIssue`, up to the children, and whether the container is
issued. -/
def Core.issue (S : Setup T P V N ρ) (c : Core T) (r : Rec) (p : Hash × UInt64 × List Batch) :
    Bool × Core T :=
  -- the inner chain must mirror the container chain
  if r.c.eth.parentHash ≠ p.1 ∨ r.c.eth.number ≠ p.2.1 + 1 then
    (false, { c with recs := c.recs.erase r.c.id })
  else
    match c.execute S p.1 p.2.2 r.c.eth with
    | (.error e, c) => (false, c.fail (.execute r.c.eth.number r.c.eth.hash e))
    | (.ok b, c) =>
      match S.topo.add (c.verified b).cons r.c with
      | none => (false, (c.verified b).fail (.add r.c.id))
      | some t =>
        (true, ((c.verified b).join t ⟨r.c, true, p.2.2 ++ [b]⟩).emitHead S)

/-- What the rest of the engine does to this part, for containers in `U`. -/
inductive Move (S : Setup T P V N ρ) (U : Container → Prop) : Core T → Core T → Prop where
  | insert {c : Core T} (con : Container) (hU : U con) (hnew : c.recs.get con.id = none)
      (hlast : con.id ≠ c.lastAcceptedID) (hnum : c.lastAcceptedHeight < con.eth.number) :
      Move S U c { c with recs := c.recs.set con.id ⟨con, false, []⟩ }
  | wait {c : Core T} (pending : Table ID (List ID)) :
      Move S U c { c with pendingByPa := pending }
  | issue {c : Core T} {id : ID} {r : Rec} {p : Hash × UInt64 × List Batch}
      (hr : c.recs.get id = some r) (hi : r.issued = false) (hp : c.parentOf r = some p) :
      Move S U c (c.issue S r p).2
  | poll {c : Core T} (votes : V) : Move S U c (c.recordPoll S votes).2
  | head {c : Core T} : Move S U c (c.emitHead S)

/-- Any number of moves. -/
abbrev Moves (S : Setup T P V N ρ) (U : Container → Prop) : Core T → Core T → Prop :=
  Relation.ReflTransGen (Move S U)

theorem moves_recordLoop (S : Setup T P V N ρ) (U : Container → Prop) (c : Core T)
    (results : List V) : Moves S U c (c.recordLoop S results).2 := by
  induction results generalizing c with
  | nil => exact .refl
  | cons votes rest ih =>
    have hpoll : Moves S U c (c.recordPoll S votes).2 := .single (.poll votes)
    rw [Core.recordLoop]
    cases h : c.recordPoll S votes with
    | mk ok c' =>
      rw [h] at hpoll
      cases ok with
      | false => exact hpoll
      | true => exact hpoll.trans (ih c')

theorem moves_recordPolls (S : Setup T P V N ρ) (U : Container → Prop) (c : Core T)
    (results : List V) : Moves S U c (c.recordPolls S results) := by
  have hloop := moves_recordLoop S U c results
  rw [Core.recordPolls]
  cases h : c.recordLoop S results with
  | mk ok c' =>
    rw [h] at hloop
    cases ok with
    | false => exact hloop
    | true =>
      dsimp only
      split
      · exact hloop.tail .head
      · exact hloop

/-- What the functions of the engine do to this part: moves, with all votes that came in
recorded before the head is announced. -/
inductive Turn (S : Setup T P V N ρ) (U : Container → Prop) : Core T → Core T → Prop where
  | insert {c : Core T} (con : Container) (hU : U con) (hnew : c.recs.get con.id = none)
      (hlast : con.id ≠ c.lastAcceptedID) (hnum : c.lastAcceptedHeight < con.eth.number) :
      Turn S U c { c with recs := c.recs.set con.id ⟨con, false, []⟩ }
  | wait {c : Core T} (pending : Table ID (List ID)) :
      Turn S U c { c with pendingByPa := pending }
  | issue {c : Core T} {id : ID} {r : Rec} {p : Hash × UInt64 × List Batch}
      (hr : c.recs.get id = some r) (hi : r.issued = false) (hp : c.parentOf r = some p) :
      Turn S U c (c.issue S r p).2
  | polls {c : Core T} (results : List V) : Turn S U c (c.recordPolls S results)

/-- Any number of turns. -/
abbrev Turns (S : Setup T P V N ρ) (U : Container → Prop) : Core T → Core T → Prop :=
  Relation.ReflTransGen (Turn S U)

theorem Turn.moves {S : Setup T P V N ρ} {U : Container → Prop} {c c' : Core T}
    (h : Turn S U c c') : Moves S U c c' := by
  cases h with
  | insert con hU hnew hlast hnum => exact .single (.insert con hU hnew hlast hnum)
  | wait pending => exact .single (.wait pending)
  | issue hr hi hp => exact .single (.issue hr hi hp)
  | polls results => exact moves_recordPolls S U c results

theorem Turns.moves {S : Setup T P V N ρ} {U : Container → Prop} {c c' : Core T}
    (h : Turns S U c c') : Moves S U c c' := by
  induction h with
  | refl => exact .refl
  | tail _ hlast ih => exact ih.trans hlast.moves

end Flatstate.Consensus
