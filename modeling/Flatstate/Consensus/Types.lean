import Flatstate.Exec.Execute
import Flatstate.Node.Crash

set_option autoImplicit false

/-!
# Consensus: containers and the parties the engine works with

`snowman.Topological`, `poll.Set` and the network are avalanchego's; they are parameters
here.  Of `Topological` the development uses its contract only, stated over the tree of
processing containers it keeps.  Nothing is assumed about polls or the network.
-/

namespace Flatstate.Consensus

open Foundation Schema Exec

/-- `ids.ID`. -/
abbrev ID := FixedBytes 32

/-- `ids.Empty`. -/
abbrev ID.empty : ID := FixedBytes.zero 32

/-- `ids.NodeID`. -/
abbrev NodeID := FixedBytes 20

/-- `net.Container`, without its raw bytes. -/
structure Container where
  id : ID
  parentID : ID
  eth : EthBlock
  deriving DecidableEq

/-! ## `snowman.Topological` -/

/-- A callback of `RecordPoll` to the block it was given in `Add`. -/
inductive Decision where
  | accept (c : Container)
  | reject (c : Container)
  deriving DecidableEq

/-- `snowman.Topological` over votes `V`.  `RecordPoll` calls back `Accept` and `Reject`
in order; an `Accept` that fails ends it, and `aborted` is what it then leaves after so
many callbacks. -/
structure Topological (T V : Type) where
  /-- before `Initialize` -/
  blank : T
  init : (lastAccepted : ID) → (height time : UInt64) → T
  add : T → Container → Option T
  recordPoll : T → V → List Decision × T
  aborted : T → V → Nat → T
  preference : T → ID
  processing : T → ID → Bool
  numProcessing : T → Nat

/-- What `Topological` keeps: the last accepted container and the processing ones. -/
structure Tree where
  last : ID
  procs : ID → Option Container

namespace Tree

def insert (t : Tree) (c : Container) : Tree :=
  { t with procs := Function.update t.procs c.id (some c) }

def accept (t : Tree) (c : Container) : Tree := ⟨c.id, Function.update t.procs c.id none⟩

def reject (t : Tree) (c : Container) : Tree :=
  { t with procs := Function.update t.procs c.id none }

/-- Decisions, one after another: only a processing child of the last accepted container
is accepted, and only a processing one is rejected. -/
inductive Replay : Tree → List Decision → Tree → Prop where
  | nil (t : Tree) : Replay t [] t
  | accept {t t' : Tree} {c : Container} {ds : List Decision} (hproc : t.procs c.id = some c)
      (hpar : c.parentID = t.last) (h : Replay (t.accept c) ds t') : Replay t (.accept c :: ds) t'
  | reject {t t' : Tree} {c : Container} {ds : List Decision} (hproc : t.procs c.id = some c)
      (h : Replay (t.reject c) ds t') : Replay t (.reject c :: ds) t'

/-- The last accepted container and what stands on it. -/
inductive Descends (t : Tree) : ID → Prop where
  | last : Descends t t.last
  | step {id : ID} {c : Container} (hproc : t.procs id = some c) (h : Descends t c.parentID) :
      Descends t id

/-- Every processing container descends from the last accepted one. -/
def Rooted (t : Tree) : Prop := ∀ id c, t.procs id = some c → t.Descends id

end Tree

/-- The contract of `Topological`: it processes what was added to it, accepts only a
processing child of the last accepted container, and before `RecordPoll` returns rejects
what does not descend from it; its preference is in its tree. -/
structure Topological.Contract {T V : Type} (topo : Topological T V) (tree : T → Tree) : Prop where
  init : ∀ id height time, tree (topo.init id height time) = ⟨id, fun _ => none⟩
  add : ∀ t c t', topo.add t c = some t' → (tree t).procs c.id = none →
    (tree t).Descends c.parentID → tree t' = (tree t).insert c
  decisions : ∀ t votes,
    (tree t).Replay (topo.recordPoll t votes).1 (tree (topo.recordPoll t votes).2)
  rooted : ∀ t votes, (tree t).Rooted → (tree (topo.recordPoll t votes).2).Rooted
  preference : ∀ t,
    topo.preference t = (tree t).last ∨ (tree t).procs (topo.preference t) ≠ none

/-! ## Polls, network, configuration -/

/-- `poll.Set` over votes `V`; its polls terminate early by looking at the tree. -/
structure PollSet (T P V : Type) where
  new : P
  /-- `none`: not added -/
  add : P → (requestID : UInt32) → List NodeID → Option P
  vote : T → P → (requestID : UInt32) → NodeID → ID → List V × P
  drop : T → P → (requestID : UInt32) → NodeID → List V × P
  len : P → Nat

/-- `Net`, without the sends, which go to the transcript. -/
structure NetOps (N : Type) where
  nextRequestID : N → UInt32 × N
  sampleValidators : N → Nat → Option (List NodeID) × N
  isConnected : N → NodeID → Bool
  selectPeer : N → Option NodeID × N

/-- What goes over the wire and matters to the engine: the requests it sends and the
chits it is given. -/
inductive Msg where
  | get (peer : NodeID) (requestID : UInt32) (containerID : ID)
  | getAncestors (peer : NodeID) (requestID : UInt32) (containerID : ID)
  | pullQuery (targets : List NodeID) (requestID : UInt32) (containerID : ID)
      (requestedHeight : UInt64)
  | chits (node : NodeID) (requestID : UInt32)
      (preferred preferredAtHeight accepted : ID) (acceptedHeight : UInt64)
  deriving DecidableEq

/-- `Config`; durations and times are in nanoseconds. -/
structure Config where
  resume : Option Node.Anchor
  /-- whether `SeedHeaders` is set -/
  seedHeaders : Bool
  headerBackfill : UInt64
  /-- of `snowball.Parameters` -/
  k : Nat
  alphaPreference : Nat
  concurrentRepolls : Nat
  pollInterval : Nat
  idlePollInterval : Nat
  pollTimeout : Nat
  deriving DecidableEq

/-- `net.RequestTimeout`. -/
def requestTimeout : Nat := 10000000000

/-- Everything the engine is configured with. -/
structure Setup (T P V N ρ : Type) where
  cfg : Config
  topo : Topological T V
  polls : PollSet T P V
  net : NetOps N
  evm : Evm ρ
  keccak : Bytes → Hash
  /-- `net.ParseContainer`; `none` is an error -/
  parse : Bytes → Option Container

end Flatstate.Consensus
