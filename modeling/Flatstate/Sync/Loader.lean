import Flatstate.Store.Scan
import Flatstate.Sync.Leaves

set_option autoImplicit false

/-!
# Sync: the baseline loader (`follower/sync/sync.go`)

`Run` walks the account trie in 256 segments, then the storage tries of the accounts it has
queued, and then looks for code that is missing.  All rows go through one channel to a single
writer, which owns the `Baseline` and commits in chunks; a chunk may end inside a bundle.

A run is a transition system: segment workers, storage tasks, their sub-walkers, the writer
and the main goroutine take their steps in any order.  What peers answer is not determined
either: a step that asks the client takes any response the client may give (`Serves`).
A request that fails, a leaf that does not decode, a failed transaction, a cancelled context
and a crash all end a run the same way, with nothing more committed, so none of them is a
step: a run may be cut off in any state (`Reached.cut`), and then only the store is left.
-/

namespace Flatstate.Sync

open Foundation Schema Store

/-! ## What the loader is given -/

/-- `types.StateAccount`. -/
structure StateAccount where
  nonce : UInt64
  balance : Option (BitVec 256)
  root : Hash
  codeHash : Bytes

/-- The state of the chain as the verifying client serves it, and the decoders and constants
of the libraries the loader uses. -/
structure Chain where
  /-- the leaves of the trie with a root; the account of the state trie is zero -/
  trie : (root account : Hash) → Leaves
  /-- the blob `GetCode` returns for a hash -/
  code : Hash → Option Bytes
  /-- `rlp.DecodeBytes` of an account leaf -/
  rlpAccount : Bytes → Option StateAccount
  /-- the content `rlp.Split` finds in a storage leaf -/
  rlpSplit : Bytes → Option Bytes
  keccak : Bytes → Hash
  /-- `types.EmptyRootHash` -/
  emptyRoot : Hash

/-- `Config`, and the variables of the package. -/
structure Config where
  height : UInt64
  root : Hash
  workers : Int
  splitAfter : Nat := 32
  splitWays : Nat := 16
  noStorageResume : Bool := false

/-- The number of workers; 32 unless a positive one is given. -/
def Config.width (c : Config) : Nat := if c.workers ≤ 0 then 32 else c.workers.toNat

/-- The account trie. -/
def Chain.accounts (x : Chain) (c : Config) : Leaves := x.trie c.root Hash.zero

/-- What a run fails with. -/
inductive LoadErr where
  /-- "sync: account leaf key has %d bytes" -/
  | keySize (n : Nat)
  /-- "sync: account %x: %w" -/
  | account (key : Bytes)
  /-- "sync: code %x: %w" -/
  | code (hash : Hash)
  /-- "sync: storage leaf key has %d bytes" -/
  | slotKeySize (n : Nat)
  /-- "sync: storage value of %x: %v" -/
  | slotValue (addrHash : Hash)
  /-- "sync: code sweep: %w" -/
  | codeSweep
  /-- "sync: progress row has %d bytes, want %d" -/
  | progressSize (n : Nat)
  | store (e : Store.Err)

/-! ## Leaves to rows -/

/-- The account row of a leaf. -/
def StateAccount.row (a : StateAccount) : Account :=
  ⟨a.balance.getD 0, a.nonce, bytesToHash a.codeHash⟩

/-- `hasStorage`. -/
def Chain.hasStorage (x : Chain) (a : StateAccount) : Bool :=
  decide (a.root ≠ Hash.zero ∧ a.root ≠ x.emptyRoot)

/-- Whether there is code to fetch; `types.EmptyCodeHash` is the hash of no bytes. -/
def Chain.hasCode (x : Chain) (codeHash : Hash) : Bool :=
  decide (codeHash ≠ Hash.zero ∧ codeHash ≠ x.keccak [])

/-- The queue row of an account with storage, and then its account row. -/
def accountRows (x : Chain) (addrHash : Hash) (acc : StateAccount) : List LoadRow :=
  (if x.hasStorage acc then [.queueStorage addrHash acc.root] else []) ++
    [.baseAccount addrHash acc.row]

/-- `handleAccount`: the rows of an account leaf in the order they are applied, and the code
claims afterwards.  The first to claim a code hash fetches the code. -/
def handleAccount (x : Chain) (claims : List Hash) (l : Leaf) :
    Except LoadErr (List LoadRow × List Hash) :=
  if l.1.length ≠ 32 then .error (.keySize l.1.length)
  else
    match x.rlpAccount l.2 with
    | none => .error (.account l.1)
    | some acc =>
      let codeHash := bytesToHash acc.codeHash
      let rows := accountRows x (bytesToHash l.1) acc
      if x.hasCode codeHash = true ∧ codeHash ∉ claims then
        match x.code codeHash with
        | none => .error (.code codeHash)
        | some blob => .ok (.code codeHash blob :: rows, codeHash :: claims)
      else .ok (rows, claims)

/-- The slot row of a storage leaf. -/
def slotLeafRow (x : Chain) (addrHash : Hash) (l : Leaf) : Except LoadErr LoadRow :=
  if l.1.length ≠ 32 then .error (.slotKeySize l.1.length)
  else
    match x.rlpSplit l.2 with
    | none => .error (.slotValue addrHash)
    | some content =>
      if content.length > 32 then .error (.slotValue addrHash)
      else .ok (.baseSlot addrHash (bytesToHash l.1) (bytesToHash content))

/-! ## Segment workers -/

/-- `bundle`: the rows `apply` adds, the segment if it is final, and whether it is a barrier. -/
structure Bundle where
  apply : List LoadRow
  final : Option UInt8 := none
  barrier : Bool := false

/-- One entry of `accountRows`: still to be handled, or the rows to apply. -/
inductive Slot where
  | leaf (l : Leaf)
  | rows (rs : List LoadRow)

/-- A worker of `runSegment`. -/
inductive SegWorker where
  /-- `g.Go` has not started it; the start key is the resume key -/
  | queued (start : Option Bytes)
  | asking (start : Bytes)
  /-- the accounts of a response are handled concurrently -/
  | handling (slots : List Slot) (v : Verdict)
  /-- the rows are enqueued in key order -/
  | sending (rows : List (List LoadRow)) (v : Verdict)
  | closing
  | ended

def segStart (i : UInt8) : Bytes := i :: List.replicate 31 0

def segEnd (i : UInt8) : Bytes := i :: List.replicate 31 0xff

/-- A step of `runSegment` in segment `i`; the claims are shared by all workers. -/
inductive SegStep (c : Config) (x : Chain) (i : UInt8) :
    SegWorker × List Hash → Option Bundle → SegWorker × List Hash → Prop
  | page {start : Bytes} {claims : List Hash} {r : LeafsResponse}
      (hserve : Serves (x.accounts c) start r) :
      SegStep c x i (.asking start, claims) none
        (.handling ((truncateAt r (some (segEnd i))).1.leaves.map .leaf)
          (verdict (truncateAt r (some (segEnd i))).2 (truncateAt r (some (segEnd i))).1), claims)
  | handle {before after : List Slot} {l : Leaf} {v : Verdict} {claims claims' : List Hash}
      {rows : List LoadRow} (hrows : handleAccount x claims l = .ok (rows, claims')) :
      SegStep c x i (.handling (before ++ .leaf l :: after) v, claims) none
        (.handling (before ++ .rows rows :: after) v, claims')
  | handled {rows : List (List LoadRow)} {v : Verdict} {claims : List Hash} :
      SegStep c x i (.handling (rows.map .rows) v, claims) none (.sending rows v, claims)
  | send {rs : List LoadRow} {rows : List (List LoadRow)} {v : Verdict} {claims : List Hash} :
      SegStep c x i (.sending (rs :: rows) v, claims) (some { apply := rs })
        (.sending rows v, claims)
  | again {k : Bytes} {claims : List Hash} :
      SegStep c x i (.sending [] (.go k), claims) none (.asking k, claims)
  | last {claims : List Hash} :
      SegStep c x i (.sending [] .stop, claims) none (.closing, claims)
  | close {claims : List Hash} :
      SegStep c x i (.closing, claims) (some { apply := [], final := some i }) (.ended, claims)

/-! ## Storage tasks -/

/-- A call of `walkStorage`, after `n` requests. -/
inductive Walker where
  | opening (start : Bytes) (end_ : Option Bytes)
  | asking (start : Bytes) (end_ : Option Bytes) (n : Nat)
  | sending (rows : List LoadRow) (v : Verdict) (end_ : Option Bytes) (n : Nat)
  | ended (next : Option Bytes)
  /-- "empty response with more=true" -/
  | failed

/-- Where a walk starts: a sub-range walk resumes past the greatest committed slot. -/
def resumeAt (c : Config) (db : Env) (addrHash : Hash) (maxReqs : Nat) (start : Bytes)
    (end_ : Option Bytes) : Walker :=
  if maxReqs = 0 ∧ c.noStorageResume = false then
    match maxBaseSlot db addrHash start end_ with
    | none => .asking start end_ 0
    | some wm =>
      match incKey wm.1 with
      | none => .ended none
      | some next =>
        if (∃ e ∈ end_, e ≠ [] ∧ e < next) then .ended none
        else if start < next then .asking next end_ 0
        else .asking start end_ 0
  else .asking start end_ 0

/-- How a walk goes on once its page is enqueued. -/
def Walker.after (end_ : Option Bytes) (n : Nat) : Verdict → Walker
  | .stop => .ended none
  | .go k => .asking k end_ (n + 1)
  | .empty => .failed

/-- A step of `walkStorage`. -/
inductive WalkStep (c : Config) (x : Chain) (db : Env) (addrHash root : Hash) (maxReqs : Nat) :
    Walker → Option Bundle → Walker → Prop
  | resume {start : Bytes} {end_ : Option Bytes} :
      WalkStep c x db addrHash root maxReqs (.opening start end_) none
        (resumeAt c db addrHash maxReqs start end_)
  | capped {start : Bytes} {end_ : Option Bytes} {n : Nat} (hcap : 0 < maxReqs ∧ maxReqs ≤ n) :
      WalkStep c x db addrHash root maxReqs (.asking start end_ n) none (.ended (some start))
  | page {start : Bytes} {end_ : Option Bytes} {n : Nat} {r : LeafsResponse} {rows : List LoadRow}
      (hcap : ¬ (0 < maxReqs ∧ maxReqs ≤ n)) (hserve : Serves (x.trie root addrHash) start r)
      (hrows : (truncateAt r end_).1.leaves.mapM (slotLeafRow x addrHash) = .ok rows) :
      WalkStep c x db addrHash root maxReqs (.asking start end_ n) none
        (.sending rows (verdict (truncateAt r end_).2 (truncateAt r end_).1) end_ n)
  | send {rows : List LoadRow} {v : Verdict} {end_ : Option Bytes} {n : Nat} :
      WalkStep c x db addrHash root maxReqs (.sending rows v end_ n) (some { apply := rows })
        (Walker.after end_ n v)

/-- Where the goroutine of one queue row is. -/
inductive TaskState where
  | warming (w : Walker)
  /-- a giant: the rest of the key space in parallel sub-ranges -/
  | fanned (ws : List Walker)
  | dequeuing
  | ended

/-- One row of the storage queue being drained. -/
structure Task where
  addrHash : Hash
  root : Hash
  state : TaskState

/-- What is remembered of a run: that the account trie is walked and committed, where a giant
was split, and that a queue row was given up. -/
inductive Event where
  | walked
  | fan (addrHash : Hash) (start : Bytes)
  | dequeue (addrHash : Hash)
  deriving DecidableEq

/-- A step of a storage task. -/
inductive TaskStep (c : Config) (x : Chain) (db : Env) (addrHash root : Hash) :
    TaskState → Option Bundle → Option Event → TaskState → Prop
  | warm {w w' : Walker} {out : Option Bundle}
      (hstep : WalkStep c x db addrHash root c.splitAfter w out w') :
      TaskStep c x db addrHash root (.warming w) out none (.warming w')
  | whole : TaskStep c x db addrHash root (.warming (.ended none)) none none .dequeuing
  | fan {start : Bytes} {ranges : List (Bytes × Option Bytes)}
      (hsplit : splitRange start c.splitWays = some ranges) :
      TaskStep c x db addrHash root (.warming (.ended (some start))) none
        (some (.fan addrHash start)) (.fanned (ranges.map (fun r => .opening r.1 r.2)))
  | sub {before after : List Walker} {w w' : Walker} {out : Option Bundle}
      (hstep : WalkStep c x db addrHash root 0 w out w') :
      TaskStep c x db addrHash root (.fanned (before ++ w :: after)) out none
        (.fanned (before ++ w' :: after))
  | joined {ws : List Walker} (hall : ∀ w ∈ ws, w = .ended none) :
      TaskStep c x db addrHash root (.fanned ws) none none .dequeuing
  | dequeue :
      TaskStep c x db addrHash root .dequeuing (some { apply := [.dequeueStorage addrHash] })
        (some (.dequeue addrHash)) .ended

/-! ## The run -/

/-- Where the main goroutine of `Run` is. -/
inductive Phase where
  /-- phase 1: `g.Wait()` -/
  | walking
  /-- `drainStorageQueue` has to send its barrier -/
  | fence
  | fencing
  | scanning (after : Option Hash)
  | spawning (left : List (Hash × Hash)) (last : Hash)
  /-- phase 2: `g.Wait()` -/
  | draining
  | closed
  | sweeping (rows : List LoadRow)
  /-- `Run` has returned nil -/
  | returned

/-- Storage tasks run from the first scan to `g.Wait()`. -/
def Phase.storage : Phase → Bool
  | .scanning _ | .spawning _ _ | .draining => true
  | _ => false

/-- Whether a segment's bit is set in the progress bitmap. -/
def segDone (bitmap : Bytes) (i : UInt8) : Bool :=
  (bitmap.getD (i.toNat / 8) 0) &&& (1 <<< UInt8.ofNat (i.toNat % 8)) ≠ 0

/-- Set a segment's bit. -/
def markSeg (bitmap : Bytes) (i : UInt8) : Bytes :=
  bitmap.modify (i.toNat / 8) (· ||| 1 <<< UInt8.ofNat (i.toNat % 8))

/-- A run over the store `db`. -/
structure Load where
  db : Env
  bl : Baseline
  bitmap : Bytes
  /-- what the writer goroutine is applying -/
  cur : Option Bundle
  /-- the channel -/
  writes : List Bundle
  claims : List Hash
  segs : UInt8 → SegWorker
  phase : Phase
  tasks : List Task

/-- `Run` up to its first worker: the segments without a bit are resumed past the greatest
committed account. -/
def beginRun (c : Config) (h : Handle) (db : Env) : Except LoadErr Load :=
  match newBaseline h db c.height with
  | .error e => .error (.store e)
  | .ok (bl, db, _) =>
    let begin_ (bitmap : Bytes) : Load :=
      { db, bl, bitmap, cur := none, writes := [], claims := []
        segs := fun i =>
          if segDone bitmap i then .ended
          else .queued ((maxBaseAccountWithPrefix db i).bind (fun h => incKey h.1))
        phase := .walking, tasks := [] }
    match db.get metaBaselineProgress with
    | none => .ok (begin_ (List.replicate 32 0))
    | some prog => if prog.length ≠ 32 then .error (.progressSize prog.length) else .ok (begin_ prog)

/-- Add one row to the `Baseline`. -/
def Load.load (s : Load) (r : LoadRow) : Load :=
  let (_, bl, db) := s.bl.load true s.db r
  { s with bl, db }

/-- `Baseline.Flush`. -/
def Load.flush (s : Load) : Load :=
  let (_, bl, db) := s.bl.flush true s.db
  { s with bl, db }

/-- What the writer does for a final bundle. -/
def Load.mark (s : Load) (final : Option UInt8) : Load :=
  match final with
  | none => s
  | some i => { s with bitmap := markSeg s.bitmap i, bl := s.bl.setProgress (markSeg s.bitmap i) }

/-- A started worker of phase 1. -/
def SegWorker.busy : SegWorker → Bool
  | .queued _ | .ended => false
  | _ => true

def segments : List UInt8 := (List.range 256).map UInt8.ofNat

/-- The goroutines `g.SetLimit` counts in phase 1. -/
def Load.busySegs (s : Load) : Nat := segments.countP (fun i => (s.segs i).busy)

def TaskState.busy : TaskState → Bool
  | .ended => false
  | _ => true

/-- The goroutines `g.SetLimit` counts in phase 2. -/
def Load.busyTasks (s : Load) : Nat := s.tasks.countP (fun t => t.state.busy)

/-- `scanBatch`. -/
def scanBatch : Nat := 4096

/-- The rows of `codeSweep`. -/
def sweepRows (x : Chain) (missing : List Hash) : Except LoadErr (List LoadRow) :=
  missing.mapM (fun h =>
    match x.code h with
    | none => .error .codeSweep
    | some blob => .ok (.code h blob))

/-- A step of a run. -/
inductive Step (c : Config) (x : Chain) : Load → Option Event → Load → Prop
  | spawn {s : Load} {i : UInt8} {start : Option Bytes} (hphase : s.phase = .walking)
      (hseg : s.segs i = .queued start) (hlimit : s.busySegs < c.width) :
      Step c x s none
        { s with segs := Function.update s.segs i (.asking (start.getD (segStart i))) }
  | segment {s : Load} {i : UInt8} {out : Option Bundle} {w : SegWorker} {claims : List Hash}
      (hphase : s.phase = .walking) (hroom : out ≠ none → s.writes.length < c.width * 2)
      (hstep : SegStep c x i (s.segs i, s.claims) out (w, claims)) :
      Step c x s none
        { s with segs := Function.update s.segs i w, claims, writes := s.writes ++ out.toList }
  | take {s : Load} {b : Bundle} {rest : List Bundle} (hcur : s.cur = none)
      (hwrites : s.writes = b :: rest) :
      Step c x s none { s with cur := some b, writes := rest }
  | add {s : Load} {b : Bundle} {r : LoadRow} {rs : List LoadRow} (hcur : s.cur = some b)
      (hrows : b.apply = r :: rs) :
      Step c x s none { s.load r with cur := some { b with apply := rs } }
  | applied {s : Load} {b : Bundle} (hcur : s.cur = some b) (hrows : b.apply = [])
      (hbarrier : b.barrier = false) :
      Step c x s none { s.mark b.final with cur := none }
  | fenced {s : Load} {b : Bundle} (hphase : s.phase = .fencing) (hcur : s.cur = some b)
      (hrows : b.apply = []) (hbarrier : b.barrier = true) :
      Step c x s (some .walked) { (s.mark b.final).flush with cur := none, phase := .scanning none }
  | walked {s : Load} (hphase : s.phase = .walking) (hall : ∀ i, s.segs i = .ended) :
      Step c x s none { s with phase := .fence }
  | fence {s : Load} (hphase : s.phase = .fence) (hroom : s.writes.length < c.width * 2) :
      Step c x s none
        { s with phase := .fencing, writes := s.writes ++ [{ apply := [], barrier := true }] }
  | scanned {s : Load} {after : Option Hash} (hphase : s.phase = .scanning after)
      (hscan : storageQueueAfter s.db after scanBatch = .ok []) :
      Step c x s none { s with phase := .draining }
  | scan {s : Load} {after : Option Hash} {rows : List (Hash × Hash)} (hne : rows ≠ [])
      (hphase : s.phase = .scanning after)
      (hscan : storageQueueAfter s.db after scanBatch = .ok rows) :
      Step c x s none { s with phase := .spawning rows (rows.getLast hne).1 }
  | task {s : Load} {row : Hash × Hash} {left : List (Hash × Hash)} {last : Hash}
      (hphase : s.phase = .spawning (row :: left) last) (hlimit : s.busyTasks < c.width) :
      Step c x s none
        { s with phase := .spawning left last
                 tasks := s.tasks ++ [⟨row.1, row.2, .warming (.opening [] none)⟩] }
  | batch {s : Load} {last : Hash} (hphase : s.phase = .spawning [] last) :
      Step c x s none { s with phase := .scanning (some last) }
  | work {s : Load} {before after : List Task} {t : Task} {out : Option Bundle}
      {ev : Option Event} {st : TaskState} (hphase : s.phase.storage = true)
      (htasks : s.tasks = before ++ t :: after)
      (hroom : out ≠ none → s.writes.length < c.width * 2)
      (hstep : TaskStep c x s.db t.addrHash t.root t.state out ev st) :
      Step c x s ev
        { s with tasks := before ++ { t with state := st } :: after
                 writes := s.writes ++ out.toList }
  | drained {s : Load} (hphase : s.phase = .draining) (hall : ∀ t ∈ s.tasks, t.state = .ended) :
      Step c x s none { s with phase := .closed }
  | sweep {s : Load} {missing : List Hash} {rows : List LoadRow} (hphase : s.phase = .closed)
      (hcur : s.cur = none) (hwrites : s.writes = [])
      (hmissing : missingCodeHashes x.keccak s.flush.db = .ok missing)
      (hrows : sweepRows x missing = .ok rows) :
      Step c x s none { s.flush with phase := .sweeping rows }
  | swept {s : Load} {r : LoadRow} {rs : List LoadRow} (hphase : s.phase = .sweeping (r :: rs))
      (hcur : s.cur = none) (hwrites : s.writes = []) :
      Step c x s none { s.load r with phase := .sweeping rs }
  | finish {s : Load} {bl : Baseline} {db : Env} {h h' : Handle} (hphase : s.phase = .sweeping [])
      (hfinish : s.bl.finish true true s.db h = (.ok (), bl, db, h')) :
      Step c x s none { s with bl, db, phase := .returned }

/-- Part of one run: its steps, with what is remembered of them. -/
inductive Path (c : Config) (x : Chain) (s : Load) : List Event → Load → Prop
  | refl : Path c x s [] s
  | tail {s' s'' : Load} {es : List Event} {ev : Option Event} (hpath : Path c x s es s')
      (hstep : Step c x s' ev s'') : Path c x s (es ++ ev.toList) s''

/-- A store between two runs, or under a run. -/
inductive Site where
  | idle (db : Env)
  | running (s : Load)

/-- The committed rows. -/
def Site.db : Site → Env
  | .idle db => db
  | .running s => s.db

/-- Any number of runs over a fresh store, each cut off at any point, with what is remembered
of them.  The handle a run opens the store with may be a fresh one or have been used. -/
inductive Reached (c : Config) (x : Chain) : List Event → Site → Prop
  | fresh : Reached c x [] (.idle OrdMap.empty)
  | begin_ {es : List Event} {db : Env} {s : Load} (hreach : Reached c x es (.idle db))
      (h : Handle) (hbegin : beginRun c h db = .ok s) : Reached c x es (.running s)
  | step {es : List Event} {s s' : Load} {ev : Option Event}
      (hreach : Reached c x es (.running s)) (hstep : Step c x s ev s') :
      Reached c x (es ++ ev.toList) (.running s')
  | cut {es : List Event} {s : Load} (hreach : Reached c x es (.running s)) :
      Reached c x es (.idle s.db)

end Flatstate.Sync
