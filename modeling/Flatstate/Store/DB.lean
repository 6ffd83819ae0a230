import Flatstate.Foundation.OrdMap
import Flatstate.Capture.Codec

set_option autoImplicit false

/-!
# Store: the main environment and its writers (`store/store.go`)

LMDB is a byte-ordered map; a write transaction is a function on it, and a read
transaction sees one value of it.  What a `DB` handle keeps besides the
environment are two caches, `genesisPlus1` and `baselineDone`.

A transaction may fail as a whole (map full, I/O error).  Where the source
carries on after a failed transaction the model takes the outcome as an argument.
-/

namespace Flatstate.Store

open Foundation Schema Capture

/-- The main environment. -/
abbrev Env := OrdMap Bytes Bytes

/-- What the store's functions fail with. -/
inductive Err where
  /-- "store: history genesis not set (no baseline started)" -/
  | noGenesis
  /-- "store: read below history genesis S: block %d < S %d" -/
  | belowGenesis (block s : UInt64)
  /-- "store: baseline incomplete, key not yet covered" -/
  | baselineIncomplete
  /-- "store: destruct edge the store cannot answer: slot write and destruct at
  block %d without recreation" -/
  | destructEdge (block : UInt64)
  /-- "store: not found: code %x" -/
  | codeNotFound (hash : Hash)
  /-- "store: not found: diff for block %d" -/
  | diffNotFound (block : UInt64)
  /-- "store: meta %x has %d bytes, want 8" -/
  | metaSize (key : Bytes) (n : Nat)
  /-- an account row of the wrong length (`schema.DecodeAccount`) -/
  | accountSize (n : Nat)
  /-- "store: slot row has %d bytes, want 32" -/
  | slotSize (n : Nat)
  /-- "store: baseline slot row has %d bytes, want 32" -/
  | baseSlotSize (n : Nat)
  /-- "store: storage queue row %x has %d-byte value" -/
  | queueSize (key : Bytes) (n : Nat)
  /-- the diff row does not decode (`capture.Decode`) -/
  | badDiff (e : DecodeErr)
  /-- "store: genesis already set to %d, cannot baseline at %d" -/
  | genesisConflict (cur s : UInt64)
  /-- "store: baseline finish with pending storage queue rows (first %x)" -/
  | queuePending (key : Bytes)
  /-- the LMDB transaction failed -/
  | txn
  deriving DecidableEq

/-! ## Handles and meta rows -/

/-- The caches of a handle. -/
structure Handle where
  /-- cached genesis plus one; 0 = not yet observed -/
  genesisPlus1 : UInt64 := 0
  /-- cached baseline-complete flag -/
  baselineDone : Bool := false
  deriving DecidableEq

/-- `beBytes`. -/
def beBytes (v : UInt64) : Bytes := beEncode 8 v.toNat

/-- `beU64`. -/
def beU64 (b : Bytes) : UInt64 := UInt64.ofNat (beDecode b)

/-- `DB.putMeta`. -/
def putMeta (env : Env) (key val : Bytes) : Env := env.put key val

/-- `getMetaU64`. -/
def getMetaU64 (env : Env) (key : Bytes) : Except Err (Option UInt64) :=
  match env.get key with
  | none => .ok none
  | some v => if v.length ≠ 8 then .error (.metaSize key v.length) else .ok (some (beU64 v))

/-- `DB.Genesis`, and the handle afterwards. -/
def genesis (h : Handle) (env : Env) : Except Err (Option UInt64) × Handle :=
  if h.genesisPlus1 ≠ 0 then (.ok (some (h.genesisPlus1 - 1)), h)
  else
    match getMetaU64 env metaGenesis with
    | .ok (some s) => (.ok (some s), { h with genesisPlus1 := s + 1 })
    | r => (r, h)

/-- `DB.BaselineComplete`, and the handle afterwards. -/
def baselineComplete (h : Handle) (env : Env) : Bool × Handle :=
  if h.baselineDone then (true, h)
  else if (env.get metaBaselineComplete).isSome then (true, { h with baselineDone := true })
  else (false, h)

/-- `DB.Finalized`. -/
def finalized (env : Env) : Except Err (Option UInt64) := getMetaU64 env metaFinalized

/-- `DB.SetFinalized`. -/
def setFinalized (env : Env) (h : UInt64) : Env := putMeta env metaFinalized (beBytes h)

/-! ## The per-block write -/

/-- The put of one op. -/
def putOp (block : UInt64) (env : Env) : Op → Env
  | .account a acct => env.put (appendAccountKey [] a block) (encodeAccount [] acct)
  | .slot a s v => env.put (appendSlotKey [] a s block) v.1
  -- tombstone: the post-image of a cleared slot is zero
  | .deleteSlot a s => env.put (appendSlotKey [] a s block) (List.replicate 32 0)
  | .destruct a => env.put (appendDestructKey [] a block) []
  | .code h c => env.put (appendCodeKey [] h) c

/-- The history rows of a block. -/
def putOps (block : UInt64) (ops : List Op) (env : Env) : Env := ops.foldl (putOp block) env

/-- `DB.WriteBlock`: history rows for every op plus the diff row, in one
transaction. -/
def writeBlock (env : Env) (b : Batch) : Env :=
  (putOps b.block b.ops env).put (appendDiffKey [] b.block) (b.encode [])

/-! ## The baseline bulk load -/

/-- Rows per write transaction. -/
def baselineChunk : Nat := 2 ^ 16

/-- A buffered put, or a deletion. -/
structure BlOp where
  key : Bytes
  val : Option Bytes
  deriving DecidableEq

/-- The bulk-load path at height `s`. -/
structure Baseline where
  s : UInt64
  ops : List BlOp
  /-- written with the next flush transaction, then cleared -/
  progress : Option Bytes
  deriving DecidableEq

/-- `DB.NewBaseline`: record the genesis at once, unless it is there.  The result
is the loader, the environment and the handle. -/
def newBaseline (h : Handle) (env : Env) (s : UInt64) : Except Err (Baseline × Env × Handle) :=
  match genesis h env with
  | (.error e, _) => .error e
  | (.ok (some cur), h) =>
    if cur ≠ s then .error (.genesisConflict cur s) else .ok (⟨s, [], none⟩, env, h)
  | (.ok none, h) =>
    .ok (⟨s, [], none⟩, putMeta env metaGenesis (beBytes s), { h with genesisPlus1 := s + 1 })

/-- One buffered op inside the flush transaction. -/
def BlOp.run (env : Env) (op : BlOp) : Env :=
  match op.val with
  | none => env.del op.key
  | some v => env.put op.key v

/-- The environment a flush transaction commits. -/
def Baseline.flushed (bl : Baseline) (env : Env) : Env :=
  let env := bl.ops.foldl BlOp.run env
  match bl.progress with
  | none => env
  | some p => env.put metaBaselineProgress p

/-- `Baseline.Flush`: commit the buffered ops and any pending progress cursor.
`ok` says whether the transaction commits; a failed one drops the buffered ops and
keeps the cursor. -/
def Baseline.flush (ok : Bool) (bl : Baseline) (env : Env) : Except Err Unit × Baseline × Env :=
  if bl.ops = [] ∧ bl.progress = none then (.ok (), bl, env)
  else if ok then (.ok (), { bl with ops := [], progress := none }, bl.flushed env)
  else (.error .txn, { bl with ops := [] }, env)

/-- `Baseline.add` and `Baseline.addDel`: buffer one op, flush a full chunk. -/
def Baseline.add (ok : Bool) (bl : Baseline) (env : Env) (op : BlOp) :
    Except Err Unit × Baseline × Env :=
  let bl := { bl with ops := bl.ops ++ [op] }
  if bl.ops.length ≥ baselineChunk then bl.flush ok env else (.ok (), bl, env)

/-- `Baseline.SetProgress`. -/
def Baseline.setProgress (bl : Baseline) (p : Bytes) : Baseline := { bl with progress := some p }

/-- `bl.progress = nil`. -/
def Baseline.clearProgress (bl : Baseline) : Baseline := { bl with progress := none }

/-- The rows a loader adds. -/
inductive LoadRow where
  | account (addr : Address) (a : Account)
  | slot (addr : Address) (key : Hash) (val : Hash)
  | code (hash : Hash) (code : Bytes)
  | baseAccount (addrHash : Hash) (a : Account)
  | baseSlot (addrHash slotHash : Hash) (val : Hash)
  | queueStorage (addrHash : Hash) (root : Hash)
  | dequeueStorage (addrHash : Hash)
  deriving DecidableEq

/-- `Baseline.Account`, `Slot`, `Code`, `BaseAccount`, `BaseSlot`, `QueueStorage`
and `DequeueStorage`: the op each one buffers. -/
def LoadRow.op (s : UInt64) : LoadRow → BlOp
  | .account addr a => ⟨appendAccountKey [] addr s, some (encodeAccount [] a)⟩
  | .slot addr key val => ⟨appendSlotKey [] addr key s, some val.1⟩
  | .code hash c => ⟨appendCodeKey [] hash, some c⟩
  | .baseAccount addrHash a => ⟨appendBaseAccountKey [] addrHash, some (encodeAccount [] a)⟩
  | .baseSlot addrHash slotHash val => ⟨appendBaseSlotKey [] addrHash slotHash, some val.1⟩
  | .queueStorage addrHash root => ⟨appendStorageQueueKey [] addrHash, some root.1⟩
  | .dequeueStorage addrHash => ⟨appendStorageQueueKey [] addrHash, none⟩

/-- Add one row. -/
def Baseline.load (ok : Bool) (bl : Baseline) (env : Env) (r : LoadRow) :
    Except Err Unit × Baseline × Env :=
  bl.add ok env (r.op bl.s)

/-- `DB.PutBaseAccount`. -/
def putBaseAccount (env : Env) (addrHash : Hash) (a : Account) : Env :=
  env.put (appendBaseAccountKey [] addrHash) (encodeAccount [] a)

/-- `DB.PutBaseSlot`. -/
def putBaseSlot (env : Env) (addrHash slotHash val : Hash) : Env :=
  env.put (appendBaseSlotKey [] addrHash slotHash) val.1

/-- The first key of the storage queue, if there is one. -/
def firstQueued (env : Env) : Option Bytes :=
  match env.setRange [prefStorageQueue] with
  | some (k, _) => if k.head? = some prefStorageQueue then some k else none
  | none => none

/-- `Baseline.Finish`: flush, clear the progress cursor and set the watermark;
refused while a storage-queue row is pending.  `okFlush` and `okMark` say whether
the two transactions commit. -/
def Baseline.finish (okFlush okMark : Bool) (bl : Baseline) (env : Env) (h : Handle) :
    Except Err Unit × Baseline × Env × Handle :=
  match bl.clearProgress.flush okFlush env with
  | (.error e, bl, env) => (.error e, bl, env, h)
  | (.ok (), bl, env) =>
    match firstQueued env with
    | some k => (.error (.queuePending k), bl, env, h)
    | none =>
      if okMark then
        (.ok (), bl, (env.del metaBaselineProgress).put metaBaselineComplete [1],
          { h with baselineDone := true })
      else (.error .txn, bl, env, h)

end Flatstate.Store
