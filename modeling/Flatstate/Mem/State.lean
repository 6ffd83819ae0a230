import Flatstate.Store.Read

set_option autoImplicit false

/-!
# Mem: the live tip view (`mem/mem.go`)

A base map of lazily pinned finalized values, a stack of unfinalized layers, and
one side buffer per executor.  Reads go through the layers, the base, the side
buffer and the store at `Latest`, and record a miss in the side buffer only; the
write phases merge every registered buffer into the base before they change
anything.

A Go map is a function to `Option` here: presence encodes knowledge.  The order in
which the source ranges over a map is irrelevant, because every loop body touches
its own key only.
-/

namespace Flatstate.Mem

open Foundation Schema Capture Store

/-! ## The base map -/

/-- `Account`: a base-map entry. -/
structure Entry where
  balance : BitVec 256
  nonce : UInt64
  codeHash : Hash
  present : Bool
  storage : Hash → Option Hash

/-- The entry of an account that is known not to exist. -/
def Entry.absent : Entry where
  balance := 0
  nonce := 0
  codeHash := Hash.zero
  present := false
  storage _ := none

/-- `fromSchema`, with the storage it is to have. -/
def fromSchema (a : Account) (storage : Hash → Option Hash) : Entry where
  balance := a.balance
  nonce := a.nonce
  codeHash := a.codeHash
  present := true
  storage := storage

/-- `Account.ToSchema` and the `Exists` flag: what a read of the entry returns. -/
def Entry.toSchema (e : Entry) : Option Account :=
  if e.present then some ⟨e.balance, e.nonce, e.codeHash⟩ else none

/-- `Map`. -/
structure Map where
  accounts : Address → Option Entry
  code : Hash → Option Bytes

/-- `NewMap`. -/
def Map.new : Map := ⟨fun _ => none, fun _ => none⟩

/-- Set the entry of an address. -/
def Map.set (m : Map) (addr : Address) (e : Entry) : Map :=
  { m with accounts := Function.update m.accounts addr (some e) }

/-- The entry of a fetched account, with no storage known. -/
def Entry.ofFetched : Option Account → Entry
  | some a => fromSchema a (fun _ => none)
  | none => Entry.absent

/-- `Map.PinAccount`: the first pin wins; `none` pins nonexistence. -/
def Map.pinAccount (m : Map) (addr : Address) (acct : Option Account) : Map :=
  match m.accounts addr with
  | some _ => m
  | none => m.set addr (Entry.ofFetched acct)

/-- `Map.PinSlot`: the first pin wins.  The source panics when the account is not
pinned; its one caller checks that it is. -/
def Map.pinSlot (m : Map) (addr : Address) (slot val : Hash) : Map :=
  match m.accounts addr with
  | none => m
  | some e =>
    match e.storage slot with
    | some _ => m
    | none => m.set addr { e with storage := Function.update e.storage slot (some val) }

/-- `Map.PinCode`. -/
def Map.pinCode (m : Map) (hash : Hash) (c : Bytes) : Map :=
  match m.code hash with
  | some _ => m
  | none => { m with code := Function.update m.code hash (some c) }

/-- Overwrite a slot that is known. -/
def Entry.setKnown (e : Entry) (slot val : Hash) : Entry :=
  match e.storage slot with
  | some _ => { e with storage := Function.update e.storage slot (some val) }
  | none => e

/-- One op of `Map.Apply` on the entry of its address. -/
def Entry.applyOp (e : Entry) : Op → Entry
  | .account _ a => fromSchema a e.storage
  | .slot _ slot val => e.setKnown slot val
  | .deleteSlot _ slot => e.setKnown slot Hash.zero
  -- keep slot knowledge: post-destruct slots are zero
  | .destruct _ => { Entry.absent with storage := fun s => (e.storage s).map (fun _ => Hash.zero) }
  | .code _ _ => e

/-- One op of `Map.Apply`: nothing for an absent address, and nothing for code, which
is content-addressed and stays lazy. -/
def Map.applyOp (m : Map) (op : Op) : Map :=
  match op.addr? with
  | none => m
  | some addr =>
    match m.accounts addr with
    | none => m
    | some e => m.set addr (e.applyOp op)

/-- `Map.Apply`. -/
def Map.apply (m : Map) (b : Batch) : Map := b.ops.foldl Map.applyOp m

/-! ## Layers -/

/-- `layer`: one unfinalized block, compiled for lookup. -/
structure Layer where
  batch : Batch
  accounts : Address → Option Account
  slots : Address → Hash → Option Hash
  destructed : Address → Bool

/-- One op of `newLayer`. -/
def Layer.addOp (l : Layer) : Op → Layer
  | .account addr a => { l with accounts := Function.update l.accounts addr (some a) }
  | .slot addr s v =>
    { l with slots := Function.update l.slots addr (Function.update (l.slots addr) s (some v)) }
  | .deleteSlot addr s =>
    { l with slots := Function.update l.slots addr (Function.update (l.slots addr) s (some Hash.zero)) }
  | .destruct addr =>
    { l with
      destructed := Function.update l.destructed addr true
      accounts := Function.update l.accounts addr none
      slots := Function.update l.slots addr (fun _ => none) }
  | .code _ _ => l

/-- `newLayer`. -/
def newLayer (b : Batch) : Layer :=
  b.ops.foldl Layer.addOp ⟨b, fun _ => none, fun _ _ => none, fun _ => false⟩

/-- What a layer says about an account: its post-image, its destruction, or nothing. -/
def Layer.account (l : Layer) (addr : Address) : Option (Option Account) :=
  match l.accounts addr with
  | some a => some (some a)
  | none => if l.destructed addr then some none else none

/-- What a layer says about a slot. -/
def Layer.slot (l : Layer) (addr : Address) (s : Hash) : Option Hash :=
  match l.slots addr s with
  | some v => some v
  | none => if l.destructed addr then some Hash.zero else none

/-! ## Side buffers and the state -/

/-- `SideBuffer`: the pins of one executor's read phase. -/
structure SideBuffer where
  /-- the fetched account, or its nonexistence -/
  accounts : Address → Option (Option Account)
  slots : Address → Hash → Option Hash
  code : Hash → Option Bytes

/-- `NewSideBuffer`, and a cleared buffer. -/
def SideBuffer.new : SideBuffer := ⟨fun _ => none, fun _ _ => none, fun _ => none⟩

/-- `State`.  The layers are oldest first; a registered buffer is known by its
position. -/
structure State where
  base : Map
  layers : List Layer
  buffers : List SideBuffer
  finalized : UInt64
  /-- preferred tip hash, the staleness stamp of a batch -/
  tip : Hash
  /-- height of the newest applied block, 0 before the first -/
  tipBlock : UInt64
  /-- its timestamp, unix seconds -/
  tipTime : UInt64

/-- `New`, with the finalized watermark of the store if there is one. -/
def State.new (finalized : Option UInt64) : State where
  base := Map.new
  layers := []
  buffers := []
  finalized := finalized.getD 0
  tip := Hash.zero
  tipBlock := 0
  tipTime := 0

/-- `State.Register`. -/
def State.register (st : State) (sb : SideBuffer) : State :=
  { st with buffers := st.buffers ++ [sb] }

/-- The batches of the layers. -/
def State.batches (st : State) : List Batch := st.layers.map (·.batch)

/-! ## Read phase -/

/-- The newest layer that says something about an account. -/
def lookAccount (layers : List Layer) (addr : Address) : Option (Option Account) :=
  layers.reverse.findSome? (fun l => l.account addr)

/-- The newest layer that says something about a slot. -/
def lookSlot (layers : List Layer) (addr : Address) (s : Hash) : Option Hash :=
  layers.reverse.findSome? (fun l => l.slot addr s)

/-- The side buffer of executor `i`. -/
def State.buffer (st : State) (i : Nat) : SideBuffer := st.buffers.getD i SideBuffer.new

/-- Record an account in a side buffer. -/
def State.putAccount (st : State) (i : Nat) (addr : Address) (v : Option Account) : State :=
  { st with
    buffers := st.buffers.modify i
      (fun sb => { sb with accounts := Function.update sb.accounts addr (some v) }) }

/-- Record a slot in a side buffer. -/
def State.putSlot (st : State) (i : Nat) (addr : Address) (s v : Hash) : State :=
  { st with
    buffers := st.buffers.modify i
      (fun sb =>
        { sb with
          slots := Function.update sb.slots addr (Function.update (sb.slots addr) s (some v)) }) }

/-- Layers, base and side buffer: what is known of an account without the store. -/
def State.knownAccount (st : State) (i : Nat) (addr : Address) : Option (Option Account) :=
  match lookAccount st.layers addr with
  | some v => some v
  | none =>
    match st.base.accounts addr with
    | some e => some e.toSchema
    | none => (st.buffer i).accounts addr

/-- Layers, base and side buffer: what is known of a slot without the store.  A base
account that does not exist answers for all its slots. -/
def State.knownSlot (st : State) (i : Nat) (addr : Address) (s : Hash) : Option Hash :=
  match lookSlot st.layers addr s with
  | some v => some v
  | none =>
    match st.base.accounts addr with
    | some e =>
      if e.present then
        match e.storage s with
        | some v => some v
        | none => (st.buffer i).slots addr s
      else some Hash.zero
    | none => (st.buffer i).slots addr s

section
variable (keccak : Bytes → Hash) (h : Handle)

/-- `State.Account`: the result and the state with the pin. -/
def State.account (env : Env) (st : State) (i : Nat) (addr : Address) :
    Except Err (Option Account) × State :=
  match st.knownAccount i addr with
  | some v => (.ok v, st)
  | none =>
    match getAccount keccak h env addr Latest with
    | .error e => (.error e, st)
    | .ok v => (.ok v, st.putAccount i addr v)

/-- `State.Slot` up to its first store read: the value, and whether the account has
to be fetched too (a slot pin needs its account pinned). -/
def State.slotFetch (env : Env) (st : State) (i : Nat) (addr : Address) (s : Hash) :
    Except Err (Hash × Bool) × State :=
  match st.knownSlot i addr s with
  | some v => (.ok (v, false), st)
  | none =>
    match getSlot keccak h env addr s Latest with
    | .error e => (.error e, st)
    | .ok v =>
      let needed := (st.base.accounts addr).isNone && ((st.buffer i).accounts addr).isNone
      (.ok (v, needed), st.putSlot i addr s v)

/-- The second store read of `State.Slot`. -/
def State.accountFetch (env : Env) (st : State) (i : Nat) (addr : Address) :
    Except Err Unit × State :=
  match getAccount keccak h env addr Latest with
  | .error e => (.error e, st)
  | .ok v => (.ok (), st.putAccount i addr v)

/-- `State.Slot`.  The store may commit between its two reads, which see `env` and
`env'`. -/
def State.slot (env env' : Env) (st : State) (i : Nat) (addr : Address) (s : Hash) :
    Except Err Hash × State :=
  match st.slotFetch keccak h env i addr s with
  | (.error e, st) => (.error e, st)
  | (.ok (v, false), st) => (.ok v, st)
  | (.ok (v, true), st) =>
    match st.accountFetch keccak h env' i addr with
    | (.error e, st) => (.error e, st)
    | (.ok (), st) => (.ok v, st)

end

/-- `State.Code`. -/
def State.codeOf (env : Env) (st : State) (i : Nat) (hash : Hash) : Except Err Bytes × State :=
  match st.base.code hash with
  | some c => (.ok c, st)
  | none =>
    match (st.buffer i).code hash with
    | some c => (.ok c, st)
    | none =>
      match getCode env hash with
      | .error e => (.error e, st)
      | .ok c =>
        (.ok c, { st with
          buffers := st.buffers.modify i
            (fun sb => { sb with code := Function.update sb.code hash (some c) }) })

/-! ## Write phase -/

/-- The accounts of a buffer, pinned. -/
def Map.drainAccounts (m : Map) (sb : SideBuffer) : Map :=
  { m with
    accounts := fun a =>
      match sb.accounts a with
      | some v => (m.pinAccount a v).accounts a
      | none => m.accounts a }

/-- The slots of a buffer, pinned under the accounts that are. -/
def Map.drainSlots (m : Map) (sb : SideBuffer) : Map :=
  { m with
    accounts := fun a =>
      (m.accounts a).map (fun e =>
        { e with
          storage := fun s =>
            match sb.slots a s with
            | some v => ((m.pinSlot a s v).accounts a).bind (·.storage s)
            | none => e.storage s }) }

/-- The codes of a buffer, pinned. -/
def Map.drainCode (m : Map) (sb : SideBuffer) : Map :=
  { m with
    code := fun c =>
      match sb.code c with
      | some v => (m.pinCode c v).code c
      | none => m.code c }

/-- One buffer of `lockAndDrain`. -/
def Map.drain (m : Map) (sb : SideBuffer) : Map :=
  ((m.drainAccounts sb).drainSlots sb).drainCode sb

/-- `State.lockAndDrain`: merge every registered buffer into the base and clear it. -/
def State.lockAndDrain (st : State) : State :=
  { st with
    base := st.buffers.foldl Map.drain st.base
    buffers := st.buffers.map (fun _ => SideBuffer.new) }

/-- Push one layer and move the tip. -/
def State.push (st : State) (b : Batch) : State :=
  { st with
    layers := st.layers ++ [newLayer b]
    tip := b.hash
    tipBlock := b.block
    tipTime := b.time / 1000 }

/-- `State.ApplyBlock`. -/
def State.applyBlock (st : State) (b : Batch) : State := st.lockAndDrain.push b

/-- What `State.Finalize` fails with. -/
inductive FinalizeErr where
  /-- "mem: finalize %d does not match oldest unfinalized layer" -/
  | notOldest (block : UInt64)
  /-- "mem: finalize %d hash mismatch" -/
  | hashMismatch (block : UInt64)
  deriving DecidableEq

/-- `State.Finalize`: fold the oldest layer into the base, cached keys only.  The
buffers are merged in any case. -/
def State.finalize (st : State) (block : UInt64) (hash : Hash) : Except FinalizeErr Unit × State :=
  let st := st.lockAndDrain
  match st.layers with
  | [] => (.error (.notOldest block), st)
  | l :: rest =>
    if l.batch.block ≠ block then (.error (.notOldest block), st)
    else if l.batch.hash ≠ hash then (.error (.hashMismatch block), st)
    else
      (.ok (), { st with
        base := st.base.apply l.batch
        layers := rest
        finalized := block
        tip := if rest.isEmpty then hash else st.tip })

/-- `State.PreferenceReset`: drop all layers and rebuild them, oldest first. -/
def State.preferenceReset (st : State) (preferred : List Batch) : State :=
  preferred.foldl State.push { st.lockAndDrain with layers := [] }

end Flatstate.Mem
