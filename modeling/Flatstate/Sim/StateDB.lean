import Flatstate.Foundation.Journal
import Flatstate.Schema.Types
import Mathlib.Logic.Function.Basic

set_option autoImplicit false

/-!
# Sim: the overlay of a simulated call (`sim/statedb.go`)

The journaled overlay over the engine's view: balances and storage, and the cold maps of
simulations that create contracts.  Reads fall through to the view; its first read error is
recorded.  Every mutation appends journal entries, and `RevertToSnapshot` undoes them from
the end down to a length of the journal.
-/

namespace Flatstate.Sim

open Foundation Schema

/-- `skey`. -/
abbrev SKey := Address × Hash

/-- `normSlot`: bit 0 of the first byte is cleared. -/
def normSlot (slot : Hash) : Hash :=
  ⟨slot.1.modifyHead (· &&& 0xfe), by rw [List.length_modifyHead, slot.2]⟩

/-- What the overlay reads of an `engine.View` during one call; the account comes with
whether it exists. -/
structure View (E : Type) where
  account : Address → Except E (Account × Bool)
  balance : Address → Except E (BitVec 256)
  slot : Address → Hash → Except E Hash
  code : Hash → Except E Bytes

/-- The overrides of a `Call`, in the order the maps are ranged over. -/
structure Call where
  balanceOverrides : List (Address × BitVec 256)
  storageOverrides : List (Address × List (Hash × Hash))

/-- What the executor reports instead of the result. -/
inductive ReadErr (E : Type) where
  | view (e : E)
  /-- "sim: refund counter underflow" -/
  | refundUnderflow
  deriving DecidableEq

/-- `jentry`, by its kind; an absent previous value is `had = false`. -/
inductive JEntry where
  | balance (addr : Address) (prev : Option (BitVec 256))
  | storage (addr : Address) (slot : Hash) (prev : Option Hash)
  | nonce (addr : Address) (prev : Option UInt64)
  | code (addr : Address)
  | refund (prev : UInt64)
  | log
  | destruct (addr : Address)
  | created (addr : Address)
  | transient (addr : Address) (slot : Hash) (prev : Option Hash)
  | alAddr (addr : Address)
  | alSlot (addr : Address) (slot : Hash)
  deriving DecidableEq

/-- `stateDB`. -/
structure StateDB (E Log : Type) where
  balances : Address → Option (BitVec 256)
  /-- normalized keys -/
  slots : SKey → Option Hash
  /-- caller storage overrides, normalized keys -/
  ovSlots : SKey → Option Hash
  nonces : Address → Option UInt64
  codes : Address → Option Bytes
  codeHashes : Address → Option Hash
  created : Address → Bool
  destructed : Address → Bool
  transient : SKey → Option Hash
  /-- access list; no slot map means the address only -/
  al : Address → Option (Option (Hash → Bool))
  refund : UInt64
  logs : List Log
  journal : List JEntry
  readErr : Option (ReadErr E)

namespace StateDB

variable {E Log : Type}

/-- `newStateDB`, and the cleared maps of `reset`. -/
def new : StateDB E Log where
  balances _ := none
  slots _ := none
  ovSlots _ := none
  nonces _ := none
  codes _ := none
  codeHashes _ := none
  created _ := false
  destructed _ := false
  transient _ := none
  al _ := none
  refund := 0
  logs := []
  journal := []
  readErr := none

/-- Seed a storage override. -/
def seedSlot (s : StateDB E Log) (addr : Address) (slot val : Hash) : StateDB E Log :=
  { s with
    slots := Function.update s.slots (addr, normSlot slot) (some val)
    ovSlots := Function.update s.ovSlots (addr, normSlot slot) (some val) }

/-- `reset`: whatever the last call left is cleared, and the overrides are seeded without a
journal entry, so that a revert never unwinds them. -/
def reset (_ : StateDB E Log) (c : Call) : StateDB E Log :=
  let s := c.balanceOverrides.foldl
    (fun s o => { s with balances := Function.update s.balances o.1 (some o.2) }) new
  c.storageOverrides.foldl
    (fun s o => o.2.foldl (fun s kv => s.seedSlot o.1 kv.1 kv.2) s) s

/-- `fail`: the first error is kept. -/
def fail (s : StateDB E Log) (e : ReadErr E) : StateDB E Log :=
  match s.readErr with
  | some _ => s
  | none => { s with readErr := some e }

/-! ## Reads -/

section Reads

variable (v : View E) (s : StateDB E Log)

/-- `account`. -/
def account (addr : Address) : (Account × Bool) × StateDB E Log :=
  match v.account addr with
  | .error e => ((Account.zero, false), s.fail (.view e))
  | .ok a => (a, s)

/-- `balance`, and `GetBalance`. -/
def balance (addr : Address) : BitVec 256 × StateDB E Log :=
  match s.balances addr with
  | some b => (b, s)
  | none =>
    match v.balance addr with
    | .error e => (0, s.fail (.view e))
    | .ok b => (b, s)

/-- `GetNonce`. -/
def getNonce (addr : Address) : UInt64 × StateDB E Log :=
  match s.nonces addr with
  | some n => (n, s)
  | none => ((s.account v addr).1.1.nonce, (s.account v addr).2)

/-- `GetCodeHash`; `keccak []` is `types.EmptyCodeHash`. -/
def getCodeHash (keccak : Bytes → Hash) (addr : Address) : Hash × StateDB E Log :=
  match s.codeHashes addr with
  | some h => (h, s)
  | none =>
    match s.account v addr with
    | ((a, present), s) =>
      if !present then (Hash.zero, s)
      else if a.codeHash = Hash.zero then (keccak [], s)
      else (a.codeHash, s)

/-- `GetCode`; the length of its result is `GetCodeSize`. -/
def getCode (keccak : Bytes → Hash) (addr : Address) : Bytes × StateDB E Log :=
  match s.codes addr with
  | some c => (c, s)
  | none =>
    match s.getCodeHash v keccak addr with
    | (h, s) =>
      if h = Hash.zero ∨ h = keccak [] then ([], s)
      else
        match v.code h with
        | .error e => ([], s.fail (.view e))
        | .ok c => (c, s)

/-- A slot of a storage overlay, or of the view. -/
def slotOf (ov : SKey → Option Hash) (addr : Address) (slot : Hash) : Hash × StateDB E Log :=
  match ov (addr, normSlot slot) with
  | some x => (x, s)
  | none =>
    match v.slot addr (normSlot slot) with
    | .error e => (Hash.zero, s.fail (.view e))
    | .ok x => (x, s)

/-- `GetState`. -/
def getState (addr : Address) (slot : Hash) : Hash × StateDB E Log := s.slotOf v s.slots addr slot

/-- `GetCommittedState`: writes made during the call are not visible. -/
def getCommittedState (addr : Address) (slot : Hash) : Hash × StateDB E Log :=
  s.slotOf v s.ovSlots addr slot

/-- `GetTransientState`, under the key as it is. -/
def getTransientState (addr : Address) (slot : Hash) : Hash :=
  (s.transient (addr, slot)).getD Hash.zero

/-- `HasSelfDestructed`. -/
def hasSelfDestructed (addr : Address) : Bool := s.destructed addr

/-- `Exist`. -/
def exist (addr : Address) : Bool × StateDB E Log :=
  if s.created addr || s.destructed addr || (s.balances addr).isSome || (s.nonces addr).isSome then
    (true, s)
  else ((s.account v addr).1.2, (s.account v addr).2)

/-- `Empty`. -/
def empty (keccak : Bytes → Hash) (addr : Address) : Bool × StateDB E Log :=
  match s.getNonce v addr with
  | (n, s) =>
    if n ≠ 0 then (false, s)
    else
      match s.balance v addr with
      | (b, s) =>
        if b ≠ 0 then (false, s)
        else
          match s.getCodeHash v keccak addr with
          | (h, s) => (decide (h = Hash.zero ∨ h = keccak []), s)

/-- `GetRefund`. -/
def getRefund : UInt64 := s.refund

/-- `AddressInAccessList`. -/
def addressInAccessList (addr : Address) : Bool := (s.al addr).isSome

/-- `SlotInAccessList`. -/
def slotInAccessList (addr : Address) (slot : Hash) : Bool × Bool :=
  match s.al addr with
  | none => (false, false)
  | some none => (true, false)
  | some (some m) => (true, m slot)

end Reads

/-! ## Mutations -/

section Mutations

variable (s : StateDB E Log)

/-- Append a journal entry. -/
def logged (e : JEntry) : StateDB E Log := { s with journal := s.journal ++ [e] }

/-- `setBalance`. -/
def setBalance (addr : Address) (b : BitVec 256) : StateDB E Log :=
  { s.logged (.balance addr (s.balances addr)) with
    balances := Function.update s.balances addr (some b) }

/-- `AddBalance`. -/
def addBalance (v : View E) (addr : Address) (amount : BitVec 256) : StateDB E Log :=
  (s.balance v addr).2.setBalance addr ((s.balance v addr).1 + amount)

/-- `SubBalance`. -/
def subBalance (v : View E) (addr : Address) (amount : BitVec 256) : StateDB E Log :=
  (s.balance v addr).2.setBalance addr ((s.balance v addr).1 - amount)

/-- `SetNonce`. -/
def setNonce (addr : Address) (n : UInt64) : StateDB E Log :=
  { s.logged (.nonce addr (s.nonces addr)) with nonces := Function.update s.nonces addr (some n) }

/-- `SetCode`. -/
def setCode (keccak : Bytes → Hash) (addr : Address) (code : Bytes) : StateDB E Log :=
  { s.logged (.code addr) with
    codes := Function.update s.codes addr (some code)
    codeHashes := Function.update s.codeHashes addr (some (keccak code)) }

/-- `SetState`. -/
def setState (addr : Address) (slot val : Hash) : StateDB E Log :=
  { s.logged (.storage addr (normSlot slot) (s.slots (addr, normSlot slot))) with
    slots := Function.update s.slots (addr, normSlot slot) (some val) }

/-- `SetTransientState`. -/
def setTransientState (addr : Address) (slot val : Hash) : StateDB E Log :=
  { s.logged (.transient addr slot (s.transient (addr, slot))) with
    transient := Function.update s.transient (addr, slot) (some val) }

/-- `CreateAccount`. -/
def createAccount (addr : Address) : StateDB E Log :=
  if s.created addr then s
  else { s.logged (.created addr) with created := Function.update s.created addr true }

/-- Mark an address as destructed, once. -/
def markDestructed (addr : Address) : StateDB E Log :=
  if s.destructed addr then s
  else { s.logged (.destruct addr) with destructed := Function.update s.destructed addr true }

/-- `SelfDestruct`. -/
def selfDestruct (addr : Address) : StateDB E Log := (s.markDestructed addr).setBalance addr 0

/-- `Selfdestruct6780`. -/
def selfdestruct6780 (addr : Address) : StateDB E Log :=
  if s.created addr then s.selfDestruct addr else s

/-- `AddRefund`; the counter wraps. -/
def addRefund (gas : UInt64) : StateDB E Log :=
  { s.logged (.refund s.refund) with refund := s.refund + gas }

/-- `SubRefund`: an underflow is logged before it fails. -/
def subRefund (gas : UInt64) : StateDB E Log :=
  if s.refund < gas then (s.logged (.refund s.refund)).fail .refundUnderflow
  else { s.logged (.refund s.refund) with refund := s.refund - gas }

/-- `AddLog`. -/
def addLog (l : Log) : StateDB E Log := { s.logged .log with logs := s.logs ++ [l] }

/-- `AddAddressToAccessList`. -/
def addAddressToAccessList (addr : Address) : StateDB E Log :=
  match s.al addr with
  | some _ => s
  | none => { s.logged (.alAddr addr) with al := Function.update s.al addr (some none) }

/-- The address with a slot map: a new address is logged, a map made for an address that was
there without one is not. -/
def withSlotMap (addr : Address) : StateDB E Log :=
  match s.al addr with
  | none =>
    { s.logged (.alAddr addr) with al := Function.update s.al addr (some (some fun _ => false)) }
  | some none => { s with al := Function.update s.al addr (some (some fun _ => false)) }
  | some (some _) => s

/-- `AddSlotToAccessList`. -/
def addSlotToAccessList (addr : Address) (slot : Hash) : StateDB E Log :=
  let s := s.withSlotMap addr
  if (s.slotInAccessList addr slot).2 then s
  else
    { s.logged (.alSlot addr slot) with
      al := Function.update s.al addr
        ((s.al addr).map fun m => some (Function.update (m.getD fun _ => false) slot true)) }

/-- The parts of `params.Rules` that `Prepare` reads. -/
structure Rules where
  isBerlin : Bool
  isShanghai : Bool

/-- `Prepare`: the addresses and slots of the warm-up set. -/
def prepare (rules : Rules) (sender coinbase : Address) (dst : Option Address)
    (precompiles : List Address) (list : List (Address × List Hash)) : StateDB E Log :=
  if rules.isBerlin then
    let s := s.addAddressToAccessList sender
    let s := dst.toList.foldl addAddressToAccessList s
    let s := precompiles.foldl addAddressToAccessList s
    let s := list.foldl (fun s el =>
      el.2.foldl (fun s key => s.addSlotToAccessList el.1 key) (s.addAddressToAccessList el.1)) s
    if rules.isShanghai then s.addAddressToAccessList coinbase else s
  else s

end Mutations

/-! ## Snapshots -/

/-- `Snapshot`. -/
def snapshot (s : StateDB E Log) : Nat := s.journal.length

/-- Undo one entry. -/
def undo : JEntry → StateDB E Log → StateDB E Log
  | .balance addr prev, s => { s with balances := Function.update s.balances addr prev }
  | .storage addr slot prev, s => { s with slots := Function.update s.slots (addr, slot) prev }
  | .nonce addr prev, s => { s with nonces := Function.update s.nonces addr prev }
  | .code addr, s =>
    { s with
      codes := Function.update s.codes addr none
      codeHashes := Function.update s.codeHashes addr none }
  | .refund prev, s => { s with refund := prev }
  | .log, s => { s with logs := s.logs.dropLast }
  | .destruct addr, s => { s with destructed := Function.update s.destructed addr false }
  | .created addr, s => { s with created := Function.update s.created addr false }
  | .transient addr slot prev, s =>
    { s with transient := Function.update s.transient (addr, slot) prev }
  | .alAddr addr, s => { s with al := Function.update s.al addr none }
  | .alSlot addr slot, s =>
    { s with
      al := Function.update s.al addr
        ((s.al addr).map fun m => m.map fun f => Function.update f slot false) }

/-- `RevertToSnapshot`. -/
def revertToSnapshot (s : StateDB E Log) (rev : Nat) : StateDB E Log :=
  { (s.journal.drop rev).foldr undo s with journal := s.journal.take rev }

end StateDB

end Flatstate.Sim
