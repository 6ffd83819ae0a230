import Flatstate.Store.DB

set_option autoImplicit false

/-!
# Store: reads at a height (`store/read.go`)

A read at a height combines greatest-at-or-before seeks on the account, slot and
destruct histories with a probe of the hash-keyed baseline.  `Keccak` is a
parameter.

One call takes up to three read transactions: the genesis check, the read itself
and, when nothing was found, the baseline-complete check.  Each has a snapshot of
its own, `e0`, `e1` and `e2`; a call on a quiet store has all three equal.
-/

namespace Flatstate.Store

open Foundation Schema Capture

/-- `Latest`: the height that reads the newest committed value. -/
def Latest : UInt64 := 0xffffffffffffffff

/-- `seekLE`: the greatest write at or before the block encoded in `seekKey`,
which ends in `^block`.  The row's block and its raw value. -/
def seekLE (env : Env) (seekKey : Bytes) : Option (UInt64 × Bytes) :=
  let prefixLen := seekKey.length - 8
  match env.setRange seekKey with
  | none => none
  | some (k, v) =>
    if k.length ≠ seekKey.length ∨ k.take prefixLen ≠ seekKey.take prefixLen then none
    else some (decodeInvBlock (k.drop prefixLen), v)

/-- `DB.checkAt`. -/
def checkAt (h : Handle) (e0 : Env) (at_ : UInt64) : Except Err Unit :=
  match (genesis h e0).1 with
  | .error e => .error e
  | .ok none => .error .noGenesis
  | .ok (some s) => if at_ < s then .error (.belowGenesis at_ s) else .ok ()

/-- `DB.missAllowed`. -/
def missAllowed (h : Handle) (e2 : Env) : Except Err Unit :=
  if (baselineComplete h e2).1 then .ok () else .error .baselineIncomplete

/-- Decode an account row. -/
def accountRow (raw : Bytes) : Except Err (Option Account) :=
  match decodeAccount raw with
  | .ok acct => .ok (some acct)
  | .error n => .error (.accountSize n)

/-- Copy a 32-byte row out; `e` is what another length fails with. -/
def slotRow (e : Nat → Err) (raw : Bytes) : Except Err Hash :=
  if h : raw.length = 32 then .ok ⟨raw, h⟩ else .error (e raw.length)

section
variable (keccak : Bytes → Hash)

/-- `DB.GetAccount`, on the three snapshots of the call; `none` means that the
account does not exist at that height. -/
def getAccountAt (h : Handle) (e0 e1 e2 : Env) (addr : Address) (at_ : UInt64) :
    Except Err (Option Account) :=
  match checkAt h e0 at_ with
  | .error e => .error e
  | .ok () =>
    match seekLE e1 (appendAccountKey [] addr at_), seekLE e1 (appendDestructKey [] addr at_) with
    | some (_, raw), none => accountRow raw
    -- `dh = hb` is destruct-then-recreate in one block
    | some (hb, raw), some (dh, _) => if dh ≤ hb then accountRow raw else .ok none
    | none, some _ => .ok none
    | none, none =>
      match e1.get (appendBaseAccountKey [] (keccak addr.1)) with
      | some raw => accountRow raw
      | none =>
        match missAllowed h e2 with
        | .error e => .error e
        | .ok () => .ok none

/-- `DB.GetSlot`, on the three snapshots of the call. -/
def getSlotAt (h : Handle) (e0 e1 e2 : Env) (addr : Address) (slot : Hash) (at_ : UInt64) :
    Except Err Hash :=
  match checkAt h e0 at_ with
  | .error e => .error e
  | .ok () =>
    match seekLE e1 (appendSlotKey [] addr slot at_), seekLE e1 (appendDestructKey [] addr at_) with
    -- a destruct wiped the storage, that of the baseline too
    | none, some _ => .ok Hash.zero
    | none, none =>
      match e1.get (appendBaseSlotKey [] (keccak addr.1) (keccak slot.1)) with
      | some raw => slotRow .baseSlotSize raw
      | none =>
        match missAllowed h e2 with
        | .error e => .error e
        | .ok () => .ok Hash.zero
    | some (_, raw), none => slotRow .slotSize raw
    | some (hb, raw), some (dh, _) =>
      if dh > hb then .ok Hash.zero
      else if dh = hb then
        -- only valid when the account was recreated in that block
        match seekLE e1 (appendAccountKey [] addr dh) with
        | some (ah, _) =>
          if ah ≠ dh then .error (.destructEdge dh) else slotRow .slotSize raw
        | none => .error (.destructEdge dh)
      else slotRow .slotSize raw

/-- `DB.GetAccount` while nothing is committed during the call. -/
def getAccount (h : Handle) (env : Env) (addr : Address) (at_ : UInt64) :
    Except Err (Option Account) :=
  getAccountAt keccak h env env env addr at_

/-- `DB.GetSlot` while nothing is committed during the call. -/
def getSlot (h : Handle) (env : Env) (addr : Address) (slot : Hash) (at_ : UInt64) :
    Except Err Hash :=
  getSlotAt keccak h env env env addr slot at_

end

/-- `DB.GetCode`. -/
def getCode (env : Env) (hash : Hash) : Except Err Bytes :=
  match env.get (appendCodeKey [] hash) with
  | none => .error (.codeNotFound hash)
  | some v => .ok v

/-- `DB.GetDiff`. -/
def getDiff (env : Env) (block : UInt64) : Except Err Batch :=
  match env.get (appendDiffKey [] block) with
  | none => .error (.diffNotFound block)
  | some v =>
    match decode v with
    | .ok b => .ok b
    | .error e => .error (.badDiff e)

end Flatstate.Store
