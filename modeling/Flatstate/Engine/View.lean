import Flatstate.Foundation.Interaction
import Flatstate.Mem.State

set_option autoImplicit false

/-!
# Engine: the view of a call (`engine/engine.go` over `mem/mem.go`)

An executor is given a `View` for the duration of a call.  Its methods look into the
overrides of the call and then ask `mem.State`, whose reads are the steps in which executors
interleave: `State.Slot` makes two when it has to pin the account of the slot.
-/

namespace Flatstate.Engine

open Foundation Schema
open Store (Err)
open Foundation.Prog (Ends ends_ret ends_ask ends_bind)

/-! ## Interfaces -/

/-- The reads of `mem.State`. -/
inductive MemQ where
  | tipInfo
  | account (addr : Address)
  /-- `State.Slot` up to its first store read -/
  | slotFetch (addr : Address) (slot : Hash)
  /-- its second one -/
  | accountFetch (addr : Address)
  | code (hash : Hash)

def MemQ.Ans : MemQ → Type
  | .tipInfo => Hash × UInt64 × UInt64
  | .account _ => Except Err (Option Account)
  | .slotFetch _ _ => Except Err (Hash × Bool)
  | .accountFetch _ => Except Err Unit
  | .code _ => Except Err Bytes

/-- The reading methods of `View`. -/
inductive ReadQ where
  | tipInfo
  | account (addr : Address)
  | balance (addr : Address)
  | slot (addr : Address) (slot : Hash)
  | code (hash : Hash)

/-- Their answers, with errors `E`. -/
def ReadQ.Ans (E : Type) : ReadQ → Type
  | .tipInfo => Hash × UInt64 × UInt64
  | .account _ => Except E (Account × Bool)
  | .balance _ => Except E (BitVec 256)
  | .slot _ _ => Except E Hash
  | .code _ => Except E Bytes

/-- The methods of `View`. -/
inductive ViewQ where
  | read (q : ReadQ)
  | setBalance (addr : Address) (b : BitVec 256)
  | setSlot (addr : Address) (slot val : Hash)

def ViewQ.Ans : ViewQ → Type
  | .read q => q.Ans Err
  | .setBalance _ _ => Unit
  | .setSlot _ _ _ => Unit

/-! ## The view -/

/-- `View`: the overrides of the call. -/
structure View where
  balances : Address → Option (BitVec 256)
  slots : Address × Hash → Option Hash

/-- `newView`. -/
def View.new : View := ⟨fun _ => none, fun _ => none⟩

/-- `View.reset`. -/
def View.reset (_ : View) : View := .new

/-- `State.Slot`. -/
def readSlot (addr : Address) (slot : Hash) : Prog MemQ MemQ.Ans (Except Err Hash) :=
  .ask (.slotFetch addr slot) fun r =>
    match r with
    | .error e => .ret (.error e)
    | .ok (v, false) => .ret (.ok v)
    | .ok (v, true) => .ask (.accountFetch addr) fun r =>
      match r with
      | .error e => .ret (.error e)
      | .ok () => .ret (.ok v)

/-- What `State.Account` returns for an account that may not exist. -/
def withExists (a : Option Account) : Account × Bool := (a.getD Account.zero, a.isSome)

/-- The reading methods: an override, or the shared state. -/
def View.read (v : View) : (q : ReadQ) → Prog MemQ MemQ.Ans (q.Ans Err)
  | .tipInfo => .ask .tipInfo .ret
  | .account addr => .ask (.account addr) fun r => .ret (Except.map withExists r)
  | .balance addr =>
    match v.balances addr with
    | some b => .ret (.ok b)
    | none => .ask (.account addr) fun r => .ret (Except.map (fun a => (withExists a).1.balance) r)
  | .slot addr slot =>
    match v.slots (addr, slot) with
    | some x => .ret (.ok x)
    | none => readSlot addr slot
  | .code hash => .ask (.code hash) .ret

/-- The methods of `View`. -/
def View.step : (q : ViewQ) → View → Prog MemQ MemQ.Ans (q.Ans × View)
  | .read q, v => (v.read q).bind fun r => .ret (r, v)
  | .setBalance addr b, v =>
    .ret ((), { v with balances := Function.update v.balances addr (some b) })
  | .setSlot addr slot val, v =>
    .ret ((), { v with slots := Function.update v.slots (addr, slot) (some val) })

/-- A program that only reads. -/
def reading {α : Type} (p : Prog ReadQ (ReadQ.Ans Err) α) : Prog ViewQ ViewQ.Ans α :=
  p.embed .read fun _ a => a

/-- On a reset view it runs as it does on the answers of the shared state. -/
theorem ends_of_view {α : Type} {ok : (q : MemQ) → q.Ans → Prop}
    {ok' : (q : ReadQ) → q.Ans Err → Prop}
    (hread : ∀ q x, Ends ok (View.new.read q) x → ok' q x) {p : Prog ReadQ (ReadQ.Ans Err) α}
    {r : α} {v : View}
    (hr : Ends ok ((reading p).handle View.step View.new) (r, v)) :
    Ends ok' p r := by
  induction p with
  | ret a =>
    cases ends_ret.mp hr
    exact .ret _
  | ask q k ih =>
    obtain ⟨x, hx, hr⟩ := ends_bind.mp hr
    obtain ⟨y, hy, hx⟩ := ends_bind.mp hx
    cases ends_ret.mp hx
    exact .ask (hread q y hy) (ih y hr)

end Flatstate.Engine
