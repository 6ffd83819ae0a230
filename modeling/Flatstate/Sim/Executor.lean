import Flatstate.Sim.Reads
import Mathlib.Data.List.Nodup

set_option autoImplicit false

/-!
# Sim: the pooled executor (`sim/sim.go`)

A long-lived executor runs one simulated call after another on the same overlay and, while
the tip stays, on the same EVM.  The EVM is libevm's: here it is a parameter, a program over
the methods of `vm.StateDB` for each block context and call.  It can ask whether it has been
cancelled, which is what `fail` does to it on the first failing read; the flag is never
cleared.

The JUMPDEST analyses that executors share between calls are left out: they are a cache of a
function of the code.
-/

namespace Flatstate.Sim

open Foundation Schema
open Engine (ReadQ)
open Foundation.Prog (Ends ends_ret ends_ask ends_bind)
open Sim.StateDB (Mutation Rules)

/-! ## The EVM's interface -/

/-- What the EVM asks of `vm.StateDB`, and of its own flag. -/
inductive Query (Log : Type) where
  | mutate (m : Mutation Log)
  | snapshot
  | revertToSnapshot (rev : Nat)
  | getBalance (addr : Address)
  | getNonce (addr : Address)
  | getCodeHash (addr : Address)
  | getCode (addr : Address)
  | getState (addr : Address) (slot : Hash)
  | getCommittedState (addr : Address) (slot : Hash)
  | getTransientState (addr : Address) (slot : Hash)
  | hasSelfDestructed (addr : Address)
  | exist (addr : Address)
  | empty (addr : Address)
  | getRefund
  | addressInAccessList (addr : Address)
  | slotInAccessList (addr : Address) (slot : Hash)
  /-- `evm.Cancelled` -/
  | cancelled

/-- The answers. -/
def Query.Ans {Log : Type} : Query Log → Type
  | .mutate _ => Unit
  | .snapshot => Nat
  | .revertToSnapshot _ => Unit
  | .getBalance _ => BitVec 256
  | .getNonce _ => UInt64
  | .getCodeHash _ => Hash
  | .getCode _ => Bytes
  | .getState _ _ => Hash
  | .getCommittedState _ _ => Hash
  | .getTransientState _ _ => Hash
  | .hasSelfDestructed _ => Bool
  | .exist _ => Bool
  | .empty _ => Bool
  | .getRefund => UInt64
  | .addressInAccessList _ => Bool
  | .slotInAccessList _ _ => Bool × Bool
  | .cancelled => Bool

/-- The overlay and the EVM's flag during a call. -/
structure Machine (E Log : Type) where
  sdb : StateDB E Log
  cancelled : Bool

section Interface

variable {E Log : Type}

/-- After a method that may have failed for the first time. -/
def Machine.after {β : Type} (m : Machine E Log) (r : β × StateDB E Log) : β × Machine E Log :=
  (r.1, ⟨r.2, m.cancelled || (m.sdb.readErr.isNone && r.2.readErr.isSome)⟩)

variable (keccak : Bytes → Hash)

/-- A call of a method that reads. -/
def Machine.ask {β : Type} (m : Machine E Log)
    (p : Prog ReadQ (ReadQ.Ans E) (β × StateDB E Log)) :
    Prog ReadQ (ReadQ.Ans E) (β × Machine E Log) :=
  p.bind fun r => .ret (m.after r)

/-- A call of a method. -/
def Query.ask : (q : Query Log) → Machine E Log → Prog ReadQ (ReadQ.Ans E) (q.Ans × Machine E Log)
  | .mutate x, m => m.ask (m.sdb.askMutate keccak x)
  | .snapshot, m => .ret (m.sdb.snapshot, m)
  | .revertToSnapshot rev, m => .ret ((), { m with sdb := m.sdb.revertToSnapshot rev })
  | .getBalance a, m => m.ask (m.sdb.askBalance a)
  | .getNonce a, m => m.ask (m.sdb.askNonce a)
  | .getCodeHash a, m => m.ask (m.sdb.askCodeHash keccak a)
  | .getCode a, m => m.ask (m.sdb.askCode keccak a)
  | .getState a slot, m => m.ask (m.sdb.askSlot m.sdb.slots a slot)
  | .getCommittedState a slot, m => m.ask (m.sdb.askSlot m.sdb.ovSlots a slot)
  | .getTransientState a slot, m => .ret (m.sdb.getTransientState a slot, m)
  | .hasSelfDestructed a, m => .ret (m.sdb.hasSelfDestructed a, m)
  | .exist a, m => m.ask (m.sdb.askExist a)
  | .empty a, m => m.ask (m.sdb.askEmpty keccak a)
  | .getRefund, m => .ret (m.sdb.getRefund, m)
  | .addressInAccessList a, m => .ret (m.sdb.addressInAccessList a, m)
  | .slotInAccessList a slot, m => .ret (m.sdb.slotInAccessList a slot, m)
  | .cancelled, m => .ret (m.cancelled, m)

/-- A call of a method on a fixed view. -/
def Query.step (v : View E) : (q : Query Log) → Machine E Log → q.Ans × Machine E Log
  | .mutate x, m => m.after ((), m.sdb.mutate keccak v x)
  | .snapshot, m => (m.sdb.snapshot, m)
  | .revertToSnapshot rev, m => ((), { m with sdb := m.sdb.revertToSnapshot rev })
  | .getBalance a, m => m.after (m.sdb.balance v a)
  | .getNonce a, m => m.after (m.sdb.getNonce v a)
  | .getCodeHash a, m => m.after (m.sdb.getCodeHash v keccak a)
  | .getCode a, m => m.after (m.sdb.getCode v keccak a)
  | .getState a slot, m => m.after (m.sdb.getState v a slot)
  | .getCommittedState a slot, m => m.after (m.sdb.getCommittedState v a slot)
  | .getTransientState a slot, m => (m.sdb.getTransientState a slot, m)
  | .hasSelfDestructed a, m => (m.sdb.hasSelfDestructed a, m)
  | .exist a, m => m.after (m.sdb.exist v a)
  | .empty a, m => m.after (m.sdb.empty v keccak a)
  | .getRefund, m => (m.sdb.getRefund, m)
  | .addressInAccessList a, m => (m.sdb.addressInAccessList a, m)
  | .slotInAccessList a slot, m => (m.sdb.slotInAccessList a slot, m)
  | .cancelled, m => (m.cancelled, m)

theorem Machine.ask_eval {β : Type} (m : Machine E Log)
    (p : Prog ReadQ (ReadQ.Ans E) (β × StateDB E Log)) (v : TipView E) :
    (m.ask p).eval v.ask = m.after (p.eval v.ask) := by
  rw [Machine.ask, Prog.eval_bind, Prog.eval_ret]

/-- On a fixed view the methods are those of the overlay. -/
theorem Query.ask_eval (q : Query Log) (m : Machine E Log) (v : TipView E) :
    (q.ask keccak m).eval v.ask = q.step keccak v.reads m := by
  cases q with
  | mutate x => exact (m.ask_eval _ v).trans (by rw [StateDB.askMutate_eval]; rfl)
  | getBalance a => exact (m.ask_eval _ v).trans (by rw [StateDB.askBalance_eval]; rfl)
  | getNonce a => exact (m.ask_eval _ v).trans (by rw [StateDB.askNonce_eval]; rfl)
  | getCodeHash a => exact (m.ask_eval _ v).trans (by rw [StateDB.askCodeHash_eval]; rfl)
  | getCode a => exact (m.ask_eval _ v).trans (by rw [StateDB.askCode_eval]; rfl)
  | getState a slot | getCommittedState a slot =>
    exact (m.ask_eval _ v).trans (by rw [StateDB.askSlot_eval]; rfl)
  | exist a => exact (m.ask_eval _ v).trans (by rw [StateDB.askExist_eval]; rfl)
  | empty a => exact (m.ask_eval _ v).trans (by rw [StateDB.askEmpty_eval]; rfl)
  | _ => rfl

end Interface

/-! ## The executor -/

/-- `Call`. -/
structure Request where
  sender : Address
  dst : Address
  input : Bytes
  /-- 0 is `DefaultGasCap` -/
  gas : UInt64
  value : Option (BitVec 256)
  overrides : Call
  accessList : List (Address × List Hash)

/-- `vm.EVM.Call` as a program, with the rules and precompiles of a block. -/
structure Vm (Log X : Type) where
  rules : (num time : UInt64) → Rules
  precompiles : (num time : UInt64) → List Address
  /-- the return data, the gas left and the error -/
  call : (num time : UInt64) → (origin dst : Address) → (input : Bytes) → (gas : UInt64) →
    (value : BitVec 256) → Prog (Query Log) Query.Ans (Bytes × UInt64 × Option X)

/-- `Result.Err`. -/
inductive SimErr (E X : Type) where
  /-- "sim: call is %T, want *Call" -/
  | notCall
  /-- "sim: no tip applied yet, refusing to simulate (D13)" -/
  | noTip
  | read (e : ReadErr E)
  | vm (x : X)

/-- `Result`. -/
structure Result (E Log X : Type) where
  returnData : Bytes
  gasUsed : UInt64
  logs : List Log
  err : Option (SimErr E X)

/-- A result that is an error only. -/
def Result.fail {E Log X : Type} (e : SimErr E X) : Result E Log X := ⟨[], 0, [], some e⟩

/-- What `rebuildEnv` makes: the EVM with its block context and flag, the rules and the
precompiles. -/
structure Env where
  num : UInt64
  time : UInt64
  rules : Rules
  precompiles : List Address
  cancelled : Bool

/-- `Executor`; `env` is `none` where the EVM is nil.  Its `root` and `callers` are left out: a
call sees nothing of its caller contract but the address, and the jump analysis the contracts
share is not modelled. -/
structure Executor (E Log : Type) where
  sdb : StateDB E Log
  envTip : Hash
  env : Option Env

/-- `DefaultGasCap`. -/
def defaultGasCap : UInt64 := 50000000

/-- `blackholeAddr`, the coinbase. -/
def blackholeAddr : Address := ⟨1 :: List.replicate 19 0, rfl⟩

section Executor

variable {E Log X : Type} (vm : Vm Log X) (keccak : Bytes → Hash)

/-- `New`. -/
def Executor.new : Executor E Log := ⟨StateDB.new, Hash.zero, none⟩

/-- `rebuildEnv`. -/
def Vm.env (num time : UInt64) : Env := ⟨num, time, vm.rules num time, vm.precompiles num time, false⟩

/-- The environment a call runs in: rebuilt if there is none, or if the tip has moved. -/
def Executor.envFor (e : Executor E Log) (tip : Hash) (num time : UInt64) : Env :=
  match e.env with
  | none => vm.env num time
  | some env => if e.envTip ≠ tip then vm.env num time else env

/-- `evm.Call` on the reset and prepared overlay. -/
def Executor.run (e : Executor E Log) (env : Env) (c : Request) :
    Prog ReadQ (ReadQ.Ans E) ((Bytes × UInt64 × Option X) × Machine E Log) :=
  let gas := if c.gas = 0 then defaultGasCap else c.gas
  let sdb := (e.sdb.reset c.overrides).prepare env.rules c.sender blackholeAddr (some c.dst)
    env.precompiles c.accessList
  (vm.call env.num env.time c.sender c.dst c.input gas (c.value.getD 0)).handle (Query.ask keccak)
    ⟨sdb, env.cancelled⟩

/-- What `Execute` makes of the outcome of `evm.Call`. -/
def Executor.finish (tip : Hash) (env : Env) (c : Request)
    (out : (Bytes × UInt64 × Option X) × Machine E Log) : Result E Log X × Executor E Log :=
  match out.2.sdb.readErr with
  -- `evm.Cancel` is sticky: the next call gets a new EVM
  | some r => (.fail (.read r), ⟨out.2.sdb, Hash.zero, none⟩)
  | none =>
    (⟨out.1.1, (if c.gas = 0 then defaultGasCap else c.gas) - out.1.2.1, out.2.sdb.logs,
        out.1.2.2.map .vm⟩,
      ⟨out.2.sdb, tip, some { env with cancelled := out.2.cancelled }⟩)

/-- `Execute` from `TipInfo` on. -/
def Executor.executeAt (e : Executor E Log) (c : Request) (tip : Hash) (num time : UInt64) :
    Prog ReadQ (ReadQ.Ans E) (Result E Log X × Executor E Log) :=
  if num = 0 then .ret (.fail .noTip, e)
  else (e.run vm keccak (e.envFor vm tip num time) c).bind fun out =>
    .ret (Executor.finish tip (e.envFor vm tip num time) c out)

/-- `Executor.Execute`; `none` is a call that is not a `*Call`. -/
def Executor.execute (e : Executor E Log) :
    Option Request → Prog ReadQ (ReadQ.Ans E) (Result E Log X × Executor E Log)
  | none => .ret (.fail .notCall, e)
  | some c => .ask .tipInfo fun (info : Hash × UInt64 × UInt64) =>
    e.executeAt vm keccak c info.1 info.2.1 info.2.2

/-- The result of a call on a fixed view. -/
def Executor.result (e : Executor E Log) (c : Option Request) (v : TipView E) : Result E Log X :=
  ((e.execute vm keccak c).eval v.ask).1

end Executor

namespace Sample

open StateDB.Sample (addr slot digest view)

/-- A contract that returns a slot and then writes it, for a gas of 21000. -/
def vm : Vm Unit Unit where
  rules _ _ := ⟨true, true⟩
  precompiles _ _ := [FixedBytes.ofNat 20 9]
  call _ _ _ dst _ gas _ :=
    .ask (.getState dst slot) fun x =>
      .ask (.mutate (.setState dst slot (FixedBytes.ofNat 32 7))) fun _ =>
        .ask .cancelled fun (stop : Bool) => .ret (if stop then [] else x.1, gas - 21000, none)

def request : Request where
  sender := FixedBytes.ofNat 20 2
  dst := addr
  input := []
  gas := 0
  value := none
  overrides := ⟨[(addr, 7)], [(addr, [(slot, FixedBytes.ofNat 32 4), (Hash.zero, slot)])]⟩
  accessList := []

/-- A call without overrides reads the view. -/
def plain : Request := { request with overrides := ⟨[], []⟩ }

def tip : Hash := FixedBytes.ofNat 32 5

/-- Everything can be read. -/
def whole : TipView Unit := ⟨tip, 5, 9, view⟩

/-- Storage cannot. -/
def broken : TipView Unit := ⟨tip, 5, 9, { view with slot := fun _ _ => .error () }⟩

theorem broken_fits (q : ReadQ) : whole.Fits q (broken.ask q) := by
  cases q with
  | slot a k => exact fun _ h => (by cases h)
  | tipInfo => exact whole.fits_ask .tipInfo
  | account a => exact whole.fits_ask (.account a)
  | balance a => exact whole.fits_ask (.balance a)
  | code h => exact whole.fits_ask (.code h)

def info (_ : Hash) : UInt64 × UInt64 := (5, 9)

/-- The overrides of the request, ranged over in the other order. -/
def swapped : Call :=
  ⟨[(addr, 7)], [(addr, [(Hash.zero, slot), (slot, FixedBytes.ofNat 32 4)])]⟩

/-- The executor after a call whose read failed. -/
def used : Executor Unit Unit :=
  ((Executor.new.execute vm digest (some plain)).eval broken.ask).2

end Sample

/-! ## Whole calls -/

section Calls

variable {E Log X : Type} {v : TipView E} (keccak : Bytes → Hash)

/-- What an outcome of a method of the machine is against that on a fixed view. -/
structure Sound {β : Type} (m : Machine E Log) (r r' : β × Machine E Log) : Prop where
  sticky : ∀ e, m.sdb.readErr = some e → r.2.sdb.readErr = some e
  agrees : r.2.sdb.readErr = none → r = r'
  ovSlots : r.2.sdb.ovSlots = m.sdb.ovSlots
  /-- the flag is up only if an error is recorded -/
  flag : (m.sdb.readErr = none → m.cancelled = false) →
    (r.2.sdb.readErr = none → r.2.cancelled = false)

/-- The machine goes the way of the overlay. -/
theorem Honest.sound {β : Type} {m : Machine E Log}
    {p : Prog ReadQ (ReadQ.Ans E) (β × StateDB E Log)} (h : Honest v m.sdb p)
    {r : β × Machine E Log} (hr : Ends v.Fits (m.ask p) r) : Sound m r ((m.ask p).eval v.ask) := by
  obtain ⟨x, hx, hr⟩ := ends_bind.mp hr
  have hfair := h x hx
  rw [ends_ret.mp hr, Machine.ask_eval]
  refine ⟨hfair.sticky, fun hnone => by rw [hfair.agrees hnone], hfair.ovSlots,
    fun hflag hnone => ?_⟩
  have hxe : x.2.readErr = none := hnone
  cases hm : m.sdb.readErr with
  | some e =>
    rw [hfair.sticky e hm] at hxe
    cases hxe
  | none => simp [Machine.after, hflag hm, hm, hxe]

/-- A method that leaves the machine as it is. -/
theorem Sound.same {β : Type} {m : Machine E Log} {x : β} {r : β × Machine E Log}
    (hr : Ends v.Fits (.ret (x, m)) r) : Sound m r (x, m) := by
  rw [ends_ret.mp hr]
  exact ⟨fun _ he => he, fun _ => rfl, rfl, fun h => h⟩

theorem ask_sound (q : Query Log) (m : Machine E Log) {r : q.Ans × Machine E Log}
    (hr : Ends v.Fits (q.ask keccak m) r) : Sound m r ((q.ask keccak m).eval v.ask) := by
  cases q with
  | mutate x => exact (askMutate_honest v m.sdb keccak x).sound hr
  | getBalance a => exact (askBalance_honest v m.sdb a).sound hr
  | getNonce a => exact (askNonce_honest v m.sdb a).sound hr
  | getCodeHash a => exact (askCodeHash_honest v m.sdb keccak a).sound hr
  | getCode a => exact (askCode_honest v m.sdb keccak a).sound hr
  | getState a slot => exact (askSlot_honest v m.sdb a m.sdb.slots slot).sound hr
  | getCommittedState a slot => exact (askSlot_honest v m.sdb a m.sdb.ovSlots slot).sound hr
  | exist a => exact (askExist_honest v m.sdb a).sound hr
  | empty a => exact (askEmpty_honest v m.sdb keccak a).sound hr
  | revertToSnapshot rev =>
    have hcalm := revertToSnapshot_calm m.sdb rev
    rw [ends_ret.mp hr]
    exact ⟨fun e he => hcalm.1.trans he, fun _ => rfl, hcalm.2,
      fun hflag hnone => hflag (hcalm.1.symm.trans hnone)⟩
  | snapshot | getRefund | cancelled => exact Sound.same hr
  | getTransientState a slot | slotInAccessList a slot => exact Sound.same hr
  | hasSelfDestructed a | addressInAccessList a => exact Sound.same hr

section Runs

variable {α : Type} (p : Prog (Query Log) Query.Ans α) {m : Machine E Log} {r : α × Machine E Log}

/-- A run without a recorded error is the one on the fixed view. -/
theorem run_agrees (hr : Ends v.Fits (p.handle (Query.ask keccak) m) r)
    (hnone : r.2.sdb.readErr = none) : r = (p.handle (Query.ask keccak) m).eval v.ask := by
  refine Prog.handle_agrees (P := fun m => m.sdb.readErr = none) (fun q m x hx h => ?_)
    (fun q m x hx h => (ask_sound keccak q m hx).agrees h) p hr hnone
  cases hm : m.sdb.readErr with
  | none => rfl
  | some e =>
    rw [(ask_sound keccak q m hx).sticky e hm] at h
    cases h

/-- A run without a recorded error leaves the flag down. -/
theorem run_flag (hm : m.sdb.readErr = none → m.cancelled = false)
    (hr : Ends v.Fits (p.handle (Query.ask keccak) m) r) :
    r.2.sdb.readErr = none → r.2.cancelled = false :=
  Prog.handle_keeps (P := fun m : Machine E Log => m.sdb.readErr = none → m.cancelled = false)
    (fun q m _ h hx => (ask_sound keccak q m hx).flag h) p hm hr

/-- What the caller has overridden stays as it was, whatever the call writes. -/
theorem run_ovSlots (hr : Ends v.Fits (p.handle (Query.ask keccak) m) r) :
    r.2.sdb.ovSlots = m.sdb.ovSlots :=
  Prog.handle_keeps (P := fun t : Machine E Log => t.sdb.ovSlots = m.sdb.ovSlots)
    (fun q t _ h hx => (ask_sound keccak q t hx).ovSlots.trans h) p rfl hr

end Runs

variable (vm : Vm Log X)

/-- The outcome of a call: a read error, or the outcome on the fixed view. -/
theorem execute_ends (e : Executor E Log) (c : Option Request)
    {r : Result E Log X × Executor E Log} (hr : Ends v.Fits (e.execute vm keccak c) r) :
    (∃ x, r.1 = .fail (.read x)) ∨ r = (e.execute vm keccak c).eval v.ask := by
  cases c with
  | none => exact .inr (ends_ret.mp hr)
  | some c =>
    obtain ⟨info, hinfo, hr⟩ := ends_ask.mp hr
    obtain rfl : info = (v.tip, v.num, v.time) := hinfo
    change Ends v.Fits (e.executeAt vm keccak c v.tip v.num v.time) r at hr
    change _ ∨ r = (e.executeAt vm keccak c v.tip v.num v.time).eval v.ask
    unfold Executor.executeAt at hr ⊢
    by_cases h0 : v.num = 0
    · rw [if_pos h0] at hr ⊢
      exact .inr (ends_ret.mp hr)
    · rw [if_neg h0] at hr ⊢
      obtain ⟨out, hout, hr⟩ := ends_bind.mp hr
      rw [ends_ret.mp hr]
      cases herr : out.2.sdb.readErr with
      | some x =>
        refine .inl ⟨x, ?_⟩
        rw [Executor.finish, herr]
      | none =>
        have hsame : out = (e.run vm keccak (e.envFor vm v.tip v.num v.time) c).eval v.ask :=
          run_agrees keccak _ hout herr
        rw [Prog.eval_bind, Prog.eval_ret, ← hsame]
        exact .inr rfl

/-- However reads fail, at first or later, once or more often: the result is a read error and
nothing else, or it is the one computed without failures. -/
theorem failed_reads_unused (v : TipView E) (e : Executor E Log) (c : Option Request)
    (r : Result E Log X × Executor E Log) (hr : Ends v.Fits (e.execute vm keccak c) r) :
    (∃ x, r.1 = .fail (.read x)) ∨ r.1 = e.result vm keccak c v := by
  rcases execute_ends keccak vm e c hr with h | h
  · exact .inl h
  · exact .inr (congrArg Prod.fst h)

/-- A call whose first read fails. -/
theorem failed_reads_unused_sample :
    ∃ x, ((Executor.new.execute Sample.vm StateDB.Sample.digest (some Sample.plain)).eval
      Sample.broken.ask).1 = .fail (.read x) := by
  rcases failed_reads_unused StateDB.Sample.digest Sample.vm Sample.whole Executor.new
    (some Sample.plain) _ (Prog.ends_eval Sample.broken_fits _) with h | h
  · exact h
  · exact absurd (congrArg Result.gasUsed h) (by decide +kernel)

end Calls

/-! ## Reuse -/

section Reuse

variable {E Log X : Type} (vm : Vm Log X) (keccak : Bytes → Hash)

/-- A hash names one block: its height and timestamp. -/
def Names (info : Hash → UInt64 × UInt64) (v : TipView E) : Prop := info v.tip = (v.num, v.time)

/-- The executors that come of a new one by calls, each with the answers of some view. -/
inductive Executor.Used (info : Hash → UInt64 × UInt64) : Executor E Log → Prop where
  | new : Used info .new
  | call {e : Executor E Log} (he : Used info e) {v : TipView E} (hv : Names info v)
      (c : Option Request) {r : Result E Log X × Executor E Log}
      (hr : Ends v.Fits (e.execute vm keccak c) r) : Used info r.2

/-- The environment, if there is one, is a new one of the block it is for. -/
def Executor.Fits (info : Hash → UInt64 × UInt64) (e : Executor E Log) : Prop :=
  ∀ env, e.env = some env → env = vm.env (info e.envTip).1 (info e.envTip).2

variable {vm} {info : Hash → UInt64 × UInt64} {e : Executor E Log} {v : TipView E}

theorem Executor.Fits.envFor (he : e.Fits vm info) (hv : Names info v) :
    e.envFor vm v.tip v.num v.time = vm.env v.num v.time := by
  unfold Executor.envFor
  cases henv : e.env with
  | none => rfl
  | some env =>
    dsimp only
    split
    · rfl
    · next hsame =>
      have htip : e.envTip = v.tip := not_not.mp hsame
      rw [he env henv, htip, hv]

theorem Executor.Fits.execute (he : e.Fits vm info) (hv : Names info v) (c : Option Request)
    {r : Result E Log X × Executor E Log} (hr : Ends v.Fits (e.execute vm keccak c) r) :
    r.2.Fits vm info := by
  cases c with
  | none =>
    rw [ends_ret.mp hr]
    exact he
  | some c =>
    obtain ⟨info', hinfo, hr⟩ := ends_ask.mp hr
    obtain rfl : info' = (v.tip, v.num, v.time) := hinfo
    change Ends v.Fits (e.executeAt vm keccak c v.tip v.num v.time) r at hr
    unfold Executor.executeAt at hr
    split at hr
    · rw [ends_ret.mp hr]
      exact he
    · obtain ⟨out, hout, hr⟩ := ends_bind.mp hr
      rw [ends_ret.mp hr]
      rw [he.envFor hv] at hout ⊢
      cases herr : out.2.sdb.readErr with
      | some x =>
        rw [Executor.finish, herr]
        exact fun env henv => (by cases henv)
      | none =>
        have hflag := run_flag keccak _ (fun _ => rfl) hout herr
        rw [Executor.finish, herr]
        intro env henv
        cases henv
        rw [hv, hflag]
        rfl

theorem Executor.Used.fits (he : e.Used vm keccak info) : e.Fits vm info := by
  induction he with
  | new => exact fun env henv => (by cases henv)
  | call _ hv c hr ih => exact ih.execute keccak hv c hr

/-- A result depends on the executor through its environment only. -/
theorem result_congr {e' : Executor E Log}
    (henv : e.envFor vm v.tip v.num v.time = e'.envFor vm v.tip v.num v.time)
    (c : Option Request) : e.result vm keccak c v = e'.result vm keccak c v := by
  cases c with
  | none => rfl
  | some c =>
    change ((e.executeAt vm keccak c v.tip v.num v.time).eval v.ask).1 =
      ((e'.executeAt vm keccak c v.tip v.num v.time).eval v.ask).1
    have hrun : ∀ env, e.run vm keccak env c = e'.run vm keccak env c := fun _ => rfl
    unfold Executor.executeAt
    rw [henv, hrun]
    split <;> rfl

theorem Executor.Used.result_eq (he : e.Used vm keccak info) (hv : Names info v)
    (c : Option Request) :
    e.result vm keccak c v = (Executor.new : Executor E Log).result vm keccak c v := by
  have hnew : (Executor.new : Executor E Log).Used vm keccak info := .new
  refine result_congr keccak ?_ c
  rw [(he.fits keccak).envFor hv, (hnew.fits keccak).envFor hv]

/-- Whatever calls an executor has run, on whatever blocks and with whatever failures, it gives
the result of a new executor, as long as a tip hash always comes with one height and time. -/
theorem reused_executor_is_fresh (vm : Vm Log X) (info : Hash → UInt64 × UInt64)
    (e : Executor E Log) (he : e.Used vm keccak info) (c : Option Request) (v : TipView E)
    (hv : Names info v) :
    e.result vm keccak c v = (Executor.new : Executor E Log).result vm keccak c v :=
  he.result_eq keccak hv c

/-- After a call whose read failed, which has cancelled the EVM. -/
theorem reused_executor_is_fresh_sample :
    (Sample.used.result Sample.vm StateDB.Sample.digest (some Sample.request)
      Sample.whole).returnData = (FixedBytes.ofNat 32 4).1 := by
  have hwhole : Names Sample.info Sample.whole := rfl
  have hused : Sample.used.Used Sample.vm StateDB.Sample.digest Sample.info :=
    .call .new hwhole (some Sample.plain) (Prog.ends_eval Sample.broken_fits _)
  rw [reused_executor_is_fresh StateDB.Sample.digest Sample.vm Sample.info Sample.used hused
    (some Sample.request) Sample.whole rfl]
  decide +kernel

end Reuse

/-! ## Overrides -/

/-- The storage overrides under the keys they are kept at. -/
def Call.seeds (c : Call) : List (SKey × Hash) :=
  c.storageOverrides.flatMap fun o => o.2.map fun kv => ((o.1, normSlot kv.1), kv.2)

/-- The override of a slot, as `GetCommittedState` looks for it; a later one replaces an
earlier one. -/
def Call.override (c : Call) (k : SKey) : Option Hash :=
  (c.seeds.reverse.find? fun x => x.1 = k).map (·.2)

section Overrides

variable {E Log : Type}

/-- `reset` seeds one override after another. -/
theorem reset_eq (s : StateDB E Log) (c : Call) :
    s.reset c = c.seeds.foldl
      (fun s x => { s with
        slots := Function.update s.slots x.1 (some x.2)
        ovSlots := Function.update s.ovSlots x.1 (some x.2) })
      (c.balanceOverrides.foldl
        (fun s o => { s with balances := Function.update s.balances o.1 (some o.2) }) StateDB.new) := by
  unfold StateDB.reset Call.seeds
  rw [List.foldl_flatMap]
  simp only [List.foldl_map]
  rfl

/-- What `reset` leaves as the committed state of the overrides. -/
theorem reset_ovSlots (s : StateDB E Log) (c : Call) : (s.reset c).ovSlots = c.override := by
  have hbalances := StateDB.foldl_keeps (s := StateDB.new)
    (P := fun t : StateDB E Log => t.ovSlots = fun _ => none)
    (f := fun s (o : Address × BitVec 256) =>
      { s with balances := Function.update s.balances o.1 (some o.2) })
    (fun _ _ h => h) c.balanceOverrides rfl
  rw [reset_eq]
  unfold Call.override
  -- from the last seed on: the one that counts is found first in the reversed list
  generalize hseeds : c.seeds = seeds
  clear hseeds
  induction seeds using List.reverseRecOn with
  | nil => exact hbalances
  | append_singleton seeds x ih =>
    rw [List.foldl_append, List.reverse_append]
    funext k
    by_cases hk : x.1 = k
    · subst hk
      simp
    · have hold := congrFun ih k
      simp only [List.foldl_cons, List.foldl_nil, List.reverse_singleton, List.cons_append,
        List.nil_append]
      rw [Function.update_of_ne (Ne.symm hk), hold, List.find?_cons_of_neg (by simpa using hk)]

theorem prepare_ovSlots (s : StateDB E Log) (rules : Rules) (sender coinbase : Address)
    (dst : Option Address) (precompiles : List Address) (list : List (Address × List Hash)) :
    (s.prepare rules sender coinbase dst precompiles list).ovSlots = s.ovSlots :=
  StateDB.prepare_keeps (P := fun t => t.ovSlots = s.ovSlots)
    (fun t a h => (addAddressToAccessList_calm t a).2.trans h)
    (fun t a k h => (addSlotToAccessList_calm t a k).2.trans h) rfl rules sender coinbase dst
    precompiles list

/-- Whatever a call has done so far, and whatever has failed, a committed slot is the one the
caller has overridden, or the view's. -/
theorem committed_state_fixed (keccak : Bytes → Hash) (v : TipView E) (s : StateDB E Log) (c : Call)
    (rules : Rules) (sender coinbase : Address) (dst : Option Address) (precompiles : List Address)
    (list : List (Address × List Hash)) (b : Bool) {α : Type} (p : Prog (Query Log) Query.Ans α)
    (r : α × Machine E Log)
    (hr : Ends v.Fits (p.handle (Query.ask keccak)
      ⟨(s.reset c).prepare rules sender coinbase dst precompiles list, b⟩) r)
    (a : Address) (slot : Hash) :
    (r.2.sdb.getCommittedState v.reads a slot).1 =
      (c.override (a, normSlot slot)).getD
        ((v.reads.slot a (normSlot slot)).toOption.getD Hash.zero) := by
  unfold StateDB.getCommittedState StateDB.slotOf
  rw [run_ovSlots keccak p hr, prepare_ovSlots, reset_ovSlots]
  cases c.override (a, normSlot slot) with
  | some x => rfl
  | none => cases v.reads.slot a (normSlot slot) <;> rfl

/-- After a write to an overridden slot. -/
theorem committed_state_fixed_sample :
    ((((Prog.ask (.mutate (.setState StateDB.Sample.addr StateDB.Sample.slot Hash.zero)) fun _ =>
        .ret () : Prog (Query Unit) Query.Ans Unit).handle (Query.ask StateDB.Sample.digest)
          ⟨((StateDB.new : StateDB Unit Unit).reset Sample.request.overrides).prepare ⟨true, true⟩
            StateDB.Sample.addr blackholeAddr none [] [], false⟩).eval
        Sample.whole.ask).2.sdb.getCommittedState StateDB.Sample.view StateDB.Sample.addr
          StateDB.Sample.slot).1 = FixedBytes.ofNat 32 4 := by
  refine (committed_state_fixed StateDB.Sample.digest Sample.whole StateDB.new
    Sample.request.overrides ⟨true, true⟩ StateDB.Sample.addr blackholeAddr none [] [] false _ _
    (Prog.ends_eval Sample.whole.fits_ask _) StateDB.Sample.addr StateDB.Sample.slot).trans ?_
  decide +kernel

/-- The same maps of overrides, ranged over in two orders.  No two slots of an address may
have the same normal form. -/
structure Call.SameMaps (c c' : Call) : Prop where
  balances : c.balanceOverrides.Perm c'.balanceOverrides
  seeds : c.seeds.Perm c'.seeds
  balanceKeys : (c.balanceOverrides.map (·.1)).Nodup
  seedKeys : (c.seeds.map (·.1)).Nodup

/-- Writes under distinct keys can be made in any order. -/
theorem foldl_perm_of_keys {σ K V : Type} {f : σ → K × V → σ} {l l' : List (K × V)}
    (hperm : l.Perm l') (hkeys : (l.map (·.1)).Nodup)
    (hcomm : ∀ s x y, x.1 ≠ y.1 → f (f s x) y = f (f s y) x) (s : σ) :
    l.foldl f s = l'.foldl f s := by
  refine hperm.foldl_eq' (fun x hx y hy s => ?_) s
  by_cases hxy : x.1 = y.1
  · rw [List.inj_on_of_nodup_map hkeys hx hy hxy]
  · exact hcomm s x y hxy

theorem Call.SameMaps.reset {c c' : Call} (h : c.SameMaps c') (s : StateDB E Log) :
    s.reset c = s.reset c' := by
  rw [reset_eq, reset_eq]
  have hbalances := foldl_perm_of_keys
    (f := fun (s : StateDB E Log) o =>
      { s with balances := Function.update s.balances o.1 (some o.2) })
    h.balances h.balanceKeys
    (fun s x y hxy => by simp only [Function.update_comm hxy]) StateDB.new
  rw [hbalances]
  exact foldl_perm_of_keys h.seeds h.seedKeys
    (fun s x y hxy => by simp only [Function.update_comm hxy]) _

/-- A call does not depend on the order in which the caller's overrides are ranged over. -/
theorem override_order_irrelevant {X : Type} (vm : Vm Log X) (keccak : Bytes → Hash)
    (e : Executor E Log) (c : Request) (o : Call) (hsame : c.overrides.SameMaps o) :
    e.execute vm keccak (some c) = e.execute vm keccak (some { c with overrides := o }) := by
  have hrun : ∀ env, e.run vm keccak env c = e.run vm keccak env { c with overrides := o } := by
    intro env
    unfold Executor.run
    rw [hsame.reset]
  unfold Executor.execute Executor.executeAt
  simp only [hrun]
  rfl

/-- The two slots of the sample the other way round. -/
theorem override_order_irrelevant_sample :
    (Executor.new.result Sample.vm StateDB.Sample.digest
      (some { Sample.request with overrides := Sample.swapped }) Sample.whole).returnData =
        (FixedBytes.ofNat 32 4).1 := by
  have hsame : Sample.request.overrides.SameMaps Sample.swapped :=
    ⟨.refl _, .swap _ _ _, by decide +kernel, by decide +kernel⟩
  unfold Executor.result
  rw [← override_order_irrelevant Sample.vm StateDB.Sample.digest Executor.new Sample.request _ hsame]
  decide +kernel

-- slots with one normal form: the one that is ranged over last is kept
example : ∃ k k' : Hash, k ≠ k' ∧ ∀ x y : Hash,
    Call.override ⟨[], [(blackholeAddr, [(k, x), (k', y)])]⟩ (blackholeAddr, normSlot k) = some y :=
  ⟨⟨1 :: List.replicate 31 0, rfl⟩, Hash.zero, by decide, fun _ _ => rfl⟩

end Overrides

end Flatstate.Sim
