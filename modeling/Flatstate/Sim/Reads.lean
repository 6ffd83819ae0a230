import Flatstate.Engine.View
import Flatstate.Sim.Revert

set_option autoImplicit false

/-!
# Sim: the overlay reads one thing at a time (`sim/statedb.go`)

A method of `vm.StateDB` that gets past the overlay asks the engine's view, and between two
reads other executors run and the store commits: the same read may fail once and succeed
later.  So the methods are programs here that ask for what they read.  On a view that always
answers alike they are the methods of the overlay over a fixed view.

A method that is answered with an error records it.  Until then it does what it would do if
nothing had failed.
-/

namespace Flatstate.Sim

open Foundation Schema
open Engine (ReadQ)
open Foundation.Prog (Ends ends_ret ends_ask ends_bind)
open Sim.StateDB (Mutation Rules)

/-! ## Fixed views -/

/-- A view at a tip that always answers alike: `TipInfo` and the reads. -/
structure TipView (E : Type) where
  tip : Hash
  num : UInt64
  time : UInt64
  reads : View E

section Views

variable {E : Type}

/-- Its answers. -/
def TipView.ask (v : TipView E) : (q : ReadQ) → q.Ans E
  | .tipInfo => (v.tip, v.num, v.time)
  | .account a => v.reads.account a
  | .balance a => v.reads.balance a
  | .slot a k => v.reads.slot a k
  | .code h => v.reads.code h

/-- An answer that is right at the view, or an error. -/
def TipView.Fits (v : TipView E) : (q : ReadQ) → q.Ans E → Prop
  | .tipInfo, x => x = (v.tip, v.num, v.time)
  | .account a, x => ∀ y, x = .ok y → v.reads.account a = .ok y
  | .balance a, x => ∀ y, x = .ok y → v.reads.balance a = .ok y
  | .slot a k, x => ∀ y, x = .ok y → v.reads.slot a k = .ok y
  | .code h, x => ∀ y, x = .ok y → v.reads.code h = .ok y

theorem TipView.fits_ask (v : TipView E) (q : ReadQ) : v.Fits q (v.ask q) := by
  cases q with
  | tipInfo => rfl
  | account _ | balance _ | slot _ _ => exact fun _ h => h
  | code h => exact fun _ h => h

end Views

/-! ## The methods -/

namespace StateDB

variable {E Log : Type} (s : StateDB E Log)

/-- What a method makes of an answer. -/
def answer {β : Type} (zero : β) : Except E β → β × StateDB E Log
  | .error e => (zero, s.fail (.view e))
  | .ok x => (x, s)

/-- `account`. -/
def askAccount (a : Address) : Prog ReadQ (ReadQ.Ans E) ((Account × Bool) × StateDB E Log) :=
  .ask (.account a) fun x => .ret (s.answer (Account.zero, false) x)

/-- `balance`, and `GetBalance`. -/
def askBalance (a : Address) : Prog ReadQ (ReadQ.Ans E) (BitVec 256 × StateDB E Log) :=
  match s.balances a with
  | some b => .ret (b, s)
  | none => .ask (.balance a) fun x => .ret (s.answer 0 x)

/-- `GetNonce`. -/
def askNonce (a : Address) : Prog ReadQ (ReadQ.Ans E) (UInt64 × StateDB E Log) :=
  match s.nonces a with
  | some n => .ret (n, s)
  | none => (s.askAccount a).bind fun r => .ret (r.1.1.nonce, r.2)

/-- The code hash of an account as read. -/
def readCodeHash (keccak : Bytes → Hash) (x : Account × Bool) : Hash :=
  if !x.2 then Hash.zero else if x.1.codeHash = Hash.zero then keccak [] else x.1.codeHash

/-- `GetCodeHash`. -/
def askCodeHash (keccak : Bytes → Hash) (a : Address) :
    Prog ReadQ (ReadQ.Ans E) (Hash × StateDB E Log) :=
  match s.codeHashes a with
  | some h => .ret (h, s)
  | none => (s.askAccount a).bind fun r => .ret (readCodeHash keccak r.1, r.2)

/-- `GetCode`. -/
def askCode (keccak : Bytes → Hash) (a : Address) :
    Prog ReadQ (ReadQ.Ans E) (Bytes × StateDB E Log) :=
  match s.codes a with
  | some c => .ret (c, s)
  | none => (s.askCodeHash keccak a).bind fun r =>
    if r.1 = Hash.zero ∨ r.1 = keccak [] then .ret ([], r.2)
    else .ask (.code r.1) fun x => .ret (r.2.answer [] x)

/-- A slot of a storage overlay, or of the view. -/
def askSlot (ov : SKey → Option Hash) (a : Address) (slot : Hash) :
    Prog ReadQ (ReadQ.Ans E) (Hash × StateDB E Log) :=
  match ov (a, normSlot slot) with
  | some x => .ret (x, s)
  | none => .ask (.slot a (normSlot slot)) fun x => .ret (s.answer Hash.zero x)

/-- `Exist`. -/
def askExist (a : Address) : Prog ReadQ (ReadQ.Ans E) (Bool × StateDB E Log) :=
  if s.created a || s.destructed a || (s.balances a).isSome || (s.nonces a).isSome then
    .ret (true, s)
  else (s.askAccount a).bind fun r => .ret (r.1.2, r.2)

/-- `Empty`. -/
def askEmpty (keccak : Bytes → Hash) (a : Address) :
    Prog ReadQ (ReadQ.Ans E) (Bool × StateDB E Log) :=
  (s.askNonce a).bind fun n =>
    if n.1 ≠ 0 then .ret (false, n.2)
    else (n.2.askBalance a).bind fun b =>
      if b.1 ≠ 0 then .ret (false, b.2)
      else (b.2.askCodeHash keccak a).bind fun h =>
        .ret (decide (h.1 = Hash.zero ∨ h.1 = keccak []), h.2)

/-- The mutations; two of them read the balance first. -/
def askMutate (keccak : Bytes → Hash) : Mutation Log → Prog ReadQ (ReadQ.Ans E) (Unit × StateDB E Log)
  | .addBalance a amount => (s.askBalance a).bind fun r => .ret ((), r.2.setBalance a (r.1 + amount))
  | .subBalance a amount => (s.askBalance a).bind fun r => .ret ((), r.2.setBalance a (r.1 - amount))
  | .setNonce a n => .ret ((), s.setNonce a n)
  | .setCode a code => .ret ((), s.setCode keccak a code)
  | .setState a slot val => .ret ((), s.setState a slot val)
  | .setTransientState a slot val => .ret ((), s.setTransientState a slot val)
  | .createAccount a => .ret ((), s.createAccount a)
  | .selfDestruct a => .ret ((), s.selfDestruct a)
  | .selfdestruct6780 a => .ret ((), s.selfdestruct6780 a)
  | .addRefund gas => .ret ((), s.addRefund gas)
  | .subRefund gas => .ret ((), s.subRefund gas)
  | .addLog l => .ret ((), s.addLog l)
  | .addAddressToAccessList a => .ret ((), s.addAddressToAccessList a)
  | .addSlotToAccessList a slot => .ret ((), s.addSlotToAccessList a slot)

/-! ### On a fixed view -/

section Fixed

variable (v : TipView E) (keccak : Bytes → Hash) (a : Address)

theorem askAccount_eval : (s.askAccount a).eval v.ask = s.account v.reads a := by
  change s.answer _ (v.reads.account a) = _
  unfold account
  cases v.reads.account a <;> rfl

theorem askBalance_eval : (s.askBalance a).eval v.ask = s.balance v.reads a := by
  unfold askBalance balance
  cases s.balances a with
  | some b => rfl
  | none =>
    change s.answer _ (v.reads.balance a) = _
    cases v.reads.balance a <;> rfl

theorem askNonce_eval : (s.askNonce a).eval v.ask = s.getNonce v.reads a := by
  unfold askNonce getNonce
  cases s.nonces a with
  | some n => rfl
  | none =>
    rw [Prog.eval_bind, askAccount_eval]
    rfl

theorem askCodeHash_eval :
    (s.askCodeHash keccak a).eval v.ask = s.getCodeHash v.reads keccak a := by
  unfold askCodeHash getCodeHash
  cases s.codeHashes a with
  | some h => rfl
  | none =>
    rw [Prog.eval_bind, askAccount_eval]
    dsimp only [Prog.eval_ret, readCodeHash]
    split
    · rfl
    · split <;> rfl

theorem askCode_eval : (s.askCode keccak a).eval v.ask = s.getCode v.reads keccak a := by
  unfold askCode getCode
  cases s.codes a with
  | some c => rfl
  | none =>
    rw [Prog.eval_bind, askCodeHash_eval]
    dsimp only
    split
    · rfl
    · change answer _ _ (v.reads.code _) = _
      cases v.reads.code (s.getCodeHash v.reads keccak a).1 <;> rfl

theorem askSlot_eval (ov : SKey → Option Hash) (slot : Hash) :
    (s.askSlot ov a slot).eval v.ask = s.slotOf v.reads ov a slot := by
  unfold askSlot slotOf
  cases ov (a, normSlot slot) with
  | some x => rfl
  | none =>
    change s.answer _ (v.reads.slot a (normSlot slot)) = _
    cases v.reads.slot a (normSlot slot) <;> rfl

theorem askExist_eval : (s.askExist a).eval v.ask = s.exist v.reads a := by
  unfold askExist exist
  split
  · rfl
  · rw [Prog.eval_bind, askAccount_eval]
    rfl

theorem askEmpty_eval : (s.askEmpty keccak a).eval v.ask = s.empty v.reads keccak a := by
  unfold askEmpty empty
  rw [Prog.eval_bind, askNonce_eval]
  dsimp only
  split
  · rfl
  · rw [Prog.eval_bind, askBalance_eval]
    split
    · rfl
    · rw [Prog.eval_bind, askCodeHash_eval]
      rfl

theorem askMutate_eval (m : Mutation Log) :
    (s.askMutate keccak m).eval v.ask = ((), s.mutate keccak v.reads m) := by
  cases m with
  | addBalance a amount | subBalance a amount =>
    rw [askMutate, Prog.eval_bind, askBalance_eval]
    rfl
  | _ => rfl

end Fixed

end StateDB

/-! ## Failing reads -/

section Honest

variable {E Log : Type} {v : TipView E} {s : StateDB E Log} {β γ : Type}

/-- What an outcome of a method is against that on a fixed view: an error that was recorded
stays, the outcomes are the same unless one is recorded, and what the caller has overridden is
kept. -/
structure Fair (s : StateDB E Log) (r r' : β × StateDB E Log) : Prop where
  sticky : ∀ e, s.readErr = some e → r.2.readErr = some e
  agrees : r.2.readErr = none → r = r'
  ovSlots : r.2.ovSlots = s.ovSlots

/-- Every outcome of a method is fair. -/
def Honest (v : TipView E) (s : StateDB E Log)
    (p : Prog ReadQ (ReadQ.Ans E) (β × StateDB E Log)) : Prop :=
  ∀ r, Ends v.Fits p r → Fair s r (p.eval v.ask)

/-- The parts of the overlay that methods which read nothing leave alone. -/
def Calm (s t : StateDB E Log) : Prop := t.readErr = s.readErr ∧ t.ovSlots = s.ovSlots

namespace Honest

/-- A method that asks for nothing. -/
theorem quiet {x : β} {t : StateDB E Log} (h : Calm s t) : Honest v s (.ret (x, t)) := by
  intro r hr
  rw [ends_ret.mp hr]
  exact ⟨fun _ he => h.1.trans he, fun _ => rfl, h.2⟩

theorem pure (x : β) : Honest v s (.ret (x, s)) := quiet ⟨rfl, rfl⟩

/-- One method after another. -/
theorem bind {p : Prog ReadQ (ReadQ.Ans E) (β × StateDB E Log)}
    {f : β × StateDB E Log → Prog ReadQ (ReadQ.Ans E) (γ × StateDB E Log)} (hp : Honest v s p)
    (hf : ∀ x, Honest v x.2 (f x)) : Honest v s (p.bind f) := by
  intro r hr
  obtain ⟨x, hx, hr⟩ := ends_bind.mp hr
  have hfx := hf x r hr
  refine ⟨fun e he => hfx.sticky e ((hp x hx).sticky e he), fun hnone => ?_,
    hfx.ovSlots.trans (hp x hx).ovSlots⟩
  have hmid : x.2.readErr = none := by
    cases hxe : x.2.readErr with
    | none => rfl
    | some e =>
      rw [hfx.sticky e hxe] at hnone
      cases hnone
  rw [Prog.eval_bind, ← (hp x hx).agrees hmid]
  exact hfx.agrees hnone

/-- A read: an error is recorded, an answer is used. -/
theorem read {q : ReadQ} (k : q.Ans E → Except E β)
    (hk : ∀ a, v.Fits q a → ∀ y, k a = .ok y → k (v.ask q) = .ok y) (zero : β) :
    Honest v s (.ask q fun a => .ret (s.answer zero (k a))) := by
  intro r hr
  obtain ⟨a, ha, hr⟩ := ends_ask.mp hr
  rw [ends_ret.mp hr, Prog.eval_ask, Prog.eval_ret]
  cases hka : k a with
  | ok y =>
    rw [hk a ha y hka]
    exact ⟨fun _ he => he, fun _ => rfl, rfl⟩
  | error e =>
    refine ⟨fun r hr => ?_, fun hnone => ?_, ?_⟩
    · simp [StateDB.answer, StateDB.fail, hr]
    · cases hs : s.readErr <;> simp [StateDB.answer, StateDB.fail, hs] at hnone
    · unfold StateDB.answer StateDB.fail
      cases s.readErr <;> rfl

end Honest

variable (v s) (keccak : Bytes → Hash) (a : Address)

theorem askAccount_honest : Honest v s (s.askAccount a) :=
  Honest.read (q := .account a) id (fun _ h => h) _

theorem askBalance_honest : Honest v s (s.askBalance a) := by
  unfold StateDB.askBalance
  cases s.balances a with
  | some b => exact Honest.pure b
  | none => exact Honest.read (q := .balance a) id (fun _ h => h) _

theorem askNonce_honest : Honest v s (s.askNonce a) := by
  unfold StateDB.askNonce
  cases s.nonces a with
  | some n => exact Honest.pure n
  | none => exact (askAccount_honest v s a).bind fun x => Honest.pure x.1.1.nonce

theorem askCodeHash_honest : Honest v s (s.askCodeHash keccak a) := by
  unfold StateDB.askCodeHash
  cases s.codeHashes a with
  | some h => exact Honest.pure h
  | none => exact (askAccount_honest v s a).bind fun x => Honest.pure _

theorem askCode_honest : Honest v s (s.askCode keccak a) := by
  unfold StateDB.askCode
  cases s.codes a with
  | some c => exact Honest.pure c
  | none =>
    refine (askCodeHash_honest v s keccak a).bind fun x => ?_
    split
    · exact Honest.pure []
    · exact Honest.read (q := .code x.1) id (fun _ h => h) _

theorem askSlot_honest (ov : SKey → Option Hash) (slot : Hash) :
    Honest v s (s.askSlot ov a slot) := by
  unfold StateDB.askSlot
  cases ov (a, normSlot slot) with
  | some x => exact Honest.pure x
  | none => exact Honest.read (q := .slot a (normSlot slot)) id (fun _ h => h) _

theorem askExist_honest : Honest v s (s.askExist a) := by
  unfold StateDB.askExist
  split
  · exact Honest.pure true
  · exact (askAccount_honest v s a).bind fun x => Honest.pure x.1.2

theorem askEmpty_honest : Honest v s (s.askEmpty keccak a) := by
  unfold StateDB.askEmpty
  refine (askNonce_honest v s a).bind fun n => ?_
  split
  · exact Honest.pure false
  · refine (askBalance_honest v n.2 a).bind fun b => ?_
    split
    · exact Honest.pure false
    · exact (askCodeHash_honest v b.2 keccak a).bind fun h => Honest.pure _

theorem selfDestruct_calm : Calm s (s.selfDestruct a) := by
  unfold StateDB.selfDestruct StateDB.markDestructed
  split <;> exact ⟨rfl, rfl⟩

theorem addAddressToAccessList_calm : Calm s (s.addAddressToAccessList a) := by
  unfold StateDB.addAddressToAccessList
  split <;> exact ⟨rfl, rfl⟩

theorem addSlotToAccessList_calm (slot : Hash) : Calm s (s.addSlotToAccessList a slot) := by
  have hmap : Calm s (s.withSlotMap a) := by
    unfold StateDB.withSlotMap
    split <;> exact ⟨rfl, rfl⟩
  unfold StateDB.addSlotToAccessList
  dsimp only
  split
  · exact hmap
  · exact hmap

theorem revertToSnapshot_calm (rev : Nat) : Calm s (s.revertToSnapshot rev) := by
  have hundo : ∀ (e : JEntry) (t : StateDB E Log), Calm t (StateDB.undo e t) := by
    intro e t
    cases e <;> exact ⟨rfl, rfl⟩
  have hfold : ∀ es : List JEntry, Calm s (es.foldr StateDB.undo s) := by
    intro es
    induction es with
    | nil => exact ⟨rfl, rfl⟩
    | cons e es ih => exact ⟨(hundo e _).1.trans ih.1, (hundo e _).2.trans ih.2⟩
  exact hfold (s.journal.drop rev)

theorem askMutate_honest (m : Mutation Log) : Honest v s (s.askMutate keccak m) := by
  cases m with
  | addBalance a amount | subBalance a amount =>
    exact (askBalance_honest v s a).bind fun x => Honest.quiet ⟨rfl, rfl⟩
  | setNonce _ _ | setCode _ _ => exact Honest.quiet ⟨rfl, rfl⟩
  | setState a slot val | setTransientState a slot val => exact Honest.quiet ⟨rfl, rfl⟩
  | createAccount a =>
    refine Honest.quiet ?_
    unfold StateDB.createAccount
    split <;> exact ⟨rfl, rfl⟩
  | selfDestruct a => exact Honest.quiet (selfDestruct_calm s a)
  | selfdestruct6780 a =>
    refine Honest.quiet ?_
    unfold StateDB.selfdestruct6780
    split
    · exact selfDestruct_calm s a
    · exact ⟨rfl, rfl⟩
  | addRefund _ | addLog _ => exact Honest.quiet ⟨rfl, rfl⟩
  | subRefund gas =>
    -- the one method that fails without a read
    intro r hr
    rw [ends_ret.mp hr]
    refine ⟨fun e he => ?_, fun _ => rfl, ?_⟩
    · have hlog : (s.logged (.refund s.refund)).readErr = some e := he
      unfold StateDB.subRefund
      split
      · simp only [StateDB.fail, hlog]
      · exact hlog
    · unfold StateDB.subRefund
      split
      · unfold StateDB.fail
        split <;> rfl
      · rfl
  | addAddressToAccessList a => exact Honest.quiet (addAddressToAccessList_calm s a)
  | addSlotToAccessList a slot => exact Honest.quiet (addSlotToAccessList_calm s a slot)

end Honest

end Flatstate.Sim
