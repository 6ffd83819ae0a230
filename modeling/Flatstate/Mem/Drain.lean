import Flatstate.Mem.Pins

set_option autoImplicit false

/-!
# Mem: what merging the side buffers shows

A write phase of the tip view first merges the pins of all executors into the base, for
everyone to see, also if it then rejects the block.  An executor reads the same after the
merge as before exactly when the pins were idle: nobody's own pins made a difference to what
it read, and a pinned nonexistence hides no slot (`sameReads_lockAndDrain_iff`).
-/

namespace Flatstate.Mem

open Foundation Schema Capture Store

/-! ## The base after a merge -/

section Base

variable {bufs : List SideBuffer} {m : Map} {a : Address}

theorem Entry.learn_cons (e : Entry) (sb : SideBuffer) (bufs : List SideBuffer) (a : Address) :
    (e.learn (sb.slots a)).learn (fun s => bufs.findSome? (fun sb => sb.slots a s)) =
      e.learn (fun s => (sb :: bufs).findSome? (fun sb => sb.slots a s)) := by
  simp only [Entry.learn, Option.or_assoc, List.findSome?_cons]
  congr 1
  funext s
  cases sb.slots a s <;> rfl

/-- An entry of the base learns the first pin of each slot. -/
theorem drained_entry {e : Entry} (he : m.accounts a = some e) :
    (bufs.foldl Map.drain m).accounts a =
      some (e.learn (fun s => bufs.findSome? (fun sb => sb.slots a s))) := by
  induction bufs generalizing m e with
  | nil => simp [he, Entry.learn]
  | cons sb bufs ih =>
    have hsb : (m.drain sb).accounts a = some (e.learn (sb.slots a)) := by
      rw [drain_accounts, he]
      rfl
    rw [List.foldl_cons, ih hsb, Entry.learn_cons]

/-- An address without an entry gets that of the first buffer that pins the account, and
slots count from that buffer on. -/
theorem drained_none (bufs : List SideBuffer) (hm : m.accounts a = none) :
    (bufs.findSome? (fun sb => sb.accounts a) = none ∧
        (bufs.foldl Map.drain m).accounts a = none) ∨
      ∃ l sb r v, bufs = l ++ sb :: r ∧ sb.accounts a = some v ∧
        bufs.findSome? (fun sb => sb.accounts a) = some v ∧
        (bufs.foldl Map.drain m).accounts a =
          some ((Entry.ofFetched v).learn
            (fun s => (sb :: r).findSome? (fun sb => sb.slots a s))) := by
  induction bufs generalizing m with
  | nil => exact Or.inl ⟨rfl, hm⟩
  | cons sb bufs ih =>
    rw [List.foldl_cons, List.findSome?_cons]
    cases hsb : sb.accounts a with
    | none =>
      have hd : (m.drain sb).accounts a = none := by rw [drain_accounts, hm, hsb]; rfl
      rcases ih hd with hnone | ⟨l, sb', r, v, rfl, hv, hfirst, hacc⟩
      · exact Or.inl hnone
      · exact Or.inr ⟨sb :: l, sb', r, v, rfl, hv, hfirst, hacc⟩
    | some v =>
      have hd : (m.drain sb).accounts a = some ((Entry.ofFetched v).learn (sb.slots a)) := by
        rw [drain_accounts, hm, hsb]
        rfl
      refine Or.inr ⟨[], sb, bufs, v, rfl, hsb, rfl, ?_⟩
      rw [drained_entry hd, Entry.learn_cons]

theorem drained_code (c : Hash) :
    (bufs.foldl Map.drain m).code c = (m.code c).or (bufs.findSome? (fun sb => sb.code c)) := by
  induction bufs generalizing m with
  | nil => simp
  | cons sb bufs ih =>
    rw [List.foldl_cons, ih, drain_code, Option.or_assoc, List.findSome?_cons]
    cases sb.code c <;> rfl

end Base

/-! ## Readers -/

section Readers

variable (keccak : Bytes → Hash) (h : Handle)

/-- Executor `j` of one view reads what executor `i` of another reads. -/
structure ReadsAs (env : Env) (st : State) (i : Nat) (env' : Env) (st' : State) (j : Nat) :
    Prop where
  account : ∀ a, (st'.account keccak h env' j a).1 = (st.account keccak h env i a).1
  slot : ∀ a s, (st'.slot keccak h env' env' j a s).1 = (st.slot keccak h env env i a s).1
  code : ∀ c, (st'.codeOf env' j c).1 = (st.codeOf env i c).1

/-- Every executor reads the same in both views. -/
def SameReads (env : Env) (st : State) (env' : Env) (st' : State) : Prop :=
  ∀ i, ReadsAs keccak h env st i env' st' i

/-- The view of executors that have pinned nothing. -/
def State.unpinned (st : State) : State := { st with buffers := [] }

/-- Pins that change no read. -/
structure PinsIdle (env : Env) (st : State) : Prop where
  /-- an executor reads with its pins what it would read without -/
  own : SameReads keccak h env st env st.unpinned
  /-- where an account is pinned as nonexistent, its slots are zero anyway -/
  absent : ∀ i a s, lookSlot st.layers a s = none → st.base.accounts a = none →
    st.buffers.findSome? (fun sb => sb.accounts a) = some none →
    (st.unpinned.slot keccak h env env i a s).1 = .ok Hash.zero

/-! Each read as the first of layer, entry and pin that knows the value, else the store. -/

def readAccount (env : Env) (a : Address) (layer : Option (Option Account)) (e : Option Entry)
    (pin : Option (Option Account)) : Except Err (Option Account) :=
  ((layer.or (e.map Entry.toSchema)).or pin).elim (getAccount keccak h env a Latest) .ok

/-- What an entry of the base says about a slot. -/
def Entry.slot (e : Entry) (s : Hash) : Option Hash :=
  if e.present then e.storage s else some Hash.zero

/-- A slot of an account that neither the base nor the buffer has needs a second store read. -/
def readSlot (env : Env) (a : Address) (s : Hash) (layer : Option Hash) (e : Option Entry)
    (acct : Option (Option Account)) (pin : Option Hash) : Except Err Hash :=
  ((layer.or (e.bind (fun e => e.slot s))).or pin).elim
    (match getSlot keccak h env a s Latest with
      | .error err => .error err
      | .ok v =>
        if e.isSome || acct.isSome then .ok v
        else (getAccount keccak h env a Latest).map (fun _ => v)) .ok

variable {keccak h} {env env' env'' : Env} {st st' st'' : State} {i j k : Nat}

theorem ReadsAs.trans (h₁ : ReadsAs keccak h env st i env' st' j)
    (h₂ : ReadsAs keccak h env' st' j env'' st'' k) : ReadsAs keccak h env st i env'' st'' k :=
  ⟨fun a => (h₂.account a).trans (h₁.account a), fun a s => (h₂.slot a s).trans (h₁.slot a s),
    fun c => (h₂.code c).trans (h₁.code c)⟩

theorem ReadsAs.symm (h₁ : ReadsAs keccak h env st i env' st' j) :
    ReadsAs keccak h env' st' j env st i :=
  ⟨fun a => (h₁.account a).symm, fun a s => (h₁.slot a s).symm, fun c => (h₁.code c).symm⟩

theorem account_eq (st : State) (i : Nat) (a : Address) :
    (st.account keccak h env i a).1 =
      readAccount keccak h env a (lookAccount st.layers a) (st.base.accounts a)
        ((st.buffer i).accounts a) := by
  rw [State.account, State.knownAccount, readAccount]
  cases lookAccount st.layers a with
  | some v => rfl
  | none =>
    cases st.base.accounts a with
    | some e => rfl
    | none =>
      cases (st.buffer i).accounts a with
      | some v => rfl
      | none => cases getAccount keccak h env a Latest <;> rfl

theorem knownSlot_eq (st : State) (i : Nat) (a : Address) (s : Hash) :
    st.knownSlot i a s =
      ((lookSlot st.layers a s).or ((st.base.accounts a).bind (fun e => e.slot s))).or
        ((st.buffer i).slots a s) := by
  rw [State.knownSlot]
  cases lookSlot st.layers a s with
  | some v => rfl
  | none =>
    cases st.base.accounts a with
    | none => rfl
    | some e =>
      dsimp only [Option.bind_some, Entry.slot, Option.none_or]
      cases e.present with
      | false => rfl
      | true => cases e.storage s <;> rfl

theorem slot_eq (st : State) (i : Nat) (a : Address) (s : Hash) :
    (st.slot keccak h env env i a s).1 =
      readSlot keccak h env a s (lookSlot st.layers a s) (st.base.accounts a)
        ((st.buffer i).accounts a) ((st.buffer i).slots a s) := by
  rw [State.slot, State.slotFetch, knownSlot_eq, readSlot]
  cases ((lookSlot st.layers a s).or ((st.base.accounts a).bind (fun e => e.slot s))).or
      ((st.buffer i).slots a s) with
  | some v => rfl
  | none =>
    cases getSlot keccak h env a s Latest with
    | error e => rfl
    | ok v =>
      dsimp only [State.accountFetch]
      cases st.base.accounts a with
      | some e => rfl
      | none =>
        cases (st.buffer i).accounts a with
        | some w => rfl
        | none => cases getAccount keccak h env a Latest <;> rfl

theorem code_eq (st : State) (i : Nat) (c : Hash) :
    (st.codeOf env i c).1 =
      ((st.base.code c).or ((st.buffer i).code c)).elim (getCode env c) .ok := by
  rw [State.codeOf]
  cases st.base.code c with
  | some v => rfl
  | none =>
    cases (st.buffer i).code c with
    | some v => rfl
    | none => cases getCode env c <;> rfl

/-- What an executor reads depends on the layers, the base and its own buffer. -/
theorem ReadsAs.of_buffer (hl : st'.layers = st.layers) (hb : st'.base = st.base)
    (hbuf : st'.buffer j = st.buffer i) : ReadsAs keccak h env st i env st' j :=
  ⟨fun a => by rw [account_eq, account_eq, hl, hb, hbuf],
    fun a s => by rw [slot_eq, slot_eq, hl, hb, hbuf], fun c => by rw [code_eq, code_eq, hb, hbuf]⟩

theorem drained_buffer (st : State) (i : Nat) : st.lockAndDrain.buffer i = SideBuffer.new := by
  simp only [State.buffer, State.lockAndDrain, List.getD_eq_getElem?_getD, List.getElem?_map]
  cases st.buffers[i]? <;> rfl

theorem PinsIdle.of_unregistered (hst : st.buffers = []) : PinsIdle keccak h env st := by
  refine ⟨fun i => .of_buffer rfl rfl (by simp [State.unpinned, State.buffer, hst]), ?_⟩
  intro i a s _ _ hfirst
  rw [hst] at hfirst
  cases hfirst

/-! After the merge, and without pins, all depends on the entry of the base. -/

theorem drained_account (i : Nat) (a : Address) :
    (st.lockAndDrain.account keccak h env i a).1 =
      readAccount keccak h env a (lookAccount st.layers a)
        ((st.buffers.foldl Map.drain st.base).accounts a) none := by
  rw [account_eq, drained_buffer]
  rfl

theorem drained_slot (i : Nat) (a : Address) (s : Hash) :
    (st.lockAndDrain.slot keccak h env env i a s).1 =
      readSlot keccak h env a s (lookSlot st.layers a s)
        ((st.buffers.foldl Map.drain st.base).accounts a) none none := by
  rw [slot_eq, drained_buffer]
  rfl

theorem unpinned_account (i : Nat) (a : Address) :
    (st.unpinned.account keccak h env i a).1 =
      readAccount keccak h env a (lookAccount st.layers a) (st.base.accounts a) none :=
  account_eq st.unpinned i a

theorem unpinned_slot (i : Nat) (a : Address) (s : Hash) :
    (st.unpinned.slot keccak h env env i a s).1 =
      readSlot keccak h env a s (lookSlot st.layers a s) (st.base.accounts a) none none :=
  slot_eq st.unpinned i a s

/-! ## The merge -/

section Idle

variable (hp : PinsIdle keccak h env st)
include hp

/-- The executor that holds a buffer reads what one without pins reads. -/
theorem PinsIdle.reader {sb : SideBuffer} (hsb : sb ∈ st.buffers) (i : Nat) :
    ∃ j, st.buffer j = sb ∧ ReadsAs keccak h env st j env st.unpinned i := by
  obtain ⟨j, hj⟩ := List.mem_iff_getElem?.mp hsb
  refine ⟨j, ?_, (hp.own j).trans (.of_buffer rfl rfl rfl)⟩
  rw [State.buffer, List.getD_eq_getElem?_getD, hj]
  rfl

theorem PinsIdle.account (i : Nat) (a : Address) :
    (st.lockAndDrain.account keccak h env i a).1 = (st.unpinned.account keccak h env i a).1 := by
  rw [drained_account]
  cases hb : st.base.accounts a with
  | some e =>
    rw [drained_entry hb, unpinned_account, hb]
    rfl
  | none =>
    rcases drained_none st.buffers hb with ⟨-, hd⟩ | ⟨l, sb, r, v, hbufs, hv, -, hd⟩
    · rw [hd, unpinned_account, hb]
    · obtain ⟨j, hj, hr⟩ := hp.reader (show sb ∈ st.buffers by simp [hbufs]) i
      rw [hr.account a, account_eq, hj, hv, hb, hd, readAccount, readAccount, Option.map_none,
        Option.or_none, Option.or_none, Option.map_some]
      cases v <;> rfl

theorem PinsIdle.slot (i : Nat) (a : Address) (s : Hash) :
    (st.lockAndDrain.slot keccak h env env i a s).1 =
      (st.unpinned.slot keccak h env env i a s).1 := by
  rw [drained_slot]
  cases hl : lookSlot st.layers a s with
  | some v => rw [unpinned_slot, hl]; rfl
  | none =>
    cases hb : st.base.accounts a with
    | some e =>
      rw [drained_entry hb]
      cases hf : st.buffers.findSome? (fun sb => sb.slots a s) with
      | none =>
        rw [unpinned_slot, hl, hb]
        simp [readSlot, Entry.slot, Entry.learn, hf]
      | some v =>
        obtain ⟨sb, hsb, hv⟩ := List.exists_of_findSome?_eq_some hf
        obtain ⟨j, hj, hr⟩ := hp.reader hsb i
        rw [hr.slot a s, slot_eq, hl, hb, hj, hv]
        cases hpres : e.present <;> simp [readSlot, Entry.slot, Entry.learn, hf, hpres]
    | none =>
      rcases drained_none st.buffers hb with
        ⟨-, hd⟩ | ⟨l, sb, r, v, hbufs, hv, hfirst, hd⟩
      · rw [hd, unpinned_slot, hl, hb]
      · rw [hd]
        cases v with
        | none => exact (hp.absent i a s hl hb hfirst).symm
        | some acct =>
          cases hf : (sb :: r).findSome? (fun sb => sb.slots a s) with
          | none =>
            -- the buffer that pins the account does not know the slot either
            obtain ⟨j, hj, hr⟩ := hp.reader (show sb ∈ st.buffers by simp [hbufs]) i
            have hsb : sb.slots a s = none := List.findSome?_eq_none_iff.mp hf sb (by simp)
            rw [hr.slot a s, slot_eq, hl, hb, hj, hv, hsb]
            simp only [readSlot, Entry.slot, Entry.learn, hf, Option.bind_some]
            rfl
          | some w =>
            obtain ⟨sb', hsb', hw⟩ := List.exists_of_findSome?_eq_some hf
            obtain ⟨j, hj, hr⟩ := hp.reader (show sb' ∈ st.buffers by rw [hbufs]; simp [hsb']) i
            rw [hr.slot a s, slot_eq, hl, hb, hj, hw]
            simp only [readSlot, Entry.slot, Entry.learn, hf, Option.bind_some]
            rfl

theorem PinsIdle.code (i : Nat) (c : Hash) :
    (st.lockAndDrain.codeOf env i c).1 = (st.unpinned.codeOf env i c).1 := by
  rw [code_eq, drained_buffer]
  dsimp only [State.lockAndDrain]
  rw [drained_code, show SideBuffer.new.code c = none from rfl, Option.or_none]
  cases hf : st.buffers.findSome? (fun sb => sb.code c) with
  | none => rw [code_eq]; rfl
  | some v =>
    obtain ⟨sb, hsb, hv⟩ := List.exists_of_findSome?_eq_some hf
    obtain ⟨j, hj, hr⟩ := hp.reader hsb i
    rw [hr.code c, code_eq, hj, hv]

end Idle

/-- Exactly idle pins can be merged without a trace. -/
theorem sameReads_lockAndDrain_iff :
    SameReads keccak h env st env st.lockAndDrain ↔ PinsIdle keccak h env st := by
  constructor
  · intro hs
    -- the executor after the last one has an empty buffer
    have hfree : ∀ i, ReadsAs keccak h env st st.buffers.length env st.unpinned i := fun i =>
      .of_buffer rfl rfl (by simp [State.unpinned, State.buffer])
    have hown : ∀ i, ReadsAs keccak h env st.lockAndDrain i env st.unpinned i := fun i =>
      ((ReadsAs.of_buffer (j := st.buffers.length) rfl rfl
        (by rw [drained_buffer, drained_buffer])).trans (hs _).symm).trans (hfree i)
    refine ⟨fun i => (hs i).trans (hown i), fun i a s hl hb hfirst => ?_⟩
    rw [(hown i).slot a s, drained_slot]
    rcases drained_none st.buffers hb with ⟨hnone, -⟩ | ⟨l, sb, r, v, -, -, hv, hd⟩
    · rw [hfirst] at hnone
      cases hnone
    · obtain rfl : none = v := Option.some.inj (hfirst.symm.trans hv)
      rw [hl, hd]
      rfl
  · exact fun hp i => (hp.own i).trans ⟨hp.account i, hp.slot i, hp.code i⟩

end Readers

end Flatstate.Mem
