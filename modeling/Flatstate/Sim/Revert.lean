import Flatstate.Sim.StateDB

set_option autoImplicit false

/-!
# Sim: reverting restores the overlay

Undoing the entries a mutation has logged gives back the overlay it was made on, but for one
thing: a slot map made for an address of the access list stays.  An empty map and none answer
every query alike, so states are compared by what their access lists answer.

The rest is the general argument about journals: nested snapshots lead back to each other.
-/

namespace Flatstate.Sim

open Foundation Schema

namespace StateDB

variable {E Log : Type} {s t : StateDB E Log}

/-! ## The same overlay -/

/-- What an access list answers: the slots of each of its addresses. -/
def warm (al : Address → Option (Option (Hash → Bool))) (addr : Address) : Option (Hash → Bool) :=
  (al addr).map fun m => m.getD fun _ => false

/-- Two overlays that no query tells apart. -/
structure Same (s t : StateDB E Log) : Prop where
  balances : s.balances = t.balances
  slots : s.slots = t.slots
  ovSlots : s.ovSlots = t.ovSlots
  nonces : s.nonces = t.nonces
  codes : s.codes = t.codes
  codeHashes : s.codeHashes = t.codeHashes
  created : s.created = t.created
  destructed : s.destructed = t.destructed
  transient : s.transient = t.transient
  warm : warm s.al = warm t.al
  refund : s.refund = t.refund
  logs : s.logs = t.logs

theorem Same.refl (s : StateDB E Log) : Same s s :=
  ⟨rfl, rfl, rfl, rfl, rfl, rfl, rfl, rfl, rfl, rfl, rfl, rfl⟩

theorem Same.trans {u : StateDB E Log} (h : Same s t) (h' : Same t u) : Same s u :=
  ⟨h.1.trans h'.1, h.2.trans h'.2, h.3.trans h'.3, h.4.trans h'.4, h.5.trans h'.5, h.6.trans h'.6,
    h.7.trans h'.7, h.8.trans h'.8, h.9.trans h'.9, h.10.trans h'.10, h.11.trans h'.11,
    h.12.trans h'.12⟩

theorem warm_update (al : Address → Option (Option (Hash → Bool))) (addr : Address)
    (m : Option (Option (Hash → Bool))) :
    warm (Function.update al addr m) =
      Function.update (warm al) addr (m.map fun m => m.getD fun _ => false) := by
  funext a
  by_cases h : a = addr
  · subst h
    simp [warm]
  · simp [warm, h]

theorem update_warm_self {al : Address → Option (Option (Hash → Bool))} {addr : Address}
    {m : Option (Hash → Bool)} (h : warm al addr = m) :
    Function.update (warm al) addr m = warm al := by
  rw [← h, Function.update_eq_self]

/-- What undoing a slot entry does to the answers. -/
theorem warm_undo_alSlot (s : StateDB E Log) (addr : Address) (slot : Hash) :
    warm (undo (.alSlot addr slot) s).al =
      Function.update (warm s.al) addr
        ((warm s.al addr).map fun f => Function.update f slot false) := by
  rw [undo, warm_update]
  congr 1
  rw [warm]
  rcases s.al addr with _ | _ | f
  · rfl
  · refine congrArg some (funext fun x => ?_)
    simp [Function.update_apply]
  · rfl

theorem Same.undo (h : Same s t) (e : JEntry) : Same (undo e s) (undo e t) := by
  cases e with
  | balance addr prev => exact { h with balances := by simp only [StateDB.undo, h.balances] }
  | storage addr slot prev => exact { h with slots := by simp only [StateDB.undo, h.slots] }
  | nonce addr prev => exact { h with nonces := by simp only [StateDB.undo, h.nonces] }
  | code addr =>
    exact { h with
      codes := by simp only [StateDB.undo, h.codes]
      codeHashes := by simp only [StateDB.undo, h.codeHashes] }
  | refund prev => exact { h with refund := rfl }
  | log => exact { h with logs := by simp only [StateDB.undo, h.logs] }
  | destruct addr => exact { h with destructed := by simp only [StateDB.undo, h.destructed] }
  | created addr => exact { h with created := by simp only [StateDB.undo, h.created] }
  | transient addr slot prev =>
    exact { h with transient := by simp only [StateDB.undo, h.transient] }
  | alAddr addr =>
    refine { h with warm := ?_ }
    rw [StateDB.undo, StateDB.undo, warm_update, warm_update, h.warm]
  | alSlot addr slot =>
    refine { h with warm := ?_ }
    rw [warm_undo_alSlot, warm_undo_alSlot, h.warm]

/-- The overlays as states with a journal. -/
def journaled (E Log : Type) : Journaled (StateDB E Log) JEntry where
  log := journal
  undo := undo
  Same := Same
  refl := Same.refl
  trans := Same.trans
  undo_same e h := h.undo e

/-- The entries logged between two overlays lead back. -/
abbrev Back (s t : StateDB E Log) : Prop := (journaled E Log).Back s t

/-! ## Mutations lead back -/

/-- No query sees a recorded error. -/
theorem fail_same (s : StateDB E Log) (e : ReadErr E) : Same (s.fail e) s := by
  rw [fail]
  split
  · exact Same.refl s
  · exact { Same.refl s with refund := rfl }

theorem balance_same (v : View E) (s : StateDB E Log) (a : Address) : Same (s.balance v a).2 s := by
  rw [balance]
  split
  · exact Same.refl s
  · cases v.balance a with
    | error e => exact fail_same s _
    | ok b => exact Same.refl s

theorem fail_back (s : StateDB E Log) (e : ReadErr E) : Back (s.fail e) s := by
  rw [fail]
  split
  · exact Journaled.Back.refl s
  · exact Journaled.Back.of_same rfl { Same.refl s with refund := rfl }

theorem balance_back (v : View E) (s : StateDB E Log) (addr : Address) :
    Back (s.balance v addr).2 s := by
  rw [balance]
  split
  · exact Journaled.Back.refl s
  · split
    · exact fail_back s _
    · exact Journaled.Back.refl s

theorem setBalance_back (s : StateDB E Log) (addr : Address) (b : BitVec 256) :
    Back (s.setBalance addr b) s := by
  refine Journaled.Back.single (e := .balance addr (s.balances addr)) rfl ?_
  refine { Same.refl s with balances := ?_ }
  exact (Function.update_idem ..).trans (Function.update_eq_self addr s.balances)

theorem setNonce_back (s : StateDB E Log) (addr : Address) (n : UInt64) :
    Back (s.setNonce addr n) s := by
  refine Journaled.Back.single (e := .nonce addr (s.nonces addr)) rfl ?_
  refine { Same.refl s with nonces := ?_ }
  exact (Function.update_idem ..).trans (Function.update_eq_self addr s.nonces)

/-- The entry of `SetCode` has no previous value: it leads back if there was none. -/
theorem setCode_back (keccak : Bytes → Hash) {addr : Address} (hc : s.codes addr = none)
    (hh : s.codeHashes addr = none) (code : Bytes) : Back (s.setCode keccak addr code) s := by
  refine Journaled.Back.single (e := .code addr) rfl ?_
  refine { Same.refl s with codes := ?_, codeHashes := ?_ }
  · refine (Function.update_idem ..).trans ?_
    rw [← hc]
    exact Function.update_eq_self addr s.codes
  · refine (Function.update_idem ..).trans ?_
    rw [← hh]
    exact Function.update_eq_self addr s.codeHashes

theorem setState_back (s : StateDB E Log) (addr : Address) (slot val : Hash) :
    Back (s.setState addr slot val) s := by
  refine Journaled.Back.single
    (e := .storage addr (normSlot slot) (s.slots (addr, normSlot slot))) rfl ?_
  refine { Same.refl s with slots := ?_ }
  exact (Function.update_idem ..).trans (Function.update_eq_self _ s.slots)

theorem setTransientState_back (s : StateDB E Log) (addr : Address) (slot val : Hash) :
    Back (s.setTransientState addr slot val) s := by
  refine Journaled.Back.single (e := .transient addr slot (s.transient (addr, slot))) rfl ?_
  refine { Same.refl s with transient := ?_ }
  exact (Function.update_idem ..).trans (Function.update_eq_self _ s.transient)

theorem update_false {f : Address → Bool} {addr : Address} (h : ¬ f addr = true) :
    Function.update (Function.update f addr true) addr false = f := by
  rw [Function.update_idem, ← Bool.eq_false_iff.mpr h, Function.update_eq_self]

theorem createAccount_back (s : StateDB E Log) (addr : Address) : Back (s.createAccount addr) s := by
  rw [createAccount]
  split
  · exact Journaled.Back.refl s
  · rename_i h
    exact Journaled.Back.single (e := .created addr) rfl
      { Same.refl s with created := update_false h }

theorem markDestructed_back (s : StateDB E Log) (addr : Address) :
    Back (s.markDestructed addr) s := by
  rw [markDestructed]
  split
  · exact Journaled.Back.refl s
  · rename_i h
    exact Journaled.Back.single (e := .destruct addr) rfl
      { Same.refl s with destructed := update_false h }

theorem selfDestruct_back (s : StateDB E Log) (addr : Address) : Back (s.selfDestruct addr) s :=
  (setBalance_back _ addr 0).trans (markDestructed_back s addr)

theorem selfdestruct6780_back (s : StateDB E Log) (addr : Address) :
    Back (s.selfdestruct6780 addr) s := by
  rw [selfdestruct6780]
  split
  · exact selfDestruct_back s addr
  · exact Journaled.Back.refl s

theorem addRefund_back (s : StateDB E Log) (gas : UInt64) : Back (s.addRefund gas) s :=
  Journaled.Back.single (e := .refund s.refund) rfl { Same.refl s with refund := rfl }

theorem subRefund_back (s : StateDB E Log) (gas : UInt64) : Back (s.subRefund gas) s := by
  rw [subRefund]
  split
  · refine (fail_back _ _).trans ?_
    exact Journaled.Back.single (e := .refund s.refund) rfl { Same.refl s with refund := rfl }
  · exact Journaled.Back.single (e := .refund s.refund) rfl { Same.refl s with refund := rfl }

theorem addLog_back (s : StateDB E Log) (l : Log) : Back (s.addLog l) s :=
  Journaled.Back.single (e := .log) rfl { Same.refl s with logs := List.dropLast_concat }

/-- A new address, with or without a slot map. -/
theorem newAddress_back {addr : Address} (hal : s.al addr = none) (m : Option (Hash → Bool)) :
    Back { s.logged (.alAddr addr) with al := Function.update s.al addr (some m) } s := by
  have hnone : warm s.al addr = none := by rw [warm, hal]; rfl
  refine Journaled.Back.single (e := .alAddr addr) rfl { Same.refl s with warm := ?_ }
  refine (warm_update (Function.update s.al addr (some m)) addr none).trans ?_
  rw [warm_update, Function.update_idem]
  exact update_warm_self hnone

theorem addAddressToAccessList_back (s : StateDB E Log) (addr : Address) :
    Back (s.addAddressToAccessList addr) s := by
  rw [addAddressToAccessList]
  split
  · exact Journaled.Back.refl s
  · rename_i hal
    exact newAddress_back hal none

theorem withSlotMap_back (s : StateDB E Log) (addr : Address) : Back (s.withSlotMap addr) s := by
  rw [withSlotMap]
  split
  · rename_i hal
    exact newAddress_back hal _
  · -- not logged: the empty map answers as no map did
    rename_i hal
    refine Journaled.Back.of_same rfl { Same.refl s with warm := ?_ }
    have hempty : warm s.al addr = some fun _ => false := by rw [warm, hal]; rfl
    refine (warm_update ..).trans (update_warm_self hempty)
  · exact Journaled.Back.refl s

theorem withSlotMap_al (s : StateDB E Log) (addr : Address) :
    ∃ m, (s.withSlotMap addr).al addr = some (some m) := by
  rw [withSlotMap]
  split
  · exact ⟨_, Function.update_self ..⟩
  · exact ⟨_, Function.update_self ..⟩
  · rename_i m hal
    exact ⟨m, hal⟩

theorem addSlotToAccessList_back (s : StateDB E Log) (addr : Address) (slot : Hash) :
    Back (s.addSlotToAccessList addr slot) s := by
  rw [addSlotToAccessList]
  refine Journaled.Back.trans ?_ (withSlotMap_back s addr)
  obtain ⟨m, hal⟩ := withSlotMap_al s addr
  dsimp only
  generalize s.withSlotMap addr = t at hal ⊢
  split
  · exact Journaled.Back.refl t
  · rename_i hslot
    have hm : m slot = false := by simpa [slotInAccessList, hal] using hslot
    have hwarm : warm t.al addr = some m := by rw [warm, hal]; rfl
    refine Journaled.Back.single (e := .alSlot addr slot) rfl { Same.refl t with warm := ?_ }
    refine (warm_undo_alSlot _ addr slot).trans ?_
    dsimp only
    rw [warm_update, Function.update_idem, Function.update_self, hal]
    refine update_warm_self (hwarm.trans (congrArg some ?_))
    refine Eq.trans ?_ (Function.update_idem ..).symm
    rw [← hm]
    exact (Function.update_eq_self slot m).symm

theorem foldl_keeps {α : Type} {P : StateDB E Log → Prop} {f : StateDB E Log → α → StateDB E Log}
    (hf : ∀ s x, P s → P (f s x)) (xs : List α) (h : P s) : P (xs.foldl f s) := by
  induction xs generalizing s with
  | nil => exact h
  | cons x xs ih => exact ih (hf s x h)

/-- `Prepare` is a sequence of additions to the access list. -/
theorem prepare_keeps {P : StateDB E Log → Prop}
    (haddr : ∀ s a, P s → P (s.addAddressToAccessList a))
    (hslot : ∀ s a slot, P s → P (s.addSlotToAccessList a slot)) (h : P s) (rules : Rules)
    (sender coinbase : Address) (dst : Option Address) (precompiles : List Address)
    (list : List (Address × List Hash)) :
    P (s.prepare rules sender coinbase dst precompiles list) := by
  rw [prepare]
  split
  · dsimp only
    have hwarm := foldl_keeps haddr precompiles (foldl_keeps haddr dst.toList (haddr s sender h))
    have hlist := foldl_keeps
      (fun s (el : Address × List Hash) hs =>
        foldl_keeps (fun s key => hslot s el.1 key) el.2 (haddr s el.1 hs)) list hwarm
    split
    · exact haddr _ coinbase hlist
    · exact hlist
  · exact h

theorem prepare_back (s : StateDB E Log) (rules : Rules) (sender coinbase : Address)
    (dst : Option Address) (precompiles : List Address) (list : List (Address × List Hash)) :
    Back (s.prepare rules sender coinbase dst precompiles list) s :=
  prepare_keeps (fun t a h => (addAddressToAccessList_back t a).trans h)
    (fun t a slot h => (addSlotToAccessList_back t a slot).trans h) (Journaled.Back.refl s)
    rules sender coinbase dst precompiles list

/-! ## Runs -/

/-- The calls that change the overlay. -/
inductive Mutation (Log : Type) where
  | addBalance (addr : Address) (amount : BitVec 256)
  | subBalance (addr : Address) (amount : BitVec 256)
  | setNonce (addr : Address) (n : UInt64)
  | setCode (addr : Address) (code : Bytes)
  | setState (addr : Address) (slot val : Hash)
  | setTransientState (addr : Address) (slot val : Hash)
  | createAccount (addr : Address)
  | selfDestruct (addr : Address)
  | selfdestruct6780 (addr : Address)
  | addRefund (gas : UInt64)
  | subRefund (gas : UInt64)
  | addLog (l : Log)
  | addAddressToAccessList (addr : Address)
  | addSlotToAccessList (addr : Address) (slot : Hash)

section Runs

variable (keccak : Bytes → Hash) (v : View E)

def mutate (s : StateDB E Log) : Mutation Log → StateDB E Log
  | .addBalance addr amount => s.addBalance v addr amount
  | .subBalance addr amount => s.subBalance v addr amount
  | .setNonce addr n => s.setNonce addr n
  | .setCode addr code => s.setCode keccak addr code
  | .setState addr slot val => s.setState addr slot val
  | .setTransientState addr slot val => s.setTransientState addr slot val
  | .createAccount addr => s.createAccount addr
  | .selfDestruct addr => s.selfDestruct addr
  | .selfdestruct6780 addr => s.selfdestruct6780 addr
  | .addRefund gas => s.addRefund gas
  | .subRefund gas => s.subRefund gas
  | .addLog l => s.addLog l
  | .addAddressToAccessList addr => s.addAddressToAccessList addr
  | .addSlotToAccessList addr slot => s.addSlotToAccessList addr slot

/-- One simulated call: an overlay it reaches, with the snapshots that can be reverted to,
newest first, and the overlays they were taken of. -/
inductive Run : StateDB E Log → List (Nat × StateDB E Log) → Prop where
  | reset (s : StateDB E Log) (c : Call) : Run (s.reset c) []
  | prepare {s : StateDB E Log} {snaps : List (Nat × StateDB E Log)} (hs : Run s snaps)
      (rules : Rules) (sender coinbase : Address) (dst : Option Address)
      (precompiles : List Address) (list : List (Address × List Hash)) :
      Run (s.prepare rules sender coinbase dst precompiles list) snaps
  /-- code is set where the overlay has none -/
  | mutate {s : StateDB E Log} {snaps : List (Nat × StateDB E Log)} (hs : Run s snaps)
      (m : Mutation Log) (hm : ∀ addr code, m = .setCode addr code → s.codes addr = none) :
      Run (s.mutate keccak v m) snaps
  | snapshot {s : StateDB E Log} {snaps : List (Nat × StateDB E Log)} (hs : Run s snaps) :
      Run s ((s.snapshot, s) :: snaps)
  /-- the snapshots above the one that is reverted to are gone -/
  | revert {s s₀ : StateDB E Log} {id : Nat} {newer older : List (Nat × StateDB E Log)}
      (hs : Run s (newer ++ (id, s₀) :: older)) :
      Run (s.revertToSnapshot id) ((id, s₀) :: older)

end Runs

variable {keccak : Bytes → Hash} {v : View E}

/-! ### Code and its hash -/

/-- Code and its hash are set and cleared together. -/
def Paired (s : StateDB E Log) : Prop := ∀ addr, s.codes addr = none → s.codeHashes addr = none

/-- The code of two overlays is the same. -/
def CodeEq (s t : StateDB E Log) : Prop := s.codes = t.codes ∧ s.codeHashes = t.codeHashes

theorem Paired.of_eq (h : Paired t) (hs : CodeEq s t) : Paired s := by
  intro addr hc
  rw [hs.1] at hc
  rw [hs.2]
  exact h addr hc

theorem Same.codeEq (h : Same s t) : CodeEq s t := ⟨h.codes, h.codeHashes⟩

theorem selfDestruct_codeEq (s : StateDB E Log) (addr : Address) :
    CodeEq (s.selfDestruct addr) s := by
  have hmark : CodeEq (s.markDestructed addr) s := by
    rw [markDestructed]
    split <;> exact ⟨rfl, rfl⟩
  exact hmark

theorem addAddressToAccessList_codeEq (s : StateDB E Log) (addr : Address) :
    CodeEq (s.addAddressToAccessList addr) s := by
  rw [addAddressToAccessList]
  split <;> exact ⟨rfl, rfl⟩

theorem addSlotToAccessList_codeEq (s : StateDB E Log) (addr : Address) (slot : Hash) :
    CodeEq (s.addSlotToAccessList addr slot) s := by
  have hmap : CodeEq (s.withSlotMap addr) s := by
    rw [withSlotMap]
    split <;> exact ⟨rfl, rfl⟩
  rw [addSlotToAccessList]
  dsimp only
  split <;> exact hmap

theorem Paired.mutate (hp : Paired s) (m : Mutation Log) : Paired (s.mutate keccak v m) := by
  cases m with
  | setCode addr code =>
    intro a hc
    have hc' : Function.update s.codes addr (some code) a = none := hc
    show Function.update s.codeHashes addr (some (keccak code)) a = none
    by_cases ha : a = addr
    · subst ha
      simp at hc'
    · rw [Function.update_of_ne ha] at hc' ⊢
      exact hp a hc'
  | addBalance addr amount | subBalance addr amount => exact hp.of_eq (balance_same v s addr).codeEq
  | createAccount addr =>
    refine hp.of_eq ?_
    rw [StateDB.mutate, StateDB.createAccount]
    split <;> exact ⟨rfl, rfl⟩
  | selfDestruct addr => exact hp.of_eq (selfDestruct_codeEq s addr)
  | selfdestruct6780 addr =>
    refine hp.of_eq ?_
    rw [StateDB.mutate, StateDB.selfdestruct6780]
    split
    · exact selfDestruct_codeEq s addr
    · exact ⟨rfl, rfl⟩
  | subRefund gas =>
    refine hp.of_eq ?_
    rw [StateDB.mutate, StateDB.subRefund]
    split
    · exact (fail_same _ _).codeEq
    · exact ⟨rfl, rfl⟩
  | addAddressToAccessList addr => exact hp.of_eq (addAddressToAccessList_codeEq s addr)
  | addSlotToAccessList addr slot => exact hp.of_eq (addSlotToAccessList_codeEq s addr slot)
  | _ => exact hp

theorem mutate_back (hp : Paired s) (m : Mutation Log)
    (hm : ∀ addr code, m = .setCode addr code → s.codes addr = none) :
    Back (s.mutate keccak v m) s := by
  cases m with
  | addBalance addr amount | subBalance addr amount =>
    exact (setBalance_back _ addr _).trans (balance_back v s addr)
  | setNonce addr n => exact setNonce_back s addr n
  | setCode addr code =>
    have hc := hm addr code rfl
    exact setCode_back keccak hc (hp addr hc) code
  | setState addr slot val => exact setState_back s addr slot val
  | setTransientState addr slot val => exact setTransientState_back s addr slot val
  | createAccount addr => exact createAccount_back s addr
  | selfDestruct addr => exact selfDestruct_back s addr
  | selfdestruct6780 addr => exact selfdestruct6780_back s addr
  | addRefund gas => exact addRefund_back s gas
  | subRefund gas => exact subRefund_back s gas
  | addLog l => exact addLog_back s l
  | addAddressToAccessList addr => exact addAddressToAccessList_back s addr
  | addSlotToAccessList addr slot => exact addSlotToAccessList_back s addr slot

/-- Reverting to a snapshot that the journal leads back to. -/
theorem Back.revert (h : Back s t) :
    Same (s.revertToSnapshot t.snapshot) t ∧ (s.revertToSnapshot t.snapshot).journal = t.journal := by
  obtain ⟨hsame, hlog⟩ := h.unwind_drop
  exact ⟨{ hsame with refund := hsame.refund }, hlog⟩

theorem reset_paired (s : StateDB E Log) (c : Call) : Paired (s.reset c) := by
  have hnew : Paired (new : StateDB E Log) := fun _ _ => rfl
  rw [reset]
  apply foldl_keeps
  · intro s o hs
    apply foldl_keeps
    · exact fun s kv hs => hs
    · exact hs
  · apply foldl_keeps
    · exact fun s o hs => hs
    · exact hnew

/-- What holds throughout a call. -/
structure RunInv (s : StateDB E Log) (snaps : List (Nat × StateDB E Log)) : Prop where
  paired : Paired s
  stacked : (journaled E Log).Stacked s (snaps.map Prod.snd)
  taken : ∀ x ∈ snaps, x.1 = x.2.snapshot ∧ Paired x.2

theorem Run.inv {snaps : List (Nat × StateDB E Log)} (hr : Run keccak v s snaps) :
    RunInv s snaps := by
  induction hr with
  | reset s c => exact ⟨reset_paired s c, trivial, by simp⟩
  | prepare hs rules sender coinbase dst precompiles list ih =>
    exact ⟨prepare_keeps (fun t a h => h.of_eq (addAddressToAccessList_codeEq t a))
        (fun t a slot h => h.of_eq (addSlotToAccessList_codeEq t a slot)) ih.paired
        rules sender coinbase dst precompiles list,
      ih.stacked.extend (prepare_back _ rules sender coinbase dst precompiles list), ih.taken⟩
  | mutate hs m hm ih =>
    exact ⟨ih.paired.mutate m, ih.stacked.extend (mutate_back ih.paired m hm), ih.taken⟩
  | snapshot hs ih =>
    refine ⟨ih.paired, ⟨Journaled.Back.refl _, ih.stacked⟩, fun x hx => ?_⟩
    rcases List.mem_cons.mp hx with rfl | hx
    · exact ⟨rfl, ih.paired⟩
    · exact ih.taken x hx
  | @revert s s₀ id newer older hs ih =>
    have hst := ih.stacked
    rw [List.map_append, List.map_cons] at hst
    obtain ⟨hback, hrest⟩ := hst.split
    obtain ⟨hid, hp⟩ := ih.taken (id, s₀) (by simp)
    obtain ⟨hsame, hlog⟩ := Back.revert hback
    dsimp only at hid hsame hlog hp
    subst hid
    refine ⟨hp.of_eq hsame.codeEq, ⟨Journaled.Back.of_same hlog hsame, hrest⟩, fun x hx => ?_⟩
    exact ih.taken x (List.mem_append_right _ hx)

/-! ## Observations -/

/-- Every query answers alike. -/
structure Observes (keccak : Bytes → Hash) (v : View E) (s t : StateDB E Log) : Prop where
  getBalance : ∀ a, (s.balance v a).1 = (t.balance v a).1
  getNonce : ∀ a, (s.getNonce v a).1 = (t.getNonce v a).1
  getCode : ∀ a, (s.getCode v keccak a).1 = (t.getCode v keccak a).1
  getCodeHash : ∀ a, (s.getCodeHash v keccak a).1 = (t.getCodeHash v keccak a).1
  getState : ∀ a slot, (s.getState v a slot).1 = (t.getState v a slot).1
  getCommittedState : ∀ a slot, (s.getCommittedState v a slot).1 = (t.getCommittedState v a slot).1
  getTransientState : ∀ a slot, s.getTransientState a slot = t.getTransientState a slot
  exist : ∀ a, (s.exist v a).1 = (t.exist v a).1
  empty : ∀ a, (s.empty v keccak a).1 = (t.empty v keccak a).1
  hasSelfDestructed : ∀ a, s.hasSelfDestructed a = t.hasSelfDestructed a
  getRefund : s.getRefund = t.getRefund
  addressInAccessList : ∀ a, s.addressInAccessList a = t.addressInAccessList a
  slotInAccessList : ∀ a slot, s.slotInAccessList a slot = t.slotInAccessList a slot
  logs : s.logs = t.logs

theorem addressInAccessList_eq (s : StateDB E Log) (a : Address) :
    s.addressInAccessList a = (warm s.al a).isSome := by
  rw [addressInAccessList, warm, Option.isSome_map]

theorem slotInAccessList_eq (s : StateDB E Log) (a : Address) (slot : Hash) :
    s.slotInAccessList a slot =
      match warm s.al a with
      | none => (false, false)
      | some f => (true, f slot) := by
  rw [slotInAccessList, warm]
  rcases s.al a with _ | _ | f <;> rfl

/-- What a read of the view returns does not depend on the overlay. -/
theorem account_fst (v : View E) (s t : StateDB E Log) (a : Address) :
    (s.account v a).1 = (t.account v a).1 := by
  rw [account, account]
  cases v.account a <;> rfl

theorem slotOf_fst (v : View E) (s t : StateDB E Log) (ov : SKey → Option Hash) (a : Address)
    (slot : Hash) : (s.slotOf v ov a slot).1 = (t.slotOf v ov a slot).1 := by
  rw [slotOf, slotOf]
  split
  · rfl
  · cases v.slot a (normSlot slot) <;> rfl

theorem Same.balance_fst (h : Same s t) (v : View E) (a : Address) :
    (s.balance v a).1 = (t.balance v a).1 := by
  rw [balance, balance, h.balances]
  split
  · rfl
  · cases v.balance a <;> rfl

theorem Same.getNonce_fst (h : Same s t) (v : View E) (a : Address) :
    (s.getNonce v a).1 = (t.getNonce v a).1 := by
  rw [getNonce, getNonce, h.nonces]
  split
  · rfl
  · rw [account_fst v s t a]

theorem Same.getCodeHash_fst (h : Same s t) (v : View E) (keccak : Bytes → Hash) (a : Address) :
    (s.getCodeHash v keccak a).1 = (t.getCodeHash v keccak a).1 := by
  have hacct := account_fst v s t a
  rw [getCodeHash, getCodeHash, h.codeHashes]
  split
  · rfl
  · generalize s.account v a = x at hacct ⊢
    generalize t.account v a = y at hacct ⊢
    obtain ⟨⟨acct, present⟩, s'⟩ := x
    obtain ⟨r, t'⟩ := y
    obtain rfl : (acct, present) = r := hacct
    dsimp only
    split
    · rfl
    · split <;> rfl

theorem Same.getCode_fst (h : Same s t) (v : View E) (keccak : Bytes → Hash) (a : Address) :
    (s.getCode v keccak a).1 = (t.getCode v keccak a).1 := by
  have hhash := h.getCodeHash_fst v keccak a
  rw [getCode, getCode, h.codes]
  split
  · rfl
  · generalize s.getCodeHash v keccak a = x at hhash ⊢
    generalize t.getCodeHash v keccak a = y at hhash ⊢
    obtain ⟨hash, s'⟩ := x
    obtain ⟨r, t'⟩ := y
    obtain rfl : hash = r := hhash
    dsimp only
    split
    · rfl
    · cases v.code hash <;> rfl

theorem Same.exist_fst (h : Same s t) (v : View E) (a : Address) :
    (s.exist v a).1 = (t.exist v a).1 := by
  rw [exist, exist, h.created, h.destructed, h.balances, h.nonces]
  split
  · rfl
  · rw [account_fst v s t a]

theorem account_same (v : View E) (s : StateDB E Log) (a : Address) : Same (s.account v a).2 s := by
  rw [account]
  cases v.account a with
  | error e => exact fail_same s _
  | ok r => exact Same.refl s

theorem getNonce_same (v : View E) (s : StateDB E Log) (a : Address) :
    Same (s.getNonce v a).2 s := by
  rw [getNonce]
  split
  · exact Same.refl s
  · exact account_same v s a

/-- `Empty` as one condition. -/
theorem empty_fst (v : View E) (keccak : Bytes → Hash) (s : StateDB E Log) (a : Address) :
    (s.empty v keccak a).1 =
      decide ((s.getNonce v a).1 = 0 ∧ (s.balance v a).1 = 0 ∧
        ((s.getCodeHash v keccak a).1 = Hash.zero ∨ (s.getCodeHash v keccak a).1 = keccak [])) := by
  have hn := getNonce_same v s a
  have hb := balance_same v (s.getNonce v a).2 a
  rw [empty]
  dsimp only
  rw [hn.balance_fst v a, (hb.trans hn).getCodeHash_fst v keccak a]
  by_cases h0 : (s.getNonce v a).1 = 0
  · rw [if_neg (not_not.mpr h0)]
    by_cases h1 : (s.balance v a).1 = 0
    · rw [if_neg (not_not.mpr h1)]
      exact decide_eq_decide.mpr ⟨fun h => ⟨h0, h1, h⟩, fun h => h.2.2⟩
    · rw [if_pos h1]
      exact (decide_eq_false fun h => h1 h.2.1).symm
  · rw [if_pos h0]
    exact (decide_eq_false fun h => h0 h.1).symm

theorem Same.observes (h : Same s t) (keccak : Bytes → Hash) (v : View E) :
    Observes keccak v s t where
  getBalance := h.balance_fst v
  getNonce := h.getNonce_fst v
  getCode := h.getCode_fst v keccak
  getCodeHash := h.getCodeHash_fst v keccak
  getState a slot := by
    rw [getState, getState, h.slots]
    exact slotOf_fst v s t _ a slot
  getCommittedState a slot := by
    rw [getCommittedState, getCommittedState, h.ovSlots]
    exact slotOf_fst v s t _ a slot
  getTransientState a slot := by rw [getTransientState, getTransientState, h.transient]
  exist := h.exist_fst v
  empty a := by
    rw [empty_fst, empty_fst, h.getNonce_fst v a, h.balance_fst v a, h.getCodeHash_fst v keccak a]
  hasSelfDestructed a := by rw [hasSelfDestructed, hasSelfDestructed, h.destructed]
  getRefund := h.refund
  addressInAccessList a := by rw [addressInAccessList_eq, addressInAccessList_eq, h.warm]
  slotInAccessList a slot := by rw [slotInAccessList_eq, slotInAccessList_eq, h.warm]
  logs := h.logs

/-- After a revert to any snapshot that is still there, every query answers as it did when the
snapshot was taken. -/
theorem revert_restores {snaps : List (Nat × StateDB E Log)} (hr : Run keccak v s snaps) {id : Nat}
    {s₀ : StateDB E Log} (hs : (id, s₀) ∈ snaps) :
    Observes keccak v (s.revertToSnapshot id) s₀ := by
  obtain ⟨newer, older, rfl⟩ := List.append_of_mem hs
  have hi := hr.inv
  have hst := hi.stacked
  rw [List.map_append, List.map_cons] at hst
  have hback : Back s s₀ := hst.split.1
  have hid : id = s₀.snapshot := (hi.taken (id, s₀) hs).1
  rw [hid]
  exact hback.revert.1.observes keccak v

namespace Sample

def addr : Address := FixedBytes.ofNat 20 1

def slot : Hash := FixedBytes.ofNat 32 3

/-- Nothing exists. -/
def view : View Unit where
  account _ := .ok (Account.zero, false)
  balance _ := .ok 0
  slot _ _ := .ok Hash.zero
  code _ := .ok []

def digest (_ : Bytes) : Hash := FixedBytes.ofNat 32 1

/-- The balance is overridden and the address is warm. -/
def warmed : StateDB Unit Unit :=
  ((new.reset ⟨[(addr, 7)], []⟩).mutate digest view (.addAddressToAccessList addr))

/-- Then the balance changes, the slot is warmed and the address is destructed. -/
def changed : StateDB Unit Unit :=
  ((warmed.mutate digest view (.addBalance addr 2)).mutate digest view
    (.addSlotToAccessList addr slot)).mutate digest view (.selfDestruct addr)

theorem changed_run : Run digest view changed [(1, warmed)] := by
  have h0 : Run digest view warmed [] := (Run.reset new _).mutate _ (by simp)
  have h1 : Run digest view warmed [(1, warmed)] := h0.snapshot
  exact ((h1.mutate _ (by simp)).mutate _ (by simp)).mutate _ (by simp)

end Sample

/-- The theorem at work: balance, access list and destruction are as they were. -/
theorem revert_restores_sample :
    ((Sample.changed.revertToSnapshot 1).balance Sample.view Sample.addr).1 = 7 ∧
      (Sample.changed.revertToSnapshot 1).slotInAccessList Sample.addr Sample.slot = (true, false) ∧
      (Sample.changed.revertToSnapshot 1).hasSelfDestructed Sample.addr = false := by
  have h := revert_restores Sample.changed_run (List.mem_singleton.mpr rfl)
  exact ⟨(h.getBalance Sample.addr).trans (by decide +kernel),
    (h.slotInAccessList Sample.addr Sample.slot).trans (by decide +kernel),
    (h.hasSelfDestructed Sample.addr).trans (by decide +kernel)⟩

end StateDB

end Flatstate.Sim
