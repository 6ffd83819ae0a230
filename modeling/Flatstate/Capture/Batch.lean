import Flatstate.Foundation.Overlay
import Flatstate.Schema.Keys

set_option autoImplicit false

/-!
# Capture: batches, what they mean, and the batch contract (`capture/capture.go`)

A batch is the list of end-of-block post-images of one block.  Its meaning is a
diff on the chain state: folding its ops in order over the state before the
block gives the state after it.

The chain state assigns to every account key an account or nonexistence, and to
every slot key a value, zero when nobody wrote it.  A destruct removes the
account and clears every one of its slots.
-/

namespace Flatstate.Capture

open Foundation Schema

/-- One state mutation.  The op kinds of the source are the constructors, each
with the fields that are meaningful for it. -/
inductive Op where
  /-- set account post-image -/
  | account (addr : Address) (acct : Account)
  /-- set slot post-image -/
  | slot (addr : Address) (key : Hash) (value : Hash)
  /-- slot cleared (zero tombstone) -/
  | deleteSlot (addr : Address) (key : Hash)
  /-- selfdestruct marker -/
  | destruct (addr : Address)
  /-- contract code by hash -/
  | code (codeHash : Hash) (code : Bytes)
  deriving DecidableEq

/-- One block's capture. -/
structure Batch where
  block : UInt64
  hash : Hash
  parent : Hash
  /-- block timestamp, unix milliseconds -/
  time : UInt64
  ops : List Op
  deriving DecidableEq

/-! ## The chain state -/

/-- A key of the chain state. -/
inductive Key where
  | account (addr : Address)
  | slot (addr : Address) (key : Hash)
  deriving DecidableEq

/-- What a key holds. -/
abbrev Val : Key → Type
  | .account _ => Option Account
  | .slot _ _ => Hash

instance (k : Key) : DecidableEq (Val k) :=
  match k with
  | .account _ => inferInstanceAs (DecidableEq (Option Account))
  | .slot _ _ => inferInstanceAs (DecidableEq Hash)

/-- The state of the chain at the end of a block. -/
abbrev State := Valuation Val

/-- The address a key belongs to. -/
def Key.addr : Key → Address
  | .account a => a
  | .slot a _ => a

/-- The value a destruct leaves behind: no account, zero slots. -/
def Val.gone : (k : Key) → Val k
  | .account _ => (none : Option Account)
  | .slot _ _ => Hash.zero

/-- The post-image an op records for a key, if it records one. -/
def Op.post : Op → Diff Val
  | .account a acct, .account a' => if a' = a then some (some acct : Option Account) else none
  | .slot a s v, .slot a' s' => if a' = a ∧ s' = s then some v else none
  | .deleteSlot a s, .slot a' s' => if a' = a ∧ s' = s then some Hash.zero else none
  | .destruct a, k => if k.addr = a then some (Val.gone k) else none
  | _, _ => none

/-- The diff a batch stands for: its ops, applied in order. -/
def Batch.diff (b : Batch) : Diff Val := Diff.stack (b.ops.map Op.post)

/-- The state after a block. -/
def Batch.apply (b : Batch) (σ : State) : State := Diff.applyAll (b.ops.map Op.post) σ

/-- The state after a list of blocks, oldest first. -/
def foldBatches (bs : List Batch) (σ : State) : State := bs.foldl (fun σ b => b.apply σ) σ

theorem Batch.apply_eq (b : Batch) (σ : State) : b.apply σ = b.diff.apply σ :=
  Diff.applyAll_eq_stack _ _

theorem foldBatches_eq (bs : List Batch) (σ : State) :
    foldBatches bs σ = Diff.applyAll (bs.map Batch.diff) σ := by
  induction bs generalizing σ with
  | nil => rfl
  | cons b bs ih =>
    rw [List.map_cons, Diff.applyAll_cons, ← Batch.apply_eq, ← ih]
    rfl

@[simp] theorem foldBatches_nil (σ : State) : foldBatches [] σ = σ := rfl

theorem foldBatches_append (bs cs : List Batch) (σ : State) :
    foldBatches (bs ++ cs) σ = foldBatches cs (foldBatches bs σ) := by
  simp [foldBatches]

theorem foldBatches_concat (bs : List Batch) (b : Batch) (σ : State) :
    foldBatches (bs ++ [b]) σ = b.apply (foldBatches bs σ) := by
  simp [foldBatches]

/-! ## Post-images of an op list

`Diff.stack` reads an op list from its end.  These are the facts about the
last op that touches a key. -/

/-- The post-image of a key after a list of ops. -/
def postOf (ops : List Op) : Diff Val := Diff.stack (ops.map Op.post)

@[simp] theorem postOf_nil (k : Key) : postOf [] k = none := rfl

theorem postOf_concat (ops : List Op) (op : Op) (k : Key) :
    postOf (ops ++ [op]) k = (op.post k).or (postOf ops k) := by
  simp only [postOf, List.map_append, List.map_cons, List.map_nil, Diff.stack_concat]
  rfl

theorem Batch.diff_eq (b : Batch) : b.diff = postOf b.ops := rfl

@[simp] theorem Op.post_destruct (a : Address) (k : Key) :
    (Op.destruct a).post k = if k.addr = a then some (Val.gone k) else none := by
  cases k <;> rfl

/-! ## The batch contract -/

/-- The address an op is about; code is content-addressed and has none. -/
def Op.addr? : Op → Option Address
  | .account a _ => some a
  | .slot a _ _ => some a
  | .deleteSlot a _ => some a
  | .destruct a => some a
  | .code _ _ => none

/-- The op is a slot write or clear of `a`. -/
def Op.isSlotOf (a : Address) : Op → Bool
  | .slot a' _ _ => a' = a
  | .deleteSlot a' _ => a' = a
  | _ => false

/-- The op sets the account `a`. -/
def Op.isAccountOf (a : Address) : Op → Bool
  | .account a' _ => a' = a
  | _ => false

/-- The op destructs some account. -/
def Op.isDestruct : Op → Bool
  | .destruct _ => true
  | _ => false

/-- An address's destruct precedes its other ops. -/
def DestructFirst (ops : List Op) : Prop :=
  ops.Pairwise (fun o o' => o'.isDestruct = true → o.addr? = o'.addr? → o.isDestruct = true)

instance (ops : List Op) : Decidable (DestructFirst ops) :=
  inferInstanceAs (Decidable (ops.Pairwise _))

/-- What the store's read logic relies on, for a block on top of state `σ`. -/
structure Contract (σ : State) (b : Batch) : Prop where
  /-- destructs come first -/
  destructFirst : DestructFirst b.ops
  /-- an address with a destruct and slot ops is recreated -/
  recreated : ∀ a, Op.destruct a ∈ b.ops → (∃ o ∈ b.ops, o.isSlotOf a = true) →
    ∃ o ∈ b.ops, o.isAccountOf a = true
  /-- slot ops only for accounts that exist at the end of the block -/
  slotsExist : ∀ a, (∃ o ∈ b.ops, o.isSlotOf a = true) →
    (b.apply σ (.account a) : Option Account) ≠ none

/-- A chain of blocks each of which keeps the contract on top of its parent. -/
def ContractChain (σ : State) : List Batch → Prop
  | [] => True
  | b :: bs => Contract σ b ∧ ContractChain (b.apply σ) bs

theorem ContractChain.append {σ : State} {bs cs : List Batch} :
    ContractChain σ (bs ++ cs) ↔ ContractChain σ bs ∧ ContractChain (foldBatches bs σ) cs := by
  induction bs generalizing σ with
  | nil => simp [ContractChain]
  | cons b bs ih =>
    rw [List.cons_append, ContractChain, ContractChain, ih, and_assoc]
    rfl

/-! ## Slots live under accounts -/

/-- Every nonzero slot belongs to an account that exists. -/
def NoOrphans (σ : State) : Prop :=
  ∀ a s, (σ (.account a) : Option Account) = none → σ (.slot a s) = Hash.zero

/-- Ops without one for a slot of an address clear its slots if they destruct it. -/
theorem postOf_slot_of_no_slotOp {ops : List Op} {a : Address} {s : Hash}
    (h : ¬ ∃ o ∈ ops, o.isSlotOf a = true) :
    postOf ops (.slot a s) = if Op.destruct a ∈ ops then some (Hash.zero : Hash) else none := by
  induction ops using List.reverseRecOn with
  | nil => rfl
  | append_singleton ops op ih =>
    have hop : op.isSlotOf a ≠ true := fun hs => h ⟨op, by simp, hs⟩
    rw [postOf_concat, ih (fun ⟨o, ho, hs⟩ => h ⟨o, List.mem_append_left _ ho, hs⟩)]
    cases op with
    | account a' v | code c v => simp [Op.post]
    | slot a' s' _ | deleteSlot a' s' =>
      have hne : ¬ (a = a' ∧ s = s') := fun hc => hop (by simp [Op.isSlotOf, hc.1])
      simp [Op.post, hne]
    | destruct a' => by_cases ha : a = a' <;> simp [Key.addr, ha, Val.gone]

/-- Only a destruct removes an account. -/
theorem destruct_of_account_gone {ops : List Op} {a : Address}
    (h : postOf ops (.account a) = some (none : Option Account)) : Op.destruct a ∈ ops := by
  induction ops using List.reverseRecOn with
  | nil => simp at h
  | append_singleton ops op ih =>
    rw [postOf_concat] at h
    cases op with
    | account a' v =>
      by_cases ha : a = a'
      · simp [Op.post, ha] at h
      · exact List.mem_append_left _ (ih (by simpa [Op.post, ha] using h))
    | code c v | slot a' s' v | deleteSlot a' s' =>
      exact List.mem_append_left _ (ih (by simpa [Op.post] using h))
    | destruct a' =>
      by_cases ha : a = a'
      · simp [ha]
      · exact List.mem_append_left _ (ih (by simpa [Key.addr, ha] using h))

/-- A block that keeps the contract leaves no slots without their account. -/
theorem NoOrphans.apply {σ : State} (h : NoOrphans σ) {b : Batch} (hb : Contract σ b) :
    NoOrphans (b.apply σ) := by
  intro a s hnone
  -- no slot op of `a`: its account does not exist at the end of the block
  have hslots : ¬ ∃ o ∈ b.ops, o.isSlotOf a = true := fun hs => hb.slotsExist a hs hnone
  rw [Batch.apply_eq] at hnone ⊢
  cases hpost : postOf b.ops (.account a) with
  | some v =>
    have hv : v = (none : Option Account) := by
      rw [Diff.apply_of_some (d := b.diff) hpost] at hnone
      exact hnone
    rw [hv] at hpost
    refine Diff.apply_of_some ((postOf_slot_of_no_slotOp hslots).trans ?_) σ
    exact if_pos (destruct_of_account_gone hpost)
  | none =>
    rw [Diff.apply_of_none (d := b.diff) hpost] at hnone
    have hslot := postOf_slot_of_no_slotOp (s := s) hslots
    split at hslot
    · exact Diff.apply_of_some hslot σ
    · rw [Diff.apply_of_none (d := b.diff) hslot]
      exact h a s hnone

/-- A chain that keeps the contract leaves no slots without their account. -/
theorem NoOrphans.foldBatches {σ : State} (h : NoOrphans σ) {bs : List Batch}
    (hbs : ContractChain σ bs) : NoOrphans (foldBatches bs σ) := by
  induction bs generalizing σ with
  | nil => exact h
  | cons b bs ih => exact ih (h.apply hbs.1) hbs.2

end Flatstate.Capture
