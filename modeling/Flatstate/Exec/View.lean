import Flatstate.Foundation.Table
import Flatstate.Mem.TipReads

set_option autoImplicit false

/-!
# Exec: the executor's read view (`follower/exec/exec.go`, `statedb.go`)

The executor keeps one layer per executed block above the finalized height, by
hash.  The view of a block walks the layers from its parent down to a hash without a
layer and reads the store at `Latest` below them.
-/

namespace Flatstate.Exec

open Foundation Schema Capture Store

/-! ## Layers -/

/-- `layer`: one executed block's diff. -/
structure Layer where
  block : UInt64
  parent : Hash
  accounts : Address → Option Account
  slots : Address → Hash → Option Hash
  destructed : Address → Bool
  codes : Hash → Option Bytes

/-- One op of `layer.apply`. -/
def Layer.addOp (l : Layer) : Op → Layer
  | .account addr a => { l with accounts := Function.update l.accounts addr (some a) }
  | .slot addr s v =>
    { l with slots := Function.update l.slots addr (Function.update (l.slots addr) s (some v)) }
  | .deleteSlot addr s =>
    { l with slots := Function.update l.slots addr (Function.update (l.slots addr) s (some Hash.zero)) }
  | .destruct addr =>
    { l with
      destructed := Function.update l.destructed addr true
      accounts := Function.update l.accounts addr none
      slots := Function.update l.slots addr (fun _ => none) }
  | .code h c => { l with codes := Function.update l.codes h (some c) }

/-- `layer.apply`: fold ops in batch order. -/
def Layer.apply (l : Layer) (ops : List Op) : Layer := ops.foldl Layer.addOp l

/-- A layer that says nothing. -/
def Layer.empty (block : UInt64) (parent : Hash) : Layer :=
  ⟨block, parent, fun _ => none, fun _ _ => none, fun _ => false, fun _ => none⟩

/-- `newLayer`. -/
def newLayer (b : Batch) : Layer := (Layer.empty b.block b.parent).apply b.ops

/-- What a layer says about an account. -/
def Layer.account (l : Layer) (addr : Address) : Option (Option Account) :=
  match l.accounts addr with
  | some a => some (some a)
  | none => if l.destructed addr then some none else none

/-- What a layer says about a slot. -/
def Layer.slot (l : Layer) (addr : Address) (s : Hash) : Option Hash :=
  match l.slots addr s with
  | some v => some v
  | none => if l.destructed addr then some Hash.zero else none

/-! ## The executor -/

/-- How many finalized headers stay resident. -/
def headerHistory : UInt64 := 300

/-- `Exec`.  Of a resident header only the number is kept: what the EVM reads of it is
not modelled. -/
structure Executor where
  /-- executed, above finalized, by eth hash -/
  pending : Table Hash Layer
  /-- dry-run only: folded accepted diffs -/
  dryBase : Option Layer
  finalized : UInt64
  headers : Table Hash UInt64

/-- `New`. -/
def Executor.new : Executor := ⟨Table.empty, none, 0, Table.empty⟩

/-- `Exec.SeedHeaders`. -/
def Executor.seedHeaders (e : Executor) (headers : List (Hash × UInt64)) : Executor :=
  { e with headers := headers.foldl (fun t h => t.set h.1 h.2) e.headers }

/-- `e.pending[batch.Hash] = newLayer(batch)` and `e.headers[blk.Hash()] = header`. -/
def Executor.record (e : Executor) (b : Batch) : Executor :=
  { e with
    pending := e.pending.set b.hash (newLayer b)
    headers := e.headers.set b.hash b.block }

/-- `Exec.prune`. -/
def Executor.prune (e : Executor) (height : UInt64) : Executor :=
  { e with
    finalized := height
    pending := e.pending.keep (fun _ l => ¬ l.block ≤ height)
    headers :=
      if headerHistory < height then
        e.headers.keep (fun _ n => ¬ n < height - headerHistory)
      else e.headers }

/-- `Exec.OnFinalized`. -/
def Executor.onFinalized (e : Executor) (height : UInt64) : Executor := e.prune height

/-- `Exec.FoldFinalized`. -/
def Executor.foldFinalized (e : Executor) (b : Batch) : Executor :=
  let dry := e.dryBase.getD (Layer.empty 0 Hash.zero)
  ({ e with dryBase := some (dry.apply b.ops) }).prune b.block

/-- The walk of `viewAt`: the layers from `h` down to a hash without a layer, and that
hash.  The source walks without a bound; a walk that visits no hash twice ends within
`e.pending.size` steps. -/
def Executor.walk (e : Executor) : Nat → Hash → List Layer × Hash
  | 0, h => ([], h)
  | n + 1, h =>
    match e.pending.get h with
    | none => ([], h)
    | some l => (l :: (e.walk n l.parent).1, (e.walk n l.parent).2)

/-- `view`: layers newest first, a dry-run fold base last, over the store. -/
structure View where
  layers : List Layer

/-- `Exec.viewAt`. -/
def Executor.viewAt (e : Executor) (parent : Hash) : View :=
  ⟨(e.walk e.pending.size parent).1 ++ e.dryBase.toList⟩

section
variable (keccak : Bytes → Hash) (h : Handle) (env : Env)

/-- `view.account`. -/
def View.account (v : View) (addr : Address) : Except Err (Option Account) :=
  match v.layers.findSome? (fun l => l.account addr) with
  | some a => .ok a
  | none => getAccount keccak h env addr Latest

/-- `view.slot`. -/
def View.slot (v : View) (addr : Address) (s : Hash) : Except Err Hash :=
  match v.layers.findSome? (fun l => l.slot addr s) with
  | some x => .ok x
  | none => getSlot keccak h env addr s Latest

end

/-- `view.code`. -/
def View.code (env : Env) (v : View) (hash : Hash) : Except Err Bytes :=
  match v.layers.findSome? (fun l => l.codes hash) with
  | some c => .ok c
  | none => getCode env hash

/-! ## Layers are diffs -/

/-- The same lookup tables as a layer of the tip view has. -/
def Layer.tables (l : Layer) (b : Batch) : Mem.Layer := ⟨b, l.accounts, l.slots, l.destructed⟩

theorem tables_addOp (l : Layer) (b : Batch) (op : Op) :
    (l.addOp op).tables b = (l.tables b).addOp op := by
  cases op <;> rfl

theorem tables_apply (l : Layer) (b : Batch) (ops : List Op) :
    (l.apply ops).tables b = ops.foldl Mem.Layer.addOp (l.tables b) := by
  rw [Layer.apply]
  induction ops generalizing l with
  | nil => rfl
  | cons op ops ih => rw [List.foldl_cons, List.foldl_cons, ih, tables_addOp]

/-- What a layer says about a key. -/
def Layer.post (l : Layer) : Diff Val
  | .account a => l.account a
  | .slot a s => l.slot a s

/-- An executor layer says about every key what its batch says. -/
theorem newLayer_post (b : Batch) : (newLayer b).post = b.diff := by
  have htab : (newLayer b).tables b = Mem.newLayer b := tables_apply _ b b.ops
  rw [← Mem.newLayer_post, ← htab]
  funext k
  cases k <;> rfl

theorem addOp_block_parent (l : Layer) (op : Op) :
    (l.addOp op).block = l.block ∧ (l.addOp op).parent = l.parent := by
  cases op <;> exact ⟨rfl, rfl⟩

theorem newLayer_block_parent (b : Batch) :
    (newLayer b).block = b.block ∧ (newLayer b).parent = b.parent := by
  have h : ∀ (ops : List Op) (l : Layer),
      (l.apply ops).block = l.block ∧ (l.apply ops).parent = l.parent := by
    intro ops
    induction ops with
    | nil => exact fun l => ⟨rfl, rfl⟩
    | cons op ops ih =>
      intro l
      obtain ⟨h1, h2⟩ := ih (l.addOp op)
      obtain ⟨h3, h4⟩ := addOp_block_parent l op
      exact ⟨h1.trans h3, h2.trans h4⟩
  exact h b.ops _

/-! ## Reading a key -/

/-- A value of a key, as reads of the store and of views return it. -/
def readKey (keccak : Bytes → Hash) (h : Handle) (env : Env) (v : View) :
    (k : Key) → Except Err (Val k)
  | .account a => v.account keccak h env a
  | .slot a s => v.slot keccak h env a s

/-- A new executor's view has no layers. -/
theorem viewAt_new (parent : Hash) : Executor.new.viewAt parent = ⟨[]⟩ := rfl

/-- Without layers a view reads the state after the newest block of the store. -/
theorem readKey_nil {keccak : Bytes → Hash} {base : Trie} {S : UInt64} {bs : List Batch} {env : Env}
    {h : Handle} (hr : Refines keccak base S bs env) (hc : Coherent h env)
    (hchain : ContractChain (base.state keccak) bs) (hset : row env .baselineComplete ≠ none)
    (k : Key) : readKey keccak h env ⟨[]⟩ k = .ok (foldBatches bs (base.state keccak) k) := by
  have hread : readKey keccak h env ⟨[]⟩ k = readLatest keccak h env k := by
    cases k <;> rfl
  rw [hread]
  exact Mem.readLatest_ok hr hc hchain hset k

/-- A layer answers for what its batch touches and passes the rest on. -/
theorem readKey_cons (keccak : Bytes → Hash) (h : Handle) (env : Env) (l : Layer) (ls : List Layer)
    (k : Key) :
    readKey keccak h env ⟨l :: ls⟩ k =
      match l.post k with
      | some v => .ok v
      | none => readKey keccak h env ⟨ls⟩ k := by
  cases k with
  | account a =>
    simp only [readKey, View.account, Layer.post, List.findSome?_cons]
    cases l.account a <;> rfl
  | slot a s =>
    simp only [readKey, View.slot, Layer.post, List.findSome?_cons]
    cases l.slot a s <;> rfl

/-- The layers of some batches, newest first, on top of others: the fold of the batches
over what the others read. -/
theorem readKey_append_layers {keccak : Bytes → Hash} {h : Handle} {env : Env} {σ : State}
    {ls : List Layer} (hσ : ∀ k, readKey keccak h env ⟨ls⟩ k = .ok (σ k)) (bs : List Batch) (k : Key) :
    readKey keccak h env ⟨(bs.map newLayer).reverse ++ ls⟩ k = .ok (foldBatches bs σ k) := by
  induction bs using List.reverseRecOn with
  | nil => exact hσ k
  | append_singleton bs b ih =>
    rw [List.map_append, List.reverse_append, List.map_singleton, List.reverse_singleton,
      List.singleton_append, List.cons_append, readKey_cons, newLayer_post, ih, foldBatches_concat,
      Batch.apply_eq, Diff.apply]
    cases b.diff k <;> rfl

/-- A view over the layers of some batches, newest first, reads the fold of the batches. -/
theorem readKey_layers {keccak : Bytes → Hash} {h : Handle} {env : Env} {σ : State}
    (hσ : ∀ k, readKey keccak h env ⟨[]⟩ k = .ok (σ k)) (bs : List Batch) (k : Key) :
    readKey keccak h env ⟨(bs.map newLayer).reverse⟩ k = .ok (foldBatches bs σ k) := by
  have hread := readKey_append_layers hσ bs k
  rwa [List.append_nil] at hread

/-! ## The walk -/

/-- A walk along a path to a hash without a layer takes the layers of the path. -/
theorem walk_of_path {e : Executor} {root h : Hash} {es : List (Hash × Layer)}
    (hp : e.pending.Path Layer.parent root h es) (hroot : e.pending.get root = none) {n : Nat}
    (hn : es.length ≤ n) : e.walk n h = (es.map Prod.snd, root) := by
  induction hp generalizing n with
  | root =>
    cases n with
    | zero => rfl
    | succ n => simp [Executor.walk, hroot]
  | step hk hv hp ih =>
    cases n with
    | zero => simp at hn
    | succ n =>
      rw [Executor.walk, hv]
      dsimp only
      rw [ih (by simpa using hn)]
      rfl

end Flatstate.Exec
