import Flatstate.Exec.View

set_option autoImplicit false

/-!
# Exec: executing a block (`follower/exec/exec.go`)

The state transition itself is coreth's: here it is a parameter, a function of what the
view answers and of the block.  `Execute` runs it against the view of the parent,
validates gas, receipts root and bloom against the header, and records the block's diff
as a pending layer under its hash.  The hash is that of the header; nothing compares the
body with it.
-/

namespace Flatstate.Exec

open Foundation Schema Capture Store

/-- A decoded eth block: the header fields the follower looks at, the hash of the header,
and the body (transactions and atomic data). -/
structure EthBlock where
  hash : Hash
  parentHash : Hash
  number : UInt64
  /-- unix seconds -/
  time : UInt64
  gasUsed : UInt64
  receiptHash : Hash
  bloom : Bytes
  body : Bytes
  deriving DecidableEq

/-- What `Exec.Execute` fails with. -/
inductive ExecErr where
  /-- "exec: parent header %x of block %d not seeded" -/
  | parentNotSeeded (parent : Hash) (block : UInt64)
  /-- "exec: parent height %d does not precede block %d" -/
  | parentHeight (height block : UInt64)
  /-- a transaction, an atomic transaction, an upgrade, or a state read of one failed -/
  | run (block : UInt64)
  /-- "exec: block %d gasUsed mismatch: computed %d, header %d" -/
  | gasUsed (block computed header : UInt64)
  /-- "exec: block %d receiptsRoot mismatch: computed %x, header %x" -/
  | receiptsRoot (block : UInt64) (computed header : Hash)
  /-- "exec: block %d logsBloom mismatch" -/
  | bloom (block : UInt64)
  deriving DecidableEq

/-- The state transition of coreth and libevm, with receipts `ρ`: from what the view
answers and the block to the captured ops, the gas used and the receipts.  Code is read
by its hash, so it does not depend on the view. -/
structure Evm (ρ : Type) where
  run : ((k : Key) → Except Err (Val k)) → EthBlock → Option (List Op × UInt64 × ρ)
  receiptsRoot : ρ → Hash
  bloom : ρ → Bytes

variable {ρ : Type}

/-- The validation of a computed block against its header. -/
def Evm.validate (evm : Evm ρ) (blk : EthBlock) (usedGas : UInt64) (receipts : ρ) :
    Except ExecErr Unit :=
  if usedGas ≠ blk.gasUsed then .error (.gasUsed blk.number usedGas blk.gasUsed)
  else if evm.receiptsRoot receipts ≠ blk.receiptHash then
    .error (.receiptsRoot blk.number (evm.receiptsRoot receipts) blk.receiptHash)
  else if evm.bloom receipts ≠ blk.bloom then .error (.bloom blk.number)
  else .ok ()

/-- The batch of an executed block. -/
def EthBlock.batch (blk : EthBlock) (parent : Hash) (ops : List Op) : Batch where
  block := blk.number
  hash := blk.hash
  parent := parent
  time := blk.time * 1000
  ops := ops

/-- What the transition gives over a view: the ops of a block that validates. -/
def Evm.ops (evm : Evm ρ) (reads : (k : Key) → Except Err (Val k)) (blk : EthBlock) :
    Except ExecErr (List Op) :=
  match evm.run reads blk with
  | none => .error (.run blk.number)
  | some (ops, usedGas, receipts) =>
    match evm.validate blk usedGas receipts with
    | .error e => .error e
    | .ok () => .ok ops

/-- `Exec.Execute`. -/
def Executor.execute (evm : Evm ρ) (keccak : Bytes → Hash) (h : Handle) (env : Env) (e : Executor)
    (parent : Hash) (blk : EthBlock) : Except ExecErr Batch × Executor :=
  match e.headers.get parent with
  | none => (.error (.parentNotSeeded parent blk.number), e)
  | some n =>
    if n ≠ blk.number - 1 then (.error (.parentHeight n blk.number), e)
    else
      match evm.ops (readKey keccak h env (e.viewAt parent)) blk with
      | .error x => (.error x, e)
      | .ok ops => (.ok (blk.batch parent ops), e.record (blk.batch parent ops))

/-- An execution that succeeds: the transition over the view gave the batch, which is
recorded; one that fails changes nothing. -/
theorem execute_cases (evm : Evm ρ) (keccak : Bytes → Hash) (h : Handle) (env : Env) (e : Executor)
    (parent : Hash) (blk : EthBlock) :
    (∃ x, e.execute evm keccak h env parent blk = (.error x, e)) ∨
      ∃ ops, evm.ops (readKey keccak h env (e.viewAt parent)) blk = .ok ops ∧
        e.execute evm keccak h env parent blk =
          (.ok (blk.batch parent ops), e.record (blk.batch parent ops)) := by
  rw [Executor.execute]
  cases e.headers.get parent with
  | none => exact Or.inl ⟨_, rfl⟩
  | some n =>
    dsimp only
    split
    · exact Or.inl ⟨_, rfl⟩
    · cases hops : evm.ops (readKey keccak h env (e.viewAt parent)) blk with
      | error x => exact Or.inl ⟨x, rfl⟩
      | ok ops => exact Or.inr ⟨ops, rfl, rfl⟩

end Flatstate.Exec
