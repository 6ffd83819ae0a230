import Flatstate.Node.Writer

set_option autoImplicit false

/-!
# Node: what a restarted writer resumes on (`cmd/follower/main.go`)

After a crash only the store is left.  The resume point is the watermark; the executor
starts without pending layers, so its view for the block above the resume point is the
store at `Latest`.  Between the commit of a block and the move of the watermark the
store is one block ahead of the resume point, and the view shows that block's writes.
-/

namespace Flatstate.Node

open Foundation Schema Capture Store Tipbus Exec

/-! ## The resume point -/

/-- `consensus.Anchor`; the hash is missing while it is not set. -/
structure Anchor where
  height : UInt64
  ethHash : Option Hash
  deriving DecidableEq

/-- What `resumeFromStore` fails with. -/
inductive ResumeErr where
  | store (e : Err)
  /-- "finalized watermark %d has no diff row: %w" -/
  | noDiff (f : UInt64) (e : Err)
  /-- "store has neither finalized watermark nor baseline genesis" -/
  | neither
  deriving DecidableEq

/-- `resumeFromStore`; reading the genesis fills a cache of the handle. -/
def resumeFromStore (h : Handle) (env : Env) : Except ResumeErr Anchor × Handle :=
  match finalized env with
  | .error e => (.error (.store e), h)
  | .ok (some f) =>
    match getDiff env f with
    | .error e => (.error (.noDiff f e), h)
    | .ok b => (.ok ⟨f, some b.hash⟩, h)
  | .ok none =>
    match genesis h env with
    | (.error e, h) => (.error (.store e), h)
    | (.ok (some s), h) => (.ok ⟨s, none⟩, h)
    | (.ok none, h) => (.error .neither, h)

/-- A restarted process over `env`: it has checked that the baseline is complete and has
its resume point. -/
def restart (env : Env) : Except ResumeErr Anchor × Handle :=
  resumeFromStore (baselineComplete {} env).2 env

/-- The executor's view for the first block it executes again returns, for every key,
the value at the end of the resume block.  The view is that of an executor without
pending layers, whatever hash the resume block has. -/
def ResumesExactly (keccak : Bytes → Hash) (base : Trie) (bs : List Batch) (env : Env) : Prop :=
  ∃ a, (restart env).1 = .ok a ∧ ∀ parent k,
    readKey keccak (restart env).2 env (Executor.new.viewAt parent) k =
      .ok (valueAt keccak base bs a.height k)

variable {keccak : Bytes → Hash} {base : Trie} {S : UInt64} {w : Writer}

/-- The restart of a reachable store: the resume point is the last block under the
watermark, and the new handle's caches are right. -/
theorem WriterInv.restart (hi : WriterInv keccak base S w) :
    (restart w.sink.env).1 = .ok ⟨height S w.done.length, w.done.getLast?.map Batch.hash⟩ ∧
      Coherent (Node.restart w.sink.env).2 w.sink.env := by
  have hr : Refines keccak base S w.written w.sink.env := hi.tip.chain.refines
  have hc : Coherent (baselineComplete {} w.sink.env).2 w.sink.env :=
    (Coherent.fresh _).complete_snd
  have hm := hi.watermark
  rw [Watermark] at hm
  rw [Node.restart, resumeFromStore]
  rcases List.eq_nil_or_concat w.done with hnil | ⟨bs, b, hcons⟩
  · -- the watermark is not set: the resume point is the genesis
    rw [if_pos hnil] at hm
    have hfin : finalized w.sink.env = .ok none := by
      have hget : w.sink.env.get metaFinalized = none := hm
      rw [finalized, getMetaU64, hget]
    have hgen := genesis_of_coherent hc hr.genesis
    have hgen2 := hc.genesis_snd hr.genesis
    cases hg : genesis (baselineComplete {} w.sink.env).2 w.sink.env with
    | mk r h =>
      rw [hg] at hgen hgen2
      dsimp only at hgen hgen2
      subst hgen
      simp only [hfin]
      refine ⟨?_, hgen2⟩
      have hS : height S w.done.length = S := by
        rw [hnil, height, List.length_nil, Nat.add_zero, UInt64.ofNat_toNat]
      rw [hS, hnil]
      rfl
  · -- the watermark is at the last block, whose diff row is there
    rw [List.concat_eq_append] at hcons
    rw [if_neg (by rw [hcons]; simp)] at hm
    have hfin : finalized w.sink.env = .ok (some (height S w.done.length)) :=
      getMetaU64_of_row (r := .finalized) hm
    have hb : w.written[bs.length]? = some b := by
      rw [Writer.written, ← Stage.marks_append_ahead, ← List.append_assoc]
      show (w.done ++ w.stage.ahead)[bs.length]? = some b
      rw [hcons]
      simp
    have hdiff : getDiff w.sink.env (height S w.done.length) = .ok b := by
      have hrow := hr.diffs bs.length b hb
      have hlen : w.done.length = bs.length + 1 := by rw [hcons]; simp
      have hget : w.sink.env.get (appendDiffKey [] (height S w.done.length)) = some (b.encode []) := by
        rw [hlen]
        exact hrow
      have hfit := hi.fits b (List.mem_of_getElem? hb)
      rw [getDiff, hget]
      simp only [decode_encode_of_encodable (encodable_of_length hfit)]
    simp only [hfin, hdiff]
    refine ⟨?_, hc⟩
    rw [hcons]
    simp

/-- The value at the watermark is the fold of the blocks under it. -/
theorem WriterInv.valueAt_done (hi : WriterInv keccak base S w) :
    valueAt keccak base w.written (height S w.done.length) =
      foldBatches w.done (base.state keccak) := by
  have hc := hi.tip.chain
  have hsplit : w.written = w.done ++ w.stage.ahead := by
    rw [Writer.written, Writer.done, List.append_assoc, Stage.marks_append_ahead]
  have hlen : w.written.length = w.done.length + w.stage.ahead.length := by
    rw [hsplit, List.length_append]
  have hfits : S.toNat + w.written.length < 2 ^ 64 := hc.refines.fits
  have hh : (height S w.done.length).toNat = S.toNat + w.done.length := toNat_height (by omega)
  have hS : S ≤ height S w.done.length := by
    rw [UInt64.le_iff_toNat_le, hh]
    omega
  have hnum : Consecutive S w.written := hc.written_numbers
  have hreach : reach S w.written (height S w.done.length) = w.done.length := by
    rw [reach, hh]
    omega
  rw [valueAt, filter_block_le hnum hS, hreach, hsplit, List.take_left' rfl]

/-- In every state the writer can crash in: the resume point is the last block under
the watermark.  The view of the next block is that block's end state exactly if no
block is committed above the watermark, or only one that changes nothing.  Writing
that block again, if it is executed to the same batch, leaves the store as it is. -/
theorem resumes_exactly_iff (hw : WriterRun keccak base S w) :
    (restart w.sink.env).1 = .ok ⟨height S w.done.length, w.done.getLast?.map Batch.hash⟩ ∧
      (ResumesExactly keccak base w.written w.sink.env ↔
        ∀ b ∈ w.stage.ahead, b.apply (foldBatches w.done (base.state keccak)) =
          foldBatches w.done (base.state keccak)) ∧
      ∀ b ∈ w.stage.ahead, writeBlock w.sink.env b = w.sink.env := by
  have hi := hw.inv
  obtain ⟨hres, hcoh⟩ := hi.restart
  refine ⟨hres, ?_, hi.rewrites⟩
  have hread : ∀ parent k,
      readKey keccak (Node.restart w.sink.env).2 w.sink.env (Executor.new.viewAt parent) k =
        .ok (foldBatches w.written (base.state keccak) k) := by
    intro parent k
    rw [viewAt_new]
    exact readKey_nil hi.tip.chain.refines hcoh hi.tip.chain.written_chain hi.complete k
  have hahead : (∀ b ∈ w.stage.ahead, b.apply (foldBatches w.done (base.state keccak)) =
        foldBatches w.done (base.state keccak)) ↔
      foldBatches w.written (base.state keccak) = foldBatches w.done (base.state keccak) := by
    rw [Writer.written, ← Stage.marks_append_ahead, ← List.append_assoc, ← Writer.done,
      foldBatches_append]
    cases w.stage <;> simp [Stage.ahead, foldBatches]
  rw [hahead]
  constructor
  · rintro ⟨a, ha, hview⟩
    obtain rfl := Except.ok.inj (hres.symm.trans ha)
    rw [hi.valueAt_done] at hview
    funext k
    exact Except.ok.inj ((hread Hash.zero k).symm.trans (hview Hash.zero k))
  · intro heq
    refine ⟨_, hres, fun parent k => ?_⟩
    rw [hi.valueAt_done, hread, heq]

/-! ### A crash after the commit of block 6 -/

namespace Sample

open Store.Sample

/-- The finalization of block 6 has committed it and does no more. -/
def crashed : Writer :=
  { delivered with sink := delivered.sink.finalizeWrite block6, stage := .written block6 }

theorem crashed_run : WriterRun digest trie 5 crashed :=
  .step delivered_run (.write rfl (by decide +kernel) (by decide +kernel) (by decide +kernel))

end Sample

/-- The theorem at work: a crash before the finalization of block 6 starts resumes on
the genesis state. -/
theorem resumes_exactly_delivered :
    ResumesExactly Store.Sample.digest Store.Sample.trie Sample.delivered.written
      Sample.delivered.sink.env :=
  (resumes_exactly_iff Sample.delivered_run).2.1.mpr (by intro b hb; cases hb)

/-- The crash between commit and watermark: the resume point is the genesis at height 5,
where the account has balance 10, and the view for block 6 reads the balance block 6 left. -/
theorem resumes_one_block_ahead :
    WriterRun Store.Sample.digest Store.Sample.trie 5 Sample.crashed ∧
      (restart Sample.crashed.sink.env).1 = .ok ⟨5, none⟩ ∧
      valueAt Store.Sample.digest Store.Sample.trie Sample.crashed.written 5
          (.account Store.Sample.addr) = (some (Store.Sample.acct 10) : Option Account) ∧
      readKey Store.Sample.digest (restart Sample.crashed.sink.env).2 Sample.crashed.sink.env
          (Executor.new.viewAt Hash.zero) (.account Store.Sample.addr) =
        .ok (some (Store.Sample.acct 20) : Option Account) ∧
      ¬ ResumesExactly Store.Sample.digest Store.Sample.trie Sample.crashed.written
        Sample.crashed.sink.env := by
  have hres : (restart Sample.crashed.sink.env).1 = .ok ⟨5, none⟩ := by decide +kernel
  have hval : valueAt Store.Sample.digest Store.Sample.trie Sample.crashed.written 5
      (.account Store.Sample.addr) = (some (Store.Sample.acct 10) : Option Account) := by
    decide +kernel
  have hview : readKey Store.Sample.digest (restart Sample.crashed.sink.env).2
      Sample.crashed.sink.env (Executor.new.viewAt Hash.zero) (.account Store.Sample.addr) =
        .ok (some (Store.Sample.acct 20) : Option Account) := by
    decide +kernel
  refine ⟨Sample.crashed_run, hres, hval, hview, ?_⟩
  rintro ⟨a, ha, hexact⟩
  obtain rfl := Except.ok.inj (hres.symm.trans ha)
  have hsame := Except.ok.inj (hview.symm.trans (hexact Hash.zero _))
  rw [hval] at hsame
  exact absurd hsame (by decide)

end Flatstate.Node
