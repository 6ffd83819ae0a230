import Flatstate.Node.Tracker

set_option autoImplicit false

/-!
# Exec: where accepted diffs live (`follower/exec/exec.go`, `statedb.go`)

The accepted blocks of a chain are in the store, or, in a dry run over a store that does
not advance, folded into one cumulative layer.  The blocks above them are pending layers,
next to those of other forks.  Wherever the chain is cut, the view of its last block
reads the fold of the whole chain over the baseline.
-/

namespace Flatstate.Exec

open Foundation Schema Capture Store
open Mem (Extends)
open Node (Linked linked_append linked_block linked_of_concat)

/-! ## Code -/

/-- The code known after an op. -/
def addCode (codes : Hash → Option Bytes) : Op → Hash → Option Bytes
  | .code h c => Function.update codes h (some c)
  | _ => codes

/-- The code known after some blocks. -/
def foldCodes (bs : List Batch) (codes : Hash → Option Bytes) : Hash → Option Bytes :=
  (bs.flatMap Batch.ops).foldl addCode codes

/-- What a view finds under a code hash. -/
def View.known (env : Env) (v : View) (hash : Hash) : Option Bytes :=
  (v.layers.findSome? (fun l => l.codes hash)).or (row env (.code hash))

theorem code_eq (env : Env) (v : View) (hash : Hash) :
    v.code env hash =
      match v.known env hash with
      | some c => .ok c
      | none => .error (.codeNotFound hash) := by
  rw [View.code, View.known]
  cases v.layers.findSome? (fun l => l.codes hash) with
  | some c => rfl
  | none =>
    have hrow : row env (.code hash) = env.get (appendCodeKey [] hash) := rfl
    rw [Option.none_or, hrow]
    dsimp only [getCode]
    cases env.get (appendCodeKey [] hash) <;> rfl

theorem addCode_or (codes : Hash → Option Bytes) (op : Op) (hash : Hash) :
    addCode codes op hash = (addCode (fun _ => none) op hash).or (codes hash) := by
  cases op with
  | code h c =>
    rw [addCode, addCode]
    by_cases heq : hash = h
    · subst heq
      simp
    · simp [heq]
  | _ => rfl

/-- Ops add to what is known, the last one first. -/
theorem foldl_addCode (ops : List Op) (codes : Hash → Option Bytes) (hash : Hash) :
    ops.foldl addCode codes hash = (ops.foldl addCode (fun _ => none) hash).or (codes hash) := by
  induction ops using List.reverseRecOn with
  | nil => rfl
  | append_singleton ops op ih =>
    rw [List.foldl_append, List.foldl_append]
    dsimp only [List.foldl_cons, List.foldl_nil]
    rw [addCode_or, ih, addCode_or (ops.foldl addCode fun _ => none), Option.or_assoc]

theorem foldCodes_append (bs cs : List Batch) (codes : Hash → Option Bytes) :
    foldCodes (bs ++ cs) codes = foldCodes cs (foldCodes bs codes) := by
  simp [foldCodes]

theorem apply_codes (l : Layer) (ops : List Op) : (l.apply ops).codes = ops.foldl addCode l.codes := by
  rw [Layer.apply]
  induction ops generalizing l with
  | nil => rfl
  | cons op ops ih =>
    rw [List.foldl_cons, List.foldl_cons, ih]
    cases op <;> rfl

theorem row_writeBlock_code (env : Env) (b : Batch) (hash : Hash) :
    row (writeBlock env b) (.code hash) = foldCodes [b] (fun h => row env (.code h)) hash := by
  have hput : ∀ ops : List Op, row (putOps b.block ops env) (.code hash) =
      ops.foldl addCode (fun h => row env (.code h)) hash := by
    intro ops
    induction ops using List.reverseRecOn with
    | nil => rfl
    | append_singleton ops op ih =>
      rw [putOps_concat, putOp_eq, List.foldl_append]
      dsimp only [List.foldl_cons, List.foldl_nil]
      cases op with
      | code h c =>
        by_cases heq : hash = h
        · subst heq
          have hrow : Row.code hash = Op.row b.block (.code hash c) := rfl
          rw [row_put, if_pos hrow, addCode, Function.update_self]
          rfl
        · have hne : Row.code hash ≠ Op.row b.block (.code h c) := by
            simpa [Op.row] using heq
          rw [row_put_of_ne _ _ hne, ih, addCode, Function.update_of_ne heq]
      | _ =>
        rw [row_put_of_ne _ _ (by simp [Op.row])]
        exact ih
  have hdiff : row (writeBlock env b) (.code hash) = row (putOps b.block b.ops env) (.code hash) :=
    row_put_of_ne _ _ (r := .diff b.block) (by simp)
  rw [hdiff, hput, foldCodes, List.flatMap_singleton]

/-- The layers of some batches, newest first, on top of others. -/
theorem known_append_layers (env : Env) (ls : List Layer) (bs : List Batch) (hash : Hash) :
    View.known env ⟨(bs.map newLayer).reverse ++ ls⟩ hash =
      foldCodes bs (View.known env ⟨ls⟩) hash := by
  induction bs using List.reverseRecOn with
  | nil => rfl
  | append_singleton bs b ih =>
    have hb : foldCodes [b] (foldCodes bs (View.known env ⟨ls⟩)) hash =
        ((newLayer b).codes hash).or (foldCodes bs (View.known env ⟨ls⟩) hash) := by
      rw [foldCodes, List.flatMap_singleton, foldl_addCode, newLayer, apply_codes]
      rfl
    rw [foldCodes_append, hb, ← ih, List.map_append, List.reverse_append]
    simp only [View.known, List.map_singleton, List.reverse_singleton, List.cons_append,
      List.findSome?_cons]
    cases (newLayer b).codes hash <;> rfl

/-! ## Runs -/

/-- A process with an executor: its store and handle, and the executor. -/
structure Process where
  env : Env
  handle : Handle
  exec : Executor

/-- What the executor of a process reaches on a store with a finished baseline, the blocks
`bs` and the code `codes`: blocks of the kind `Tag` above the finalized height are
executed, on any fork, and the blocks of the last argument have become final.  A dry run
folds them, a live one writes them to the store first. -/
inductive SplitRun (keccak : Bytes → Hash) (base : Trie) (S : UInt64) (Tag : Batch → Prop)
    (bs : List Batch) (codes : Hash → Option Bytes) (dry : Bool) :
    Process → List Batch → Prop where
  | init {w : Site} (hw : Built keccak base S w bs) (hset : row w.env .baselineComplete ≠ none)
      (hcodes : ∀ h, row w.env (.code h) = codes h) (headers : List (Hash × UInt64)) :
      SplitRun keccak base S Tag bs codes dry
        ⟨w.env, w.writer, Executor.new.seedHeaders headers⟩ []
  | sees {p : Process} {since : List Batch} {h : Handle}
      (hp : SplitRun keccak base S Tag bs codes dry p since)
      (hh : h = (genesis p.handle p.env).2 ∨ h = (baselineComplete p.handle p.env).2) :
      SplitRun keccak base S Tag bs codes dry { p with handle := h } since
  | record {p : Process} {since : List Batch} {b : Batch}
      (hp : SplitRun keccak base S Tag bs codes dry p since) (hT : Tag b)
      (habove : S.toNat + bs.length + since.length < b.block.toNat) :
      SplitRun keccak base S Tag bs codes dry { p with exec := p.exec.record b } since
  | write {p : Process} {since : List Batch} {b : Batch}
      (hp : SplitRun keccak base S Tag bs codes dry p since) (hd : dry = false)
      (hb : Extends keccak base S (bs ++ since) [b]) :
      SplitRun keccak base S Tag bs codes dry
        ⟨writeBlock p.env b, p.handle, p.exec.onFinalized b.block⟩ (since ++ [b])
  | fold {p : Process} {since : List Batch} {b : Batch}
      (hp : SplitRun keccak base S Tag bs codes dry p since) (hd : dry = true)
      (hb : Extends keccak base S (bs ++ since) [b]) :
      SplitRun keccak base S Tag bs codes dry { p with exec := p.exec.foldFinalized b }
        (since ++ [b])

/-- The blocks of a run that are in the store. -/
def stored (dry : Bool) (since : List Batch) : List Batch := if dry then [] else since

/-- The blocks of a run that are folded. -/
def folded (dry : Bool) (since : List Batch) : List Batch := if dry then since else []

/-- Some blocks as one. -/
def merged (bs : List Batch) : Batch where
  block := 0
  hash := Hash.zero
  parent := Hash.zero
  time := 0
  ops := bs.flatMap Batch.ops

theorem merged_apply (bs : List Batch) (σ : State) : (merged bs).apply σ = foldBatches bs σ := by
  induction bs using List.reverseRecOn with
  | nil => rfl
  | append_singleton bs b ih =>
    rw [foldBatches_concat, ← ih, Batch.apply, Batch.apply, Batch.apply, ← Diff.applyAll_append,
      ← List.map_append]
    simp [merged]

/-- What holds in every state of a run. -/
structure SplitInv (keccak : Bytes → Hash) (base : Trie) (S : UInt64) (Tag : Batch → Prop)
    (bs : List Batch) (codes : Hash → Option Bytes) (dry : Bool) (p : Process)
    (since : List Batch) : Prop where
  refines : Refines keccak base S (bs ++ stored dry since) p.env
  coherent : Coherent p.handle p.env
  contract : ContractChain (base.state keccak) (bs ++ stored dry since)
  complete : row p.env .baselineComplete ≠ none
  codes : ∀ h, row p.env (.code h) = foldCodes (stored dry since) codes h
  dryBase : p.exec.dryBase =
    if folded dry since = [] then none else some (newLayer (merged (folded dry since)))
  /-- the layers are of blocks above the finalized height -/
  pending : ∀ h l, p.exec.pending.get h = some l → ∃ b, Tag b ∧ b.hash = h ∧ l = newLayer b ∧
    S.toNat + bs.length + since.length < b.block.toNat

section Runs

variable {keccak : Bytes → Hash} {base : Trie} {S : UInt64} {Tag : Batch → Prop}
  {bs : List Batch} {codes : Hash → Option Bytes} {dry : Bool} {p : Process} {since : List Batch}

theorem stored_append_folded (dry : Bool) (since : List Batch) :
    stored dry since ++ folded dry since = since := by
  cases dry <;> simp [stored, folded]

theorem SplitInv.init {w : Site} (hw : Built keccak base S w bs)
    (hset : row w.env .baselineComplete ≠ none) (hcodes : ∀ h, row w.env (.code h) = codes h)
    (headers : List (Hash × UInt64)) :
    SplitInv keccak base S Tag bs codes dry ⟨w.env, w.writer, Executor.new.seedHeaders headers⟩ [] := by
  have hs := hw.inv
  have hst : stored dry [] = [] := by cases dry <;> rfl
  have hfo : folded dry [] = [] := by cases dry <;> rfl
  refine ⟨?_, hs.writer, ?_, hset, ?_, ?_, fun h l hl => ?_⟩
  · rw [hst, List.append_nil]
    exact hs.refines
  · rw [hst, List.append_nil]
    exact hs.chain
  · rw [hst]
    exact hcodes
  · rw [hfo]
    rfl
  · cases hl

/-- The layers that are left when a block becomes final. -/
theorem SplitInv.pending_prune (h : SplitInv keccak base S Tag bs codes dry p since) {b : Batch}
    (hb : Extends keccak base S (bs ++ since) [b]) {e : Executor}
    (he : e.pending = p.exec.pending) :
    ∀ k l, (e.prune b.block).pending.get k = some l → ∃ b', Tag b' ∧ b'.hash = k ∧
      l = newLayer b' ∧ S.toNat + bs.length + (since ++ [b]).length < b'.block.toNat := by
  intro k l hl
  have hnum := hb.numbers 0 b rfl
  dsimp only [Executor.prune] at hl
  rw [Table.get_keep, Option.filter_eq_some_iff, he] at hl
  obtain ⟨hl, hkeep⟩ := hl
  obtain ⟨b', hT, hk, rfl, -⟩ := h.pending k l hl
  refine ⟨b', hT, hk, rfl, ?_⟩
  have hlt : b.block < b'.block := by
    have hle : ¬ (newLayer b').block ≤ b.block := by simpa using hkeep
    rw [(newLayer_block_parent b').1] at hle
    exact UInt64.not_le.mp hle
  rw [UInt64.lt_iff_toNat_lt] at hlt
  rw [List.length_append] at hnum
  rw [List.length_append, List.length_singleton]
  omega

theorem SplitInv.record (h : SplitInv keccak base S Tag bs codes dry p since) {b : Batch}
    (hT : Tag b) (habove : S.toNat + bs.length + since.length < b.block.toNat) :
    SplitInv keccak base S Tag bs codes dry { p with exec := p.exec.record b } since := by
  refine { h with pending := fun k l hl => ?_ }
  dsimp only [Executor.record] at hl
  rw [Table.get_set] at hl
  split at hl
  · rename_i hk
    exact ⟨b, hT, hk.symm, (Option.some.inj hl).symm, habove⟩
  · exact h.pending k l hl

theorem SplitInv.write (h : SplitInv keccak base S Tag bs codes dry p since) (hd : dry = false)
    {b : Batch} (hb : Extends keccak base S (bs ++ since) [b]) :
    SplitInv keccak base S Tag bs codes dry
      ⟨writeBlock p.env b, p.handle, p.exec.onFinalized b.block⟩ (since ++ [b]) := by
  subst hd
  have hr : Refines keccak base S (bs ++ since) p.env := h.refines
  have hr' := hr.writeBlock (hb.numbers 0 b rfl)
  have hother : row (writeBlock p.env b) .baselineComplete = row p.env .baselineComplete :=
    row_writeBlock_other _ _ (by simp) (by simp) (by simp)
  refine ⟨?_, h.coherent.of_rows (hr'.genesis.trans hr.genesis.symm) ?_, ?_, ?_, fun k => ?_,
    h.dryBase, h.pending_prune hb rfl⟩
  · show Refines keccak base S (bs ++ (since ++ [b])) (writeBlock p.env b)
    rw [← List.append_assoc]
    exact hr'
  · rw [hother]
    exact id
  · show ContractChain (base.state keccak) (bs ++ (since ++ [b]))
    rw [← List.append_assoc]
    exact ContractChain.append.mpr ⟨h.contract, hb.contract⟩
  · rw [hother]
    exact h.complete
  · show row (writeBlock p.env b) (.code k) = foldCodes (since ++ [b]) codes k
    rw [row_writeBlock_code, foldCodes_append]
    exact congrArg (fun c => foldCodes [b] c k) (funext h.codes)

theorem SplitInv.fold (h : SplitInv keccak base S Tag bs codes dry p since) (hd : dry = true)
    {b : Batch} (hb : Extends keccak base S (bs ++ since) [b]) :
    SplitInv keccak base S Tag bs codes dry { p with exec := p.exec.foldFinalized b }
      (since ++ [b]) := by
  subst hd
  refine ⟨h.refines, h.coherent, h.contract, h.complete, h.codes, ?_, h.pending_prune hb rfl⟩
  have hbase := h.dryBase
  have hlayer : p.exec.dryBase.getD (Layer.empty 0 Hash.zero) = newLayer (merged since) := by
    rw [hbase]
    by_cases hnil : since = []
    · subst hnil
      rfl
    · exact congrArg (fun o => Option.getD o (Layer.empty 0 Hash.zero)) (if_neg hnil)
  have hmerge : (newLayer (merged since)).apply b.ops = newLayer (merged (since ++ [b])) := by
    simp [newLayer, Layer.apply, merged]
  show some ((p.exec.dryBase.getD (Layer.empty 0 Hash.zero)).apply b.ops) =
    if since ++ [b] = [] then none else some (newLayer (merged (since ++ [b])))
  rw [hlayer, hmerge, if_neg (by simp)]

theorem SplitRun.inv (h : SplitRun keccak base S Tag bs codes dry p since) :
    SplitInv keccak base S Tag bs codes dry p since := by
  induction h with
  | init hw hset hcodes headers => exact SplitInv.init hw hset hcodes headers
  | sees hp hh ih =>
    rcases hh with rfl | rfl
    · exact { ih with coherent := ih.coherent.genesis_snd ih.refines.genesis }
    · exact { ih with coherent := ih.coherent.complete_snd }
  | record hp hT habove ih => exact ih.record hT habove
  | write hp hd hb ih => exact ih.write hd hb
  | fold hp hd hb ih => exact ih.fold hd hb

/-- Below the pending layers the view reads the finalized blocks. -/
theorem SplitInv.reads (h : SplitInv keccak base S Tag bs codes dry p since) (k : Key) :
    readKey keccak p.handle p.env ⟨p.exec.dryBase.toList⟩ k =
      .ok (foldBatches (bs ++ since) (base.state keccak) k) := by
  have hstore := readKey_nil h.refines h.coherent h.contract h.complete
  rw [h.dryBase]
  have hsplit : foldBatches (bs ++ since) (base.state keccak) =
      foldBatches (folded dry since) (foldBatches (bs ++ stored dry since) (base.state keccak)) := by
    rw [← foldBatches_append, List.append_assoc, stored_append_folded]
  rw [hsplit]
  by_cases hnil : folded dry since = []
  · rw [if_pos hnil, hnil]
    exact hstore k
  · rw [if_neg hnil, ← merged_apply]
    exact readKey_append_layers hstore [merged (folded dry since)] k

theorem SplitInv.known (h : SplitInv keccak base S Tag bs codes dry p since) (hash : Hash) :
    View.known p.env ⟨p.exec.dryBase.toList⟩ hash = foldCodes since codes hash := by
  have hstore : View.known p.env ⟨[]⟩ = foldCodes (stored dry since) codes := funext h.codes
  rw [h.dryBase]
  have hsplit : foldCodes since codes =
      foldCodes (folded dry since) (foldCodes (stored dry since) codes) := by
    rw [← foldCodes_append, stored_append_folded]
  rw [hsplit, ← hstore]
  by_cases hnil : folded dry since = []
  · rw [if_pos hnil, hnil]
    rfl
  · have hmerge : foldCodes [merged (folded dry since)] (View.known p.env ⟨[]⟩) =
        foldCodes (folded dry since) (View.known p.env ⟨[]⟩) := by
      simp [foldCodes, merged]
    rw [if_neg hnil, ← hmerge]
    exact known_append_layers p.env [] [merged (folded dry since)] hash

end Runs

/-! ## Cuts -/

/-- A cut of a chain: some blocks are final, live or in a dry run, and the others are
pending layers, next to whatever else was executed. -/
structure Split (keccak : Bytes → Hash) (base : Trie) (S : UInt64) (Tag : Batch → Prop)
    (bs : List Batch) (codes : Hash → Option Bytes) (chain : List Batch) where
  dry : Bool
  process : Process
  final : List Batch
  held : List Batch
  run : SplitRun keccak base S Tag bs codes dry process final
  layers : ∀ b ∈ held, process.exec.pending.get b.hash = some (newLayer b)
  cut : final ++ held = chain

/-- The hash of the last block of a chain on `root`. -/
def tipOf (root : Hash) (chain : List Batch) : Hash := (chain.getLast?.map Batch.hash).getD root

section Cuts

variable {keccak : Bytes → Hash} {base : Trie} {S : UInt64} {Tag : Batch → Prop} {root : Hash}
  {bs : List Batch} {codes : Hash → Option Bytes} {chain : List Batch} {num : Hash → Nat}

/-- `viewAt` of the last block. -/
def Split.view (x : Split keccak base S Tag bs codes chain) (root : Hash) : View :=
  x.process.exec.viewAt (tipOf root chain)

def Split.readKey (x : Split keccak base S Tag bs codes chain) (root : Hash) :
    (k : Key) → Except Err (Val k) :=
  Exec.readKey keccak x.process.handle x.process.env (x.view root)

theorem tipOf_concat (root : Hash) (chain : List Batch) (b : Batch) :
    tipOf root (chain ++ [b]) = b.hash := by
  simp [tipOf]

theorem tipOf_append (root : Hash) (cs ds : List Batch) :
    tipOf root (cs ++ ds) = tipOf (tipOf root cs) ds := by
  induction ds using List.reverseRecOn with
  | nil =>
    rw [List.append_nil]
    rfl
  | append_singleton ds b _ => rw [← List.append_assoc, tipOf_concat, tipOf_concat]

/-- The number of the last block. -/
theorem num_tipOf (hnum : ∀ b, Tag b → b.block.toNat = num b.hash ∧ num b.hash = num b.parent + 1)
    {n : Nat} (hroot : num root = n) (hT : ∀ b ∈ chain, Tag b) (hl : Linked root n chain) :
    num (tipOf root chain) = n + chain.length := by
  cases chain using List.reverseRecOn with
  | nil => exact hroot
  | append_singleton chain b =>
    obtain ⟨-, -, hb⟩ := linked_of_concat hl
    rw [tipOf_concat, ← (hnum b (hT b (by simp))).1, hb, List.length_append]
    rfl

/-- The layers of a linked chain are a path to its root. -/
theorem path_of_layers {e : Executor} {n : Nat}
    (hlayers : ∀ b ∈ chain, e.pending.get b.hash = some (newLayer b))
    (hroot : e.pending.get root = none) (hl : Linked root n chain) :
    e.pending.Path Layer.parent root (tipOf root chain)
      (chain.map (fun b => (b.hash, newLayer b))).reverse := by
  induction chain using List.reverseRecOn with
  | nil => exact .root
  | append_singleton chain b ih =>
    obtain ⟨hchain, hpar, -⟩ := linked_of_concat hl
    have hb := hlayers b (by simp)
    have hne : b.hash ≠ root := by
      rintro heq
      rw [heq, hroot] at hb
      cases hb
    have hpath := ih (fun b hb => hlayers b (List.mem_append_left _ hb)) hchain
    rw [tipOf_concat, List.map_append, List.reverse_append]
    refine .step hne hb ?_
    rw [(newLayer_block_parent b).2, hpar]
    exact hpath

/-- The view has the layers of the held blocks and no others. -/
theorem Split.view_eq (x : Split keccak base S Tag bs codes chain)
    (hnum : ∀ b, Tag b → b.block.toNat = num b.hash ∧ num b.hash = num b.parent + 1)
    (hroot : num root = S.toNat + bs.length) (hT : ∀ b ∈ chain, Tag b)
    (hl : Linked root (S.toNat + bs.length) chain) :
    x.view root = ⟨(x.held.map newLayer).reverse ++ x.process.exec.dryBase.toList⟩ := by
  have hi := x.run.inv
  have hchain := x.cut
  rw [← hchain] at hl hT
  obtain ⟨hfinal, hheld⟩ := linked_append hl
  have htip := num_tipOf hnum hroot (fun b hb => hT b (List.mem_append_left _ hb)) hfinal
  have hnone : x.process.exec.pending.get (tipOf root x.final) = none := by
    cases hget : x.process.exec.pending.get (tipOf root x.final) with
    | none => rfl
    | some l =>
      -- a layer under the hash of the last final block would be of that block's number
      obtain ⟨b, hbT, hbh, -, hlt⟩ := hi.pending _ l hget
      rw [(hnum b hbT).1, hbh, htip] at hlt
      omega
  have hpath := path_of_layers x.layers hnone hheld
  have hdec : ∀ k l l', x.process.exec.pending.get k = some l →
      x.process.exec.pending.get l.parent = some l' → l'.block.toNat < l.block.toNat := by
    intro k l l' hk hk'
    obtain ⟨b, hbT, -, rfl, -⟩ := hi.pending k l hk
    obtain ⟨b', hbT', hbh', rfl, -⟩ := hi.pending _ l' hk'
    rw [(newLayer_block_parent b).2] at hbh'
    rw [(newLayer_block_parent b).1, (newLayer_block_parent b').1, (hnum b hbT).1,
      (hnum b' hbT').1, hbh']
    have := (hnum b hbT).2
    omega
  have hlen := hpath.length_le_size (fun l => l.block.toNat) hdec
  have hwalk := walk_of_path hpath hnone hlen
  have htipOf : tipOf root chain = tipOf (tipOf root x.final) x.held := by
    rw [← tipOf_append, hchain]
  rw [Split.view, Executor.viewAt, htipOf, hwalk]
  simp [List.map_reverse, Function.comp_def]

/-- What a cut reads. -/
theorem Split.reads (x : Split keccak base S Tag bs codes chain)
    (hnum : ∀ b, Tag b → b.block.toNat = num b.hash ∧ num b.hash = num b.parent + 1)
    (hroot : num root = S.toNat + bs.length) (hT : ∀ b ∈ chain, Tag b)
    (hl : Linked root (S.toNat + bs.length) chain) :
    (∀ k, x.readKey root k = .ok (foldBatches (bs ++ chain) (base.state keccak) k)) ∧
      ∀ hash, (x.view root).known x.process.env hash = foldCodes chain codes hash := by
  have hi := x.run.inv
  have hview := x.view_eq hnum hroot hT hl
  refine ⟨fun k => ?_, fun hash => ?_⟩
  · have hread := readKey_append_layers hi.reads x.held k
    rw [Split.readKey, hview, hread, ← foldBatches_append, List.append_assoc, x.cut]
  · rw [hview, known_append_layers, funext hi.known, ← foldCodes_append, x.cut]

end Cuts

/-- However a chain on a finished baseline is cut, live or in a dry run, next to any other
forks: the view of its last block reads the fold of the whole chain, so any two cuts read
the same. -/
theorem view_independent_of_cut {keccak : Bytes → Hash} {base : Trie} {S : UInt64}
    {Tag : Batch → Prop} {root : Hash} {bs : List Batch} {codes : Hash → Option Bytes}
    {chain : List Batch} {num : Hash → Nat}
    (hnum : ∀ b, Tag b → b.block.toNat = num b.hash ∧ num b.hash = num b.parent + 1)
    (hroot : num root = S.toNat + bs.length) (hT : ∀ b ∈ chain, Tag b)
    (hl : Linked root (S.toNat + bs.length) chain) :
    (∀ x : Split keccak base S Tag bs codes chain,
      (∀ k, x.readKey root k = .ok (foldBatches (bs ++ chain) (base.state keccak) k)) ∧
      ∀ hash c, foldCodes chain codes hash = some c →
        (x.view root).code x.process.env hash = .ok c) ∧
    ∀ x x' : Split keccak base S Tag bs codes chain,
      (∀ k, x.readKey root k = x'.readKey root k) ∧
      ∀ hash, (x.view root).code x.process.env hash = (x'.view root).code x'.process.env hash := by
  refine ⟨fun x => ?_, fun x x' => ?_⟩
  · obtain ⟨hread, hcode⟩ := x.reads hnum hroot hT hl
    refine ⟨hread, fun hash c hc => ?_⟩
    rw [code_eq, hcode, hc]
  · obtain ⟨hread, hcode⟩ := x.reads hnum hroot hT hl
    obtain ⟨hread', hcode'⟩ := x'.reads hnum hroot hT hl
    refine ⟨fun k => (hread k).trans (hread' k).symm, fun hash => ?_⟩
    rw [code_eq, code_eq, hcode, hcode']

/-! ### Block 6 final and block 7 pending, live and in a dry run -/

namespace Sample

open Store.Sample Mem.Sample

/-- A sibling of block 6. -/
def sibling : Batch where
  block := 6
  hash := FixedBytes.ofNat 32 61
  parent := FixedBytes.ofNat 32 5
  time := 6000
  ops := [.account addr (acct 99)]

def numbers (h : Hash) : Nat :=
  if h = block7.hash then 7 else if h = block6.hash ∨ h = sibling.hash then 6 else 5

/-- The blocks executed. -/
def Executed (b : Batch) : Prop := b = block6 ∨ b = block7 ∨ b = sibling

theorem executed_numbers (b : Batch) (hb : Executed b) :
    b.block.toNat = numbers b.hash ∧ numbers b.hash = numbers b.parent + 1 := by
  rcases hb with rfl | rfl | rfl <;> decide

def codes (h : Hash) : Option Bytes := row finished.env (.code h)

/-- All three are executed. -/
def executed : Process :=
  ⟨finished.env, finished.writer,
    (((Executor.new.seedHeaders []).record block6).record block7).record sibling⟩

theorem executed_run (dry : Bool) : SplitRun digest trie 5 Executed [] codes dry executed [] := by
  have h0 : SplitRun digest trie 5 Executed [] codes dry
      ⟨finished.env, finished.writer, Executor.new.seedHeaders []⟩ [] :=
    .init finished_built (by decide) (fun _ => rfl) []
  have h6 := h0.record (b := block6) (Or.inl rfl) (by decide)
  have h7 := h6.record (b := block7) (Or.inr (Or.inl rfl)) (by decide)
  exact h7.record (Or.inr (Or.inr rfl)) (by decide)

theorem block6_extends : Extends digest trie 5 ([] ++ []) [block6] := by
  refine ⟨fun n b hn => ?_, ⟨block6_contract _, trivial⟩⟩
  cases n with
  | zero =>
    obtain rfl : block6 = b := by simpa using hn
    rfl
  | succ n => simp at hn

/-- Block 6 is in the store. -/
def live : Split digest trie 5 Executed [] codes [block6, block7] where
  dry := false
  process := ⟨writeBlock executed.env block6, executed.handle, executed.exec.onFinalized block6.block⟩
  final := [block6]
  held := [block7]
  run := (executed_run false).write rfl block6_extends
  layers b hb := by
    obtain rfl := List.mem_singleton.mp hb
    rfl
  cut := rfl

/-- Block 6 is folded. -/
def dryRun : Split digest trie 5 Executed [] codes [block6, block7] where
  dry := true
  process := { executed with exec := executed.exec.foldFinalized block6 }
  final := [block6]
  held := [block7]
  run := (executed_run true).fold rfl block6_extends
  layers b hb := by
    obtain rfl := List.mem_singleton.mp hb
    rfl
  cut := rfl

end Sample

/-- The theorem at work: the two cuts read the same, and the fold of both blocks. -/
theorem view_independent_of_cut_dry :
    (∀ k, Sample.live.readKey Store.Sample.block6.parent k =
      Sample.dryRun.readKey Store.Sample.block6.parent k) ∧
    Sample.dryRun.readKey Store.Sample.block6.parent (.slot Store.Sample.addr Store.Sample.slot1) =
      .ok (foldBatches [Store.Sample.block6, Mem.Sample.block7]
        (Store.Sample.trie.state Store.Sample.digest) (.slot Store.Sample.addr Store.Sample.slot1)) := by
  have hT : ∀ b ∈ [Store.Sample.block6, Mem.Sample.block7], Sample.Executed b := by
    intro b hb
    rcases List.mem_cons.mp hb with rfl | hb
    · exact Or.inl rfl
    · exact Or.inr (Or.inl (List.mem_singleton.mp hb))
  have hl : Linked Store.Sample.block6.parent ((5 : UInt64).toNat + ([] : List Batch).length)
      [Store.Sample.block6, Mem.Sample.block7] := ⟨rfl, rfl, rfl, rfl, trivial⟩
  have hroot : Sample.numbers Store.Sample.block6.parent =
      (5 : UInt64).toNat + ([] : List Batch).length := by decide
  exact ⟨((view_independent_of_cut Sample.executed_numbers hroot hT hl).2 Sample.live Sample.dryRun).1,
    ((view_independent_of_cut Sample.executed_numbers hroot hT hl).1 Sample.dryRun).1 _⟩

end Flatstate.Exec
