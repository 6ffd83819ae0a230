import Flatstate.Node.Sink

set_option autoImplicit false

/-!
# Node: the writer process, step by step

The writer is a transition system: executors read through the tip view, calls of the
sink succeed, and `Sink.Finalize` takes one of its steps at a time.  Other processes, and
crashes, see the state between any two steps.

Every state of it is a state of the tip view's own system (`Mem.TipRun`); what is new is
where the other parties stand.  With `fin` for the blocks the bus has announced as final,
the store, the base of the view, the watermark and the bus are each at `fin` or one block
further, as the stage says.
-/

namespace Flatstate.Node

open Foundation Schema Capture Store Tipbus

/-! ## States -/

/-- Where the writer is inside `Sink.Finalize`. -/
inductive Stage where
  /-- between calls of the sink -/
  | idle
  | written (b : Batch)
  | folded (b : Batch)
  | marked (b : Batch)
  deriving DecidableEq

namespace Stage

/-- The block in the store that the bus has not announced. -/
def commits : Stage → List Batch
  | idle => []
  | written b | folded b | marked b => [b]

/-- The block folded into the tip view that the bus has not announced. -/
def folds : Stage → List Batch
  | idle | written _ => []
  | folded b | marked b => [b]

/-- The block under the watermark that the bus has not announced. -/
def marks : Stage → List Batch
  | idle | written _ | folded _ => []
  | marked b => [b]

/-- The block in the store that is not under the watermark. -/
def ahead : Stage → List Batch
  | idle | marked _ => []
  | written b | folded b => [b]

theorem marks_append_ahead (s : Stage) : s.marks ++ s.ahead = s.commits := by
  cases s <;> rfl

end Stage

/-- The writer process: its sink and the handle of its store, the slot reads in flight,
where it is, the blocks announced as final and the events published. -/
structure Writer where
  sink : Sink
  handle : Handle
  inflight : List (Nat × Address)
  stage : Stage
  fin : List Batch
  evs : List Event

/-- The blocks in the store. -/
def Writer.written (w : Writer) : List Batch := w.fin ++ w.stage.commits

/-- The blocks under the watermark. -/
def Writer.done (w : Writer) : List Batch := w.fin ++ w.stage.marks

/-- The writer process as a tip view over its store. -/
def Writer.tip (w : Writer) : Mem.Tip :=
  ⟨w.sink.env, w.handle, w.sink.st, w.inflight, w.fin ++ w.stage.folds, w.written⟩

/-! ## Steps -/

/-- The steps of the writer process: reads of its executors, calls of the sink that
succeed, and the single steps of `Sink.Finalize` for the oldest layer. -/
inductive WriterStep (keccak : Bytes → Hash) (base : Trie) (S : UInt64) :
    Writer → Writer → Prop where
  | read {w : Writer} {st : Mem.State} {q : List (Nat × Address)}
      (hs : Mem.ReadStep keccak w.handle w.sink.env (fun _ => True) w.sink.st w.inflight st q) :
      WriterStep keccak base S w { w with sink := { w.sink with st := st }, inflight := q }
  | sees {w : Writer} {h : Handle}
      (hh : h = (genesis w.handle w.sink.env).2 ∨ h = (baselineComplete w.handle w.sink.env).2) :
      WriterStep keccak base S w { w with handle := h }
  | block {w : Writer} {b : Batch} (hi : w.stage = .idle) (hq : w.inflight = [])
      (hb : Mem.Extends keccak base S (w.fin ++ w.sink.st.batches) [b])
      (hok : (w.sink.block none b).1 = .ok ()) :
      WriterStep keccak base S w
        { w with sink := (w.sink.block none b).2, evs := w.evs ++ [.block b] }
  | preferenceReset {w : Writer} {preferred : List Batch} (hi : w.stage = .idle)
      (hq : w.inflight = []) (hb : Mem.Extends keccak base S w.fin preferred)
      (hok : (w.sink.preferenceReset none preferred).1 = .ok ()) :
      WriterStep keccak base S w
        { w with
          sink := (w.sink.preferenceReset none preferred).2
          evs := w.evs ++ [.reset preferred] }
  /-- `Sink.Finalize` of the oldest layer starts; LMDB accepts its diff row -/
  | write {w : Writer} {b : Batch} (hi : w.stage = .idle)
      (hb : w.sink.st.batches.head? = some b)
      (hc : w.sink.finalizeCheck b.block b.hash = .ok b) (hfit : (b.encode []).length < 2 ^ 32) :
      WriterStep keccak base S w { w with sink := w.sink.finalizeWrite b, stage := .written b }
  | fold {w : Writer} {b : Batch} (hi : w.stage = .written b) (hq : w.inflight = []) :
      WriterStep keccak base S w
        { w with sink := (w.sink.finalizeFold b.block b.hash).2, stage := .folded b }
  | mark {w : Writer} {b : Batch} (hi : w.stage = .folded b) :
      WriterStep keccak base S w
        { w with sink := w.sink.finalizeMark b.block, stage := .marked b }
  | publish {w : Writer} {b : Batch} (hi : w.stage = .marked b)
      (hok : (w.sink.finalizePublish none b.block b.hash).1 = .ok ()) :
      WriterStep keccak base S w
        { w with
          sink := (w.sink.finalizePublish none b.block b.hash).2
          stage := .idle
          fin := w.fin ++ [b]
          evs := w.evs ++ [.finalize b.block b.hash] }

/-- The watermark says that the blocks `bs` are final. -/
def Watermark (S : UInt64) (bs : List Batch) (env : Env) : Prop :=
  row env .finalized = if bs = [] then none else some (beBytes (height S bs.length))

/-- The runs of the writer process.  It opens a store with a finished baseline whose
blocks are all under the watermark, with a new view and a truncated bus. -/
inductive WriterRun (keccak : Bytes → Hash) (base : Trie) (S : UInt64) : Writer → Prop where
  | init {site : Site} {bs : List Batch} (hb : Built keccak base S site bs)
      (hset : row site.env .baselineComplete ≠ none) (hm : Watermark S bs site.env)
      (hfit : ∀ b ∈ bs, (b.encode []).length < 2 ^ 32) (f : Option UInt64) :
      WriterRun keccak base S
        ⟨newSink site.env (Mem.State.new f) openWriter, site.writer, [], .idle, bs, []⟩
  | step {w w' : Writer} (hw : WriterRun keccak base S w) (hs : WriterStep keccak base S w w') :
      WriterRun keccak base S w'

/-! ## The invariant -/

/-- What holds in every state of the writer. -/
structure WriterInv (keccak : Bytes → Hash) (base : Trie) (S : UInt64) (w : Writer) : Prop where
  tip : Mem.TipRun keccak base S w.tip
  carries : Carries w.sink.bus w.evs
  /-- the bus and the view agree on the chain above the announced blocks -/
  layers : w.sink.bus.layers = w.stage.folds ++ w.sink.st.batches
  watermark : Watermark S w.done w.sink.env
  complete : row w.sink.env .baselineComplete ≠ none
  fits : ∀ b ∈ w.written, (b.encode []).length < 2 ^ 32
  /-- writing the block that is not under the watermark again changes nothing -/
  rewrites : ∀ b ∈ w.stage.ahead, writeBlock w.sink.env b = w.sink.env

variable {keccak : Bytes → Hash} {base : Trie} {S : UInt64} {w w' : Writer}

theorem row_setFinalized (env : Env) (h : UInt64) {r : Row} (hr : r ≠ .finalized) :
    row (setFinalized env h) r = row env r :=
  row_put_of_ne env (beBytes h) hr

namespace WriterInv

/-- A call of the sink between finalizations, given what it does to the view. -/
theorem of_called (hi : WriterInv keccak base S w) (hidle : w.stage = .idle) {st : Mem.State}
    {ev : Event} {layers : List Batch} {finalized : UInt64} {s : Sink}
    (hc : Called w.sink st (w.evs ++ [ev]) layers finalized s) (hl : layers = st.batches)
    (ht : Mem.TipRun keccak base S { w.tip with st := st }) :
    WriterInv keccak base S { w with sink := s, evs := w.evs ++ [ev] } := by
  obtain ⟨env, st', bus, pending⟩ := s
  obtain ⟨henv, hst, hcar, hlay, -⟩ := hc
  dsimp only at henv hst hcar hlay
  subst henv hst
  refine ⟨ht, hcar, ?_, hi.watermark, hi.complete, hi.fits, hi.rewrites⟩
  dsimp only
  rw [hlay, hl, hidle]
  rfl

theorem read (hi : WriterInv keccak base S w) {st : Mem.State} {q : List (Nat × Address)}
    (hs : Mem.ReadStep keccak w.handle w.sink.env (fun _ => True) w.sink.st w.inflight st q) :
    WriterInv keccak base S { w with sink := { w.sink with st := st }, inflight := q } := by
  refine { hi with tip := hi.tip.read hs, layers := ?_ }
  dsimp only
  rw [hi.layers, Mem.State.batches, Mem.State.batches, hs.layers]

theorem init {site : Site} {bs : List Batch} (hb : Built keccak base S site bs)
    (hset : row site.env .baselineComplete ≠ none) (hm : Watermark S bs site.env)
    (hfit : ∀ b ∈ bs, (b.encode []).length < 2 ^ 32) (f : Option UInt64) :
    WriterInv keccak base S
      ⟨newSink site.env (Mem.State.new f) openWriter, site.writer, [], .idle, bs, []⟩ := by
  refine ⟨?_, carries_openWriter, rfl, ?_, hset, ?_, by simp [Stage.ahead]⟩
  · rw [Writer.tip, Writer.written, Stage.folds, Stage.commits, List.append_nil]
    exact .init hb f
  · rw [Writer.done, Stage.marks, List.append_nil]
    exact hm
  · rw [Writer.written, Stage.commits, List.append_nil]
    exact hfit

theorem block (hi : WriterInv keccak base S w) {b : Batch} (hidle : w.stage = .idle)
    (hq : w.inflight = []) (hb : Mem.Extends keccak base S (w.fin ++ w.sink.st.batches) [b])
    (hok : (w.sink.block none b).1 = .ok ()) :
    WriterInv keccak base S
      { w with sink := (w.sink.block none b).2, evs := w.evs ++ [.block b] } := by
  have htip := hi.tip
  have hfin : w.tip.fin = w.fin := by simp [Writer.tip, hidle, Stage.folds]
  have hl : w.sink.bus.layers = w.sink.st.batches := by
    rw [hi.layers, hidle]
    rfl
  have hlay : (w.sink.st.applyBlock b).batches = w.sink.st.batches ++ [b] := by
    refine Mem.batches_of_layers ?_
    have hlayers : w.sink.st.layers = w.sink.st.batches.map Mem.newLayer := hi.tip.chain.layers
    rw [Mem.layers_applyBlock, List.map_append, ← hlayers]
    rfl
  refine hi.of_called hidle (block_ok hi.carries hok) (by rw [hl, hlay]) ?_
  exact htip.applyBlock hq (by rw [hfin]; exact hb)

theorem preferenceReset (hi : WriterInv keccak base S w) {preferred : List Batch}
    (hidle : w.stage = .idle) (hq : w.inflight = [])
    (hb : Mem.Extends keccak base S w.fin preferred)
    (hok : (w.sink.preferenceReset none preferred).1 = .ok ()) :
    WriterInv keccak base S
      { w with
        sink := (w.sink.preferenceReset none preferred).2
        evs := w.evs ++ [.reset preferred] } := by
  have hfin : w.tip.fin = w.fin := by simp [Writer.tip, hidle, Stage.folds]
  have hlay := Mem.batches_of_layers (Mem.layers_preferenceReset w.sink.st preferred)
  refine hi.of_called hidle (preferenceReset_ok hi.carries hok) hlay.symm ?_
  refine hi.tip.preferenceReset hq (by rw [hfin]; exact hb) (Or.inl ?_)
  simp [Writer.tip, Writer.written, hidle, Stage.folds, Stage.commits]

theorem write (hi : WriterInv keccak base S w) {b : Batch} (hidle : w.stage = .idle)
    (hb : w.sink.st.batches.head? = some b) (hfit : (b.encode []).length < 2 ^ 32) :
    WriterInv keccak base S { w with sink := w.sink.finalizeWrite b, stage := .written b } := by
  have heq : w.tip.written = w.tip.fin := by
    simp [Writer.tip, Writer.written, hidle, Stage.folds, Stage.commits]
  have htip := hi.tip.commit heq hb
  have hother : ∀ r : Row, r = .finalized ∨ r = .baselineComplete →
      row (writeBlock w.sink.env b) r = row w.sink.env r := by
    rintro r (rfl | rfl) <;> exact row_writeBlock_other _ _ (by simp) (by simp) (by simp)
  refine ⟨?_, hi.carries, ?_, ?_, ?_, fun b' hb' => ?_, fun b' hb' => ?_⟩
  · simpa [Writer.tip, Writer.written, Sink.finalizeWrite, hidle, Stage.folds, Stage.commits]
      using htip
  · simpa [Sink.finalizeWrite, hidle, Stage.folds] using hi.layers
  · have hm := hi.watermark
    rw [Writer.done, hidle] at hm
    exact (hother .finalized (Or.inl rfl)).trans hm
  · have hset := hi.complete
    rwa [← hother .baselineComplete (Or.inr rfl)] at hset
  · rcases List.mem_append.mp hb' with hm | hm
    · exact hi.fits b' (List.mem_append_left _ hm)
    · obtain rfl : b' = b := List.mem_singleton.mp hm
      exact hfit
  · obtain rfl : b' = b := List.mem_singleton.mp hb'
    exact writeBlock_writeBlock _ _

theorem fold (hi : WriterInv keccak base S w) {b : Batch}
    (hst : w.stage = .written b) (hq : w.inflight = []) :
    WriterInv keccak base S
      { w with sink := (w.sink.finalizeFold b.block b.hash).2, stage := .folded b } := by
  have hw : w.tip.written = w.tip.fin ++ [b] := by
    simp [Writer.tip, Writer.written, hst, Stage.folds, Stage.commits]
  have htip := hi.tip.finalize hq hw
  obtain ⟨rest, hlay, hl⟩ := hi.tip.chain.oldest hw
  obtain ⟨-, -, hrest⟩ := Mem.finalize_oldest hlay
  have hfold := Mem.batches_of_layers hrest
  rw [finalizeFold_snd]
  refine ⟨?_, hi.carries, ?_, ?_, hi.complete, fun b' hb' => hi.fits b' ?_,
    fun b' hb' => hi.rewrites b' (by rw [hst]; exact hb')⟩
  · simpa [Writer.tip, Writer.written, hst, Stage.folds, Stage.commits] using htip
  · have hbus := hi.layers
    rw [hst] at hbus
    exact hbus.trans (hl.trans (congrArg (List.cons b) hfold.symm))
  · have hm := hi.watermark
    rwa [Writer.done, hst] at hm
  · simpa [Writer.written, hst, Stage.commits] using hb'

theorem mark (hi : WriterInv keccak base S w) {b : Batch}
    (hst : w.stage = .folded b) :
    WriterInv keccak base S
      { w with sink := w.sink.finalizeMark b.block, stage := .marked b } := by
  have hblock : b.block = height S (w.fin ++ [b]).length := by
    have hnum := hi.tip.chain.numbers w.fin.length b (by
      simp [Writer.tip, hst, Stage.folds])
    rw [height, List.length_append, List.length_singleton, ← Nat.add_assoc, ← hnum,
      UInt64.ofNat_toNat]
  refine ⟨?_, hi.carries, ?_, ?_, ?_, fun b' hb' => hi.fits b' ?_, by simp [Stage.ahead]⟩
  · have htip := hi.tip.setFinalized b.block
    simpa [Writer.tip, Writer.written, Sink.finalizeMark, hst, Stage.folds, Stage.commits]
      using htip
  · simpa [Sink.finalizeMark, hst, Stage.folds] using hi.layers
  · rw [Watermark, Writer.done, Stage.marks, if_neg (by simp), ← hblock]
    exact (row_put _ _ _ _).trans (if_pos rfl)
  · rw [Sink.finalizeMark, row_setFinalized _ _ (by simp)]
    exact hi.complete
  · simpa [Writer.written, hst, Stage.commits] using hb'

theorem publish (hi : WriterInv keccak base S w) {b : Batch} (hst : w.stage = .marked b)
    (hok : (w.sink.finalizePublish none b.block b.hash).1 = .ok ()) :
    WriterInv keccak base S
      { w with
        sink := (w.sink.finalizePublish none b.block b.hash).2
        stage := .idle
        fin := w.fin ++ [b]
        evs := w.evs ++ [.finalize b.block b.hash] } := by
  obtain ⟨henv, hs, hcar, hlay, -⟩ := finalizePublish_ok hi.carries hok
  have htip := hi.tip
  have hm := hi.watermark
  have hbus := hi.layers
  rw [hst] at hbus
  refine ⟨?_, hcar, ?_, ?_, ?_, fun b' hb' => hi.fits b' ?_, by simp [Stage.ahead]⟩
  · simpa [Writer.tip, Writer.written, henv, hs, hst, Stage.folds, Stage.commits] using htip
  · rw [hlay, hbus, hs]
    rfl
  · simpa [Watermark, Writer.done, henv, hst, Stage.marks] using hm
  · rw [henv]
    exact hi.complete
  · simpa [Writer.written, hst, Stage.commits] using hb'

theorem step (hi : WriterInv keccak base S w) (hs : WriterStep keccak base S w w') :
    WriterInv keccak base S w' := by
  cases hs with
  | read hs => exact hi.read hs
  | sees hh => exact { hi with tip := hi.tip.sees hh }
  | block hidle hq hb hok => exact hi.block hidle hq hb hok
  | preferenceReset hidle hq hb hok => exact hi.preferenceReset hidle hq hb hok
  | write hidle hb hc hfit => exact hi.write hidle hb hfit
  | fold hst hq => exact hi.fold hst hq
  | mark hst => exact hi.mark hst
  | publish hst hok => exact hi.publish hst hok

/-- The block in the store that the bus has not announced is still a layer of the bus. -/
theorem commits_layers (hi : WriterInv keccak base S w) {b : Batch} (hb : b ∈ w.stage.commits) :
    b ∈ w.sink.bus.layers := by
  have hl := hi.layers
  cases hst : w.stage with
  | idle => simp [hst, Stage.commits] at hb
  | written b' =>
    rw [hst] at hb hl
    obtain rfl : b = b' := List.mem_singleton.mp hb
    have hw : w.tip.written = w.tip.fin ++ [b] := by
      simp [Writer.tip, Writer.written, hst, Stage.folds, Stage.commits]
    obtain ⟨rest, -, hold⟩ := hi.tip.chain.oldest hw
    have hold : w.sink.st.batches = b :: rest := hold
    rw [hl, hold]
    exact List.mem_cons_self
  | folded b' | marked b' =>
    rw [hst] at hb hl
    rw [hl]
    exact List.mem_append_left _ hb

/-- A read of the writer's own executors, at any stage: the layers of the bus over the
blocks it has announced as final. -/
theorem peek_exact (hi : WriterInv keccak base S w) (hno : NoOrphans (base.state keccak)) {i : Nat}
    {k : Key} {v : Val k} (hr : w.sink.st.peek keccak w.handle w.sink.env i k = .ok v) :
    v = foldBatches w.sink.bus.layers (foldBatches w.fin (base.state keccak)) k := by
  have hv : v = foldBatches w.sink.st.batches
      (foldBatches (w.fin ++ w.stage.folds) (base.state keccak)) k := hi.tip.peek_exact hno hr
  rw [hv, hi.layers, foldBatches_append, foldBatches_append]

end WriterInv

/-- The invariant holds throughout every run of the writer. -/
theorem WriterRun.inv (hw : WriterRun keccak base S w) : WriterInv keccak base S w := by
  induction hw with
  | init hb hset hm hfit f => exact WriterInv.init hb hset hm hfit f
  | step hw hs ih => exact ih.step hs

/-! ### A writer with block 6 delivered -/

namespace Sample

open Store.Sample

/-- The writer over the finished baseline. -/
def started : Writer :=
  ⟨newSink finished.env (Mem.State.new none) openWriter, finished.writer, [], .idle, [], []⟩

theorem started_run : WriterRun digest trie 5 started :=
  .init finished_built (by decide) rfl (by simp) none

/-- Block 6 is delivered. -/
def delivered : Writer :=
  { started with sink := (started.sink.block none block6).2, evs := [.block block6] }

theorem delivered_step : WriterStep digest trie 5 started delivered := by
  refine .block rfl rfl ⟨fun n b hn => ?_, ⟨block6_contract _, trivial⟩⟩ ?_
  · cases n with
    | zero => obtain rfl : block6 = b := by simpa using hn
              rfl
    | succ n => simp at hn
  · decide +kernel

theorem delivered_run : WriterRun digest trie 5 delivered := .step started_run delivered_step

end Sample

end Flatstate.Node
