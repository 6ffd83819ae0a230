import Flatstate.Reader.Reads

set_option autoImplicit false

/-!
# Reader: across a restart of the writer

A writer that opens the bus truncates it: the event counter is back at 0 and the stack is
empty.  A reader that was following the old writer keeps its cursor, its layers and its
pins, and nothing on the bus tells it that the counter was reset.

We record which events of the current writer the reader has taken.  A restart does no harm
when the reader has nothing of the old writer: its cursor is at 0, it has no layers, and its
base is at the height of the store.  Any other restart leaves a reader that polls from a
number of the old counter; once the new counter gets there, the reader takes itself for
caught up with the layers of the old writer.
-/

namespace Flatstate.Reader

open Foundation Schema Capture Store Tipbus Node

/-! ## Runs with restarts -/

/-- Both processes, with the number of the first event of the current writer that the
reader has to take, and the events it has taken since. -/
structure Epoch where
  sys : System
  since : Nat
  took : List Event

/-- The events taken after a step: a poll is the only step that makes events pending. -/
def Epoch.tookAfter (e : Epoch) (s : System) : List Event :=
  if e.sys.r.pending = [] then e.took ++ s.r.pending else e.took

/-- A new writer over a store. -/
def reopened (site : Site) (bs : List Batch) (f : Option UInt64) : Writer :=
  ⟨newSink site.env (Mem.State.new f) openWriter, site.writer, [], .idle, bs, []⟩

/-- The runs of both processes, with restarts of the writer in states that `H` allows. -/
inductive RestartRun (keccak : Bytes → Hash) (base : Trie) (S : UInt64) (H : System → Prop) :
    Epoch → Prop where
  | start {w : Writer} (hw : WriterRun keccak base S w) (f : Option UInt64) {finalized : UInt64}
      {layers : List Batch} {seq : Nat}
      (hh : w.sink.bus.env.handshake = .ok (finalized, layers, seq)) :
      RestartRun keccak base S H ⟨⟨w, Follower.start f layers seq, w.fin, none⟩, seq, []⟩
  | step {e : Epoch} (he : RestartRun keccak base S H e) {s : System}
      (hst : FollowStep keccak base S (fun _ _ => True) (fun _ _ => True) e.sys s) :
      RestartRun keccak base S H ⟨s, e.since, e.tookAfter s⟩
  /-- the writer goes down with every block of the store under the watermark, and a new
  one opens the store and truncates the bus -/
  | restart {e : Epoch} (he : RestartRun keccak base S H e) (hH : H e.sys) {site : Site}
      (hb : Built keccak base S site e.sys.w.written) (henv : site.env = e.sys.w.sink.env)
      (hm : Watermark S e.sys.w.written site.env) (f : Option UInt64) :
      RestartRun keccak base S H
        ⟨{ e.sys with w := reopened site e.sys.w.written f }, 0, []⟩

/-- The reader has nothing of the current writer, and its base is at the store's height. -/
structure Untouched (s : System) : Prop where
  cursor : s.r.next = 0
  pending : s.r.pending = []
  layers : s.r.st.layers = []
  fin : s.fin = s.w.written

/-! ## The invariant -/

variable {keccak : Bytes → Hash} {base : Trie} {S : UInt64} {e : Epoch}

/-- What holds of both processes. -/
structure EpochInv (keccak : Bytes → Hash) (base : Trie) (S : UInt64) (e : Epoch) : Prop where
  follow : FollowInv keccak base S e.sys
  pins : Mem.PinsLag (e.sys.w.written.map Batch.diff) (base.state keccak) e.sys.fin.length
    e.sys.r.st
  since : e.since ≤ e.sys.r.next
  /-- the reader has taken every event up to its cursor -/
  log : e.sys.w.evs.drop e.since = e.took ++ e.sys.w.evs.drop e.sys.r.next

namespace EpochInv

/-- The cursor and the log after a step: only a poll moves them. -/
theorem log_step (hi : EpochInv keccak base S e) {s : System}
    (hst : FollowStep keccak base S (fun _ _ => True) (fun _ _ => True) e.sys s) :
    e.since ≤ s.r.next ∧
      s.w.evs.drop e.since = e.tookAfter s ++ s.w.evs.drop s.r.next := by
  have hcur := hi.follow.cursor
  have hsince := hi.since
  have hsame : ∀ s : System, s.r.pending = e.sys.r.pending → e.tookAfter s = e.took := by
    intro s hs
    rw [Epoch.tookAfter]
    split
    · rename_i hp
      rw [hs, hp, List.append_nil]
    · rfl
  cases hst with
  | @writer w hs =>
    obtain ⟨es, hes, -⟩ := writerStep_ledger hi.follow.writer hs
    refine ⟨hsince, ?_⟩
    rw [hsame { e.sys with w := w } rfl]
    dsimp only
    rw [hes, List.drop_append_of_le_length (by omega), List.drop_append_of_le_length hcur, hi.log,
      List.append_assoc]
  | @read st q hs =>
    refine ⟨hsince, ?_⟩
    rw [hsame { e.sys with r := { e.sys.r with st := st, inflight := q } } rfl]
    exact hi.log
  | @sees h hh =>
    refine ⟨hsince, ?_⟩
    rw [hsame { e.sys with r := { e.sys.r with handle := h } } rfl]
    exact hi.log
  | poll hp hok =>
    rw [hi.follow.writer.carries.poll hcur] at hok
    obtain ⟨rfl, rfl⟩ := Prod.mk.inj (Except.ok.inj hok)
    refine ⟨by dsimp only; omega, ?_⟩
    rw [Epoch.tookAfter, if_pos hp]
    dsimp only
    rw [List.drop_length, List.append_nil]
    exact hi.log
  | apply hp hq hQ hok =>
    obtain rfl := hi.follow.apply_eq hp hok
    refine ⟨hsince, ?_⟩
    rw [Epoch.tookAfter, if_neg (by rw [hp]; simp)]
    exact hi.log

theorem step (hi : EpochInv keccak base S e) {s : System}
    (hst : FollowStep keccak base S (fun _ _ => True) (fun _ _ => True) e.sys s) :
    EpochInv keccak base S ⟨s, e.since, e.tookAfter s⟩ :=
  ⟨hi.follow.step hst, hi.follow.pins_step hst hi.pins, (hi.log_step hst).1, (hi.log_step hst).2⟩

/-- A restart under a reader that has nothing of the writer. -/
theorem restart (hi : EpochInv keccak base S e) (hu : Untouched e.sys) {site : Site}
    (hb : Built keccak base S site e.sys.w.written) (henv : site.env = e.sys.w.sink.env)
    (hm : Watermark S e.sys.w.written site.env) (f : Option UInt64) :
    EpochInv keccak base S ⟨{ e.sys with w := reopened site e.sys.w.written f }, 0, []⟩ := by
  have hf := hi.follow
  have hset : row site.env .baselineComplete ≠ none := by rw [henv]; exact hf.writer.complete
  have hwritten : (reopened site e.sys.w.written f).written = e.sys.w.written := List.append_nil _
  have hnil : e.sys.r.st.batches = [] := by rw [Mem.State.batches, hu.layers]; rfl
  refine ⟨⟨WriterInv.init hb hset hm hf.writer.fits f, ?_, hf.layers, ?_, ?_⟩, ?_, Nat.zero_le _, ?_⟩
  · exact hf.coherent.of_rows (by rw [← henv]; rfl) (fun _ => hset)
  · exact Nat.le_of_eq hu.cursor
  · dsimp only
    rw [hnil, hu.pending, hu.cursor, hu.fin]
    rfl
  · dsimp only
    rw [hwritten]
    exact hi.pins
  · dsimp only
    rw [hu.cursor]
    rfl

end EpochInv

theorem RestartRun.inv (he : RestartRun keccak base S Untouched e) : EpochInv keccak base S e := by
  induction he with
  | @start w hw f finalized layers seq hh =>
    have hf := FollowInv.start hw f hh
    exact ⟨hf, Mem.PinsLag.new _ _ _ f, Nat.le_refl _, rfl⟩
  | step he hst ih => exact ih.step hst
  | restart he hH hb henv hm f ih => exact ih.restart hH hb henv hm f

/-- In every run in which the writer restarts only under a reader that has nothing of it:
whenever the reader has no pending events and a poll brings none, it has taken every event
of the current writer, its layers are those of the bus, and between finalizations those of
the writer's own view, and its executors read what the writer's read. -/
theorem caught_up_across_restarts (hno : NoOrphans (base.state keccak))
    (he : RestartRun keccak base S Untouched e) (hp : e.sys.r.pending = []) {next : Nat}
    (hpoll : e.sys.w.sink.bus.env.poll e.sys.r.next = .ok ([], next)) :
    e.took = e.sys.w.evs.drop e.since ∧
    e.sys.r.st.batches = e.sys.w.sink.bus.layers ∧
    (e.sys.w.stage = .idle → e.sys.r.st.layers = e.sys.w.sink.st.layers) ∧
    ∀ i j a,
      (e.sys.r.st.account keccak e.sys.r.handle e.sys.w.sink.env i a).1 =
        (e.sys.w.sink.st.account keccak e.sys.w.handle e.sys.w.sink.env j a).1 ∧
      ∀ slot,
        (e.sys.r.st.slot keccak e.sys.r.handle e.sys.w.sink.env e.sys.w.sink.env i a slot).1 =
          (e.sys.w.sink.st.slot keccak e.sys.w.handle e.sys.w.sink.env e.sys.w.sink.env j a slot).1 ∧
        ∀ env' v, (e.sys.r.st.slot keccak e.sys.r.handle e.sys.w.sink.env env' i a slot).1 = .ok v →
          (e.sys.w.sink.st.slot keccak e.sys.w.handle e.sys.w.sink.env e.sys.w.sink.env j a slot).1 =
            .ok v := by
  obtain ⟨hi, hpins, hsince, hlog⟩ := he.inv
  rw [hi.writer.carries.poll hi.cursor] at hpoll
  have hend : e.sys.r.next = e.sys.w.evs.length := by
    have hnil := (Prod.mk.inj (Except.ok.inj hpoll)).1
    have := List.drop_eq_nil_iff.mp hnil
    have := hi.cursor
    omega
  refine ⟨?_, (hi.caughtUp hp hend).2, fun hidle => ?_, hi.reads_caughtUp hno hpins hp hend⟩
  · rw [hlog, hend, List.drop_length, List.append_nil]
  · rw [hi.layers, (hi.caughtUp hp hend).2, hi.writer.layers, hidle]
    exact hi.writer.tip.chain.layers.symm

/-! ### Restarts before and after the first block -/

namespace Sample

open Store.Sample
open Node.Sample

/-- The reader joins before the first event. -/
def unaware : Epoch := ⟨⟨started, Follower.start none [] 0, [], none⟩, 0, []⟩

theorem unaware_run (H : System → Prop) : RestartRun digest trie 5 H unaware := by
  have hh : started.sink.bus.env.handshake = .ok (0, [], 0) := by decide +kernel
  exact .start started_run none hh

/-- A reader that has joined at the first event and applied a block. -/
def first (w : Writer) (b : Batch) : Epoch where
  sys :=
    ⟨w, { Follower.start none [] 0 with
      st := (Mem.State.new none).applyBlock b
      next := 1 }, [], some [b]⟩
  since := 0
  took := [.block b]

theorem first_run {H : System → Prop} {w : Writer} {b : Batch}
    (h : RestartRun digest trie 5 H ⟨⟨w, Follower.start none [] 0, [], none⟩, 0, []⟩)
    (hpoll : w.sink.bus.env.poll 0 = .ok ([.block b], 1)) :
    RestartRun digest trie 5 H (first w b) := by
  have h1 : RestartRun digest trie 5 H
      ⟨⟨w, { Follower.start none [] 0 with pending := [.block b], next := 1 }, [], none⟩,
        0, [.block b]⟩ := h.step (.poll rfl hpoll)
  exact h1.step (@FollowStep.apply _ _ _ _ _ ⟨w, _, [], none⟩ (.block b) [] rfl rfl trivial _ rfl)

/-- The writer restarts and delivers block 6, and the reader applies it. -/
def early : Epoch := first delivered block6

theorem early_run : RestartRun digest trie 5 Untouched early := by
  have h1 := (unaware_run Untouched).restart ⟨rfl, rfl, rfl, rfl⟩ finished_built rfl rfl none
  exact first_run (h1.step (.writer delivered_step)) (by decide +kernel)

/-- The new writer delivers a sibling of block 6. -/
def other : Writer :=
  { started with sink := (started.sink.block none accepted).2, evs := [.block accepted] }

theorem other_step : WriterStep digest trie 5 started other :=
  .block rfl rfl accepted_extends (by decide +kernel)

/-- The reader has applied block 6 of the writer before. -/
def late : Epoch := ⟨{ following delivered block6 with w := other }, 0, []⟩

theorem late_run : RestartRun digest trie 5 (fun _ => True) late := by
  have h0 : RestartRun digest trie 5 (fun _ => True) ⟨joined delivered block6, 1, []⟩ :=
    .start delivered_run none delivered_handshake
  have h1 : RestartRun digest trie 5 (fun _ => True) ⟨following delivered block6, 1, []⟩ :=
    h0.step (following_step delivered block6 (fun _ _ => True) trivial)
  -- delivering a block leaves the store as it is
  have hcall := block_ok (s := started.sink) (b := block6) carries_openWriter (by decide +kernel)
  have henv : delivered.sink.env = finished.env := by
    have hsink : delivered.sink = (started.sink.block none block6).2 := by rw [delivered]
    rw [hsink, hcall.env]
    rfl
  have h2 := h1.restart trivial finished_built henv.symm rfl none
  exact h2.step (.writer other_step)

end Sample

/-- The theorem at work: after a restart before the first event, the reader has the block
of the new writer and reads the account as the writer does. -/
theorem caught_up_across_restarts_early :
    Sample.early.took = Sample.early.sys.w.evs ∧
      (Sample.early.sys.r.st.account Store.Sample.digest {} Sample.early.sys.w.sink.env 0
        Store.Sample.addr).1 = .ok (some (Store.Sample.acct 20)) := by
  have hpoll : Sample.early.sys.w.sink.bus.env.poll Sample.early.sys.r.next = .ok ([], 1) := by
    decide +kernel
  obtain ⟨htook, -, -, hreads⟩ :=
    caught_up_across_restarts Mem.Sample.noOrphans Sample.early_run rfl hpoll
  refine ⟨htook, (hreads 0 0 Store.Sample.addr).1.trans ?_⟩
  decide +kernel

/-- A restart under a reader that has followed: the counter of the new writer is where the
cursor is, a poll brings nothing, and the reader has taken none of the new writer's events.
Its layer is the old writer's block, and it reads the balance that block wrote. -/
theorem restart_leaves_old_layers :
    RestartRun Store.Sample.digest Store.Sample.trie 5 (fun _ => True) Sample.late ∧
      Sample.late.sys.r.pending = [] ∧
      Sample.late.sys.w.sink.bus.env.count = Sample.late.sys.r.next ∧
      Sample.late.sys.w.sink.bus.env.poll Sample.late.sys.r.next = .ok ([], 1) ∧
      Sample.late.took = [] ∧ Sample.late.sys.w.evs.drop Sample.late.since = [.block Sample.accepted] ∧
      Sample.late.sys.r.st.batches = [Store.Sample.block6] ∧
      Sample.late.sys.w.sink.bus.layers = [Sample.accepted] ∧
      (Sample.late.sys.r.st.account Store.Sample.digest Sample.late.sys.r.handle
        Sample.late.sys.w.sink.env 0 Store.Sample.addr).1 = .ok (some (Store.Sample.acct 20)) ∧
      (Sample.late.sys.w.sink.st.account Store.Sample.digest Sample.late.sys.w.handle
        Sample.late.sys.w.sink.env 0 Store.Sample.addr).1 = .ok (some (Store.Sample.acct 30)) :=
  ⟨Sample.late_run, rfl, by decide +kernel, by decide +kernel, rfl, rfl, rfl, by decide +kernel,
    by decide +kernel, by decide +kernel⟩

end Flatstate.Reader
