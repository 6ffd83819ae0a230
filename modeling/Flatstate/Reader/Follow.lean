import Flatstate.Node.Writer

set_option autoImplicit false

/-!
# Reader: a process that follows the bus (`cmd/simbench/main.go`)

A reader takes one handshake, applies its layers, and then polls the bus and applies
what it gets, at its own pace.  Its executors read through its own tip view over the
writer's store, whose height is unrelated to what the reader has applied.

What the reader still has to apply always leads from where it is to where the bus is:
polled events, then the events above its cursor.  This one equation gives that
`Finalize` never fails and that a reader that has caught up has the writer's layers.
-/

namespace Flatstate.Reader

open Foundation Schema Capture Store Tipbus Node

/-! ## The reader -/

/-- The reader process: the handle of its store, its tip view with the slot reads in
flight, the events it has polled and not applied, and its cursor. -/
structure Follower where
  handle : Handle
  st : Mem.State
  inflight : List (Nat × Address)
  pending : List Event
  next : Nat

/-- One turn of the event loop of `follow`.  A `Finalize` that fails takes the stack from
a new handshake; the error is that of the handshake. -/
def Follower.apply (bus : BusEnv) (r : Follower) : Event → Except BusErr Follower
  | .block b => .ok { r with st := r.st.applyBlock b }
  | .finalize height hash =>
    match r.st.finalize height hash with
    | (.ok (), st) => .ok { r with st := st }
    | (.error _, st) =>
      match bus.handshake with
      | .ok (_, layers, seq) => .ok { r with st := st.preferenceReset layers, next := seq }
      | .error e => .error e
  | .reset bs => .ok { r with st := r.st.preferenceReset bs }

/-- The tip view after an event, if it is applied without a resync. -/
def stAfter (st : Mem.State) : Event → Mem.State
  | .block b => st.applyBlock b
  | .finalize height hash => (st.finalize height hash).2
  | .reset bs => st.preferenceReset bs

/-- A reader after its handshake: the layers are applied one by one. -/
def Follower.start (f : Option UInt64) (layers : List Batch) (seq : Nat) : Follower where
  handle := {}
  st := Mem.State.new f
  inflight := []
  pending := layers.map .block
  next := seq

/-! ## Both processes -/

/-- The writer and a reader.  For the reader we record which blocks it has folded into
its base, and the chain up to the block its stamp names, once it has applied one. -/
structure System where
  w : Writer
  r : Follower
  fin : List Batch
  stamped : Option (List Batch)

/-- The blocks folded after an event. -/
def System.finAfter (s : System) : Event → List Batch
  | .finalize _ _ => s.fin ++ s.r.st.batches.take 1
  | _ => s.fin

/-- The chain of the stamp after an event.  A reset to nothing leaves the stamp. -/
def System.stampedAfter (s : System) : Event → Option (List Batch)
  | .block b => some (s.fin ++ s.r.st.batches ++ [b])
  | .finalize _ _ => s.stamped
  | .reset [] => s.stamped
  | .reset (b :: bs) => some (s.fin ++ b :: bs)

/-- The steps of both processes, in any interleaving.  `P` restricts the keys for which
the reader's executors ask the store, `Q` the events it applies. -/
inductive FollowStep (keccak : Bytes → Hash) (base : Trie) (S : UInt64)
    (P : System → Key → Prop) (Q : System → Event → Prop) : System → System → Prop where
  | writer {s : System} {w : Writer} (hs : WriterStep keccak base S s.w w) :
      FollowStep keccak base S P Q s { s with w := w }
  | read {s : System} {st : Mem.State} {q : List (Nat × Address)}
      (hs : Mem.ReadStep keccak s.r.handle s.w.sink.env (P s) s.r.st s.r.inflight st q) :
      FollowStep keccak base S P Q s { s with r := { s.r with st := st, inflight := q } }
  | sees {s : System} {h : Handle}
      (hh : h = (genesis s.r.handle s.w.sink.env).2 ∨
        h = (baselineComplete s.r.handle s.w.sink.env).2) :
      FollowStep keccak base S P Q s { s with r := { s.r with handle := h } }
  | poll {s : System} (hp : s.r.pending = []) {evs : List Event} {next : Nat}
      (hok : s.w.sink.bus.env.poll s.r.next = .ok (evs, next)) :
      FollowStep keccak base S P Q s { s with r := { s.r with pending := evs, next := next } }
  | apply {s : System} {ev : Event} {rest : List Event} (hp : s.r.pending = ev :: rest)
      (hq : s.r.inflight = []) (hQ : Q s ev) {r : Follower}
      (hok : s.r.apply s.w.sink.bus.env ev = .ok r) :
      FollowStep keccak base S P Q s
        ⟨s.w, { r with pending := rest }, s.finAfter ev, s.stampedAfter ev⟩

/-- The runs of both processes.  The reader starts at any time of the writer's run. -/
inductive FollowRun (keccak : Bytes → Hash) (base : Trie) (S : UInt64)
    (P : System → Key → Prop) (Q : System → Event → Prop) : System → Prop where
  | start {w : Writer} (hw : WriterRun keccak base S w) (f : Option UInt64) {finalized : UInt64}
      {layers : List Batch} {seq : Nat}
      (hh : w.sink.bus.env.handshake = .ok (finalized, layers, seq)) :
      FollowRun keccak base S P Q ⟨w, Follower.start f layers seq, w.fin, none⟩
  | step {s s' : System} (hs : FollowRun keccak base S P Q s)
      (hst : FollowStep keccak base S P Q s s') : FollowRun keccak base S P Q s'

/-! ## The ledger of the events -/

/-- What events stand for: the blocks announced as final, and the stack above them. -/
structure Ledger where
  fin : List Batch
  layers : List Batch

/-- An event moves the ledger; a finalization is of the oldest layer. -/
def Ledger.step (l : Ledger) : Event → Option Ledger
  | .block b => some ⟨l.fin, l.layers ++ [b]⟩
  | .finalize height hash =>
    match l.layers with
    | [] => none
    | b :: rest => if b.block = height ∧ b.hash = hash then some ⟨l.fin ++ [b], rest⟩ else none
  | .reset bs => some ⟨l.fin, bs⟩

def Ledger.run (l : Ledger) : List Event → Option Ledger
  | [] => some l
  | ev :: evs => (l.step ev).bind (fun l' => l'.run evs)

theorem Ledger.run_append (l : Ledger) (evs evs' : List Event) :
    l.run (evs ++ evs') = (l.run evs).bind (fun l' => l'.run evs') := by
  induction evs generalizing l with
  | nil => rfl
  | cons ev evs ih =>
    rw [List.cons_append, Ledger.run, Ledger.run]
    cases l.step ev with
    | none => rfl
    | some l' => exact ih l'

theorem Ledger.run_blocks (l : Ledger) (bs : List Batch) :
    l.run (bs.map .block) = some ⟨l.fin, l.layers ++ bs⟩ := by
  induction bs generalizing l with
  | nil => simp [Ledger.run]
  | cons b bs ih => simp [Ledger.run, Ledger.step, ih]

theorem Ledger.step_fin {l l' : Ledger} {ev : Event} (h : l.step ev = some l') :
    l.fin <+: l'.fin := by
  cases ev with
  | block _ | reset _ => exact (Option.some.inj h) ▸ List.prefix_rfl
  | finalize height hash =>
    rw [Ledger.step] at h
    split at h
    · cases h
    · split at h
      · exact (Option.some.inj h) ▸ List.prefix_append _ _
      · cases h

/-- What is announced as final stays final. -/
theorem Ledger.run_fin {l l' : Ledger} {evs : List Event} (h : l.run evs = some l') :
    l.fin <+: l'.fin := by
  induction evs generalizing l with
  | nil => exact (Option.some.inj h) ▸ List.prefix_rfl
  | cons ev evs ih =>
    rw [Ledger.run] at h
    obtain ⟨l1, h1, h2⟩ := Option.bind_eq_some_iff.mp h
    exact (Ledger.step_fin h1).trans (ih h2)

/-! ## The invariant -/

variable {keccak : Bytes → Hash} {base : Trie} {S : UInt64}

/-- A step of the writer adds the events that lead from the old ledger to the new one. -/
theorem writerStep_ledger {w w' : Writer} (hi : WriterInv keccak base S w)
    (hs : WriterStep keccak base S w w') :
    ∃ es, w'.evs = w.evs ++ es ∧
      (⟨w.fin, w.sink.bus.layers⟩ : Ledger).run es = some ⟨w'.fin, w'.sink.bus.layers⟩ := by
  cases hs with
  | read _ | sees _ | write _ _ _ _ | mark _ => exact ⟨[], (List.append_nil _).symm, rfl⟩
  | block hidle hq hb hok =>
    refine ⟨_, rfl, ?_⟩
    rw [(block_ok hi.carries hok).layers]
    rfl
  | preferenceReset hidle hq hb hok =>
    refine ⟨_, rfl, ?_⟩
    rw [(preferenceReset_ok hi.carries hok).layers]
    rfl
  | fold hst hq =>
    refine ⟨[], (List.append_nil _).symm, ?_⟩
    rw [finalizeFold_snd]
    rfl
  | @publish b hst hok =>
    have hbus : w.sink.bus.layers = b :: w.sink.st.batches := by
      rw [hi.layers, hst]
      rfl
    refine ⟨_, rfl, ?_⟩
    rw [(finalizePublish_ok hi.carries hok).layers, hbus]
    simp [Ledger.run, Ledger.step]

/-- Blocks in the store stay there. -/
theorem writerStep_written {w w' : Writer} (hs : WriterStep keccak base S w w') :
    w.written <+: w'.written := by
  rw [Writer.written, Writer.written]
  cases hs with
  | read _ | sees _ | block _ _ _ _ | preferenceReset _ _ _ _ => exact List.prefix_rfl
  | write hidle hb hc hfit => rw [hidle]; simp [Stage.commits]
  | fold hst _ | mark hst => rw [hst]; exact List.prefix_rfl
  | publish hst hok => rw [hst]; simp [Stage.commits]

/-- What holds of both processes. -/
structure FollowInv (keccak : Bytes → Hash) (base : Trie) (S : UInt64) (s : System) : Prop where
  writer : WriterInv keccak base S s.w
  coherent : Coherent s.r.handle s.w.sink.env
  layers : s.r.st.layers = s.r.st.batches.map Mem.newLayer
  cursor : s.r.next ≤ s.w.evs.length
  /-- what the reader has to apply leads to where the bus is -/
  ledger : (⟨s.fin, s.r.st.batches⟩ : Ledger).run (s.r.pending ++ s.w.evs.drop s.r.next) =
    some ⟨s.w.fin, s.w.sink.bus.layers⟩

namespace FollowInv

variable {s : System}

theorem start {w : Writer} (hw : WriterRun keccak base S w) (f : Option UInt64)
    {finalized : UInt64} {layers : List Batch} {seq : Nat}
    (hh : w.sink.bus.env.handshake = .ok (finalized, layers, seq)) :
    FollowInv keccak base S ⟨w, Follower.start f layers seq, w.fin, none⟩ := by
  have hi := hw.inv
  rw [hi.carries.handshake] at hh
  obtain ⟨-, h2⟩ := Prod.mk.inj (Except.ok.inj hh)
  obtain ⟨rfl, rfl⟩ := Prod.mk.inj h2
  refine ⟨hi, Coherent.fresh _, rfl, Nat.le_refl _, ?_⟩
  show Ledger.run ⟨w.fin, []⟩ (w.sink.bus.layers.map .block ++ w.evs.drop w.evs.length) = _
  rw [List.drop_length, List.append_nil, Ledger.run_blocks]
  rfl

theorem writerStep (hi : FollowInv keccak base S s) {w : Writer}
    (hs : WriterStep keccak base S s.w w) (hw : WriterInv keccak base S w) :
    FollowInv keccak base S { s with w := w } := by
  obtain ⟨es, hes, hrun⟩ := writerStep_ledger hi.writer hs
  have hg : row w.sink.env .genesis = row s.w.sink.env .genesis :=
    hw.tip.chain.refines.genesis.trans hi.writer.tip.chain.refines.genesis.symm
  refine ⟨hw, hi.coherent.of_rows hg (fun _ => hw.complete), hi.layers, ?_, ?_⟩
  · have := hi.cursor
    rw [hes, List.length_append]
    exact Nat.le_trans this (Nat.le_add_right _ _)
  · dsimp only
    rw [hes, List.drop_append_of_le_length hi.cursor, ← List.append_assoc, Ledger.run_append,
      hi.ledger]
    exact hrun

theorem poll (hi : FollowInv keccak base S s) (hp : s.r.pending = []) {evs : List Event}
    {next : Nat} (hok : s.w.sink.bus.env.poll s.r.next = .ok (evs, next)) :
    FollowInv keccak base S { s with r := { s.r with pending := evs, next := next } } := by
  rw [hi.writer.carries.poll hi.cursor] at hok
  obtain ⟨rfl, rfl⟩ := Prod.mk.inj (Except.ok.inj hok)
  have hl := hi.ledger
  rw [hp, List.nil_append] at hl
  refine ⟨hi.writer, hi.coherent, hi.layers, Nat.le_refl _, ?_⟩
  dsimp only
  rw [List.drop_length, List.append_nil]
  exact hl

/-- The next event moves the ledger of the reader. -/
theorem next_step (hi : FollowInv keccak base S s) {ev : Event} {rest : List Event}
    (hp : s.r.pending = ev :: rest) :
    ∃ l, (⟨s.fin, s.r.st.batches⟩ : Ledger).step ev = some l ∧
      l.run (rest ++ s.w.evs.drop s.r.next) = some ⟨s.w.fin, s.w.sink.bus.layers⟩ := by
  have hl := hi.ledger
  rw [hp, List.cons_append, Ledger.run] at hl
  exact Option.bind_eq_some_iff.mp hl

/-- A finalization in the next event is of the reader's oldest layer, and the block is
the next one in the store after those the reader has folded. -/
theorem next_finalize (hi : FollowInv keccak base S s) {height : UInt64} {hash : Hash}
    {rest : List Event} (hp : s.r.pending = .finalize height hash :: rest) :
    ∃ b bs, s.r.st.batches = b :: bs ∧ b.block = height ∧ b.hash = hash ∧
      s.fin ++ [b] <+: s.w.written ∧
      (⟨s.fin ++ [b], bs⟩ : Ledger).run (rest ++ s.w.evs.drop s.r.next) =
        some ⟨s.w.fin, s.w.sink.bus.layers⟩ := by
  obtain ⟨l, hstep, hrun⟩ := hi.next_step hp
  rw [Ledger.step] at hstep
  cases hb : s.r.st.batches with
  | nil => simp [hb] at hstep
  | cons b bs =>
    simp only [hb] at hstep
    split at hstep
    · rename_i hm
      obtain rfl := Option.some.inj hstep
      refine ⟨b, bs, rfl, hm.1, hm.2, (Ledger.run_fin hrun).trans ?_, hrun⟩
      exact List.prefix_append _ _
    · cases hstep

/-- The reader's `Finalize` of the next event succeeds. -/
theorem finalize_ok (hi : FollowInv keccak base S s) {height : UInt64} {hash : Hash}
    {rest : List Event} (hp : s.r.pending = .finalize height hash :: rest) :
    (s.r.st.finalize height hash).1 = .ok () := by
  obtain ⟨b, bs, hb, rfl, rfl, -, -⟩ := hi.next_finalize hp
  have hl : s.r.st.layers = Mem.newLayer b :: bs.map Mem.newLayer := by rw [hi.layers, hb]; rfl
  exact (Mem.finalize_oldest hl).1

/-- An event is applied without a resync. -/
theorem apply_eq (hi : FollowInv keccak base S s) {ev : Event} {rest : List Event}
    (hp : s.r.pending = ev :: rest) {r : Follower}
    (hok : s.r.apply s.w.sink.bus.env ev = .ok r) :
    r = { s.r with st := stAfter s.r.st ev } := by
  cases ev with
  | block _ | reset _ => exact (Except.ok.inj hok).symm
  | finalize height hash =>
    have hfin := hi.finalize_ok hp
    rw [Follower.apply] at hok
    cases hf : s.r.st.finalize height hash with
    | mk res st =>
      rw [hf] at hfin hok
      dsimp only at hfin
      subst hfin
      rw [stAfter, hf]
      exact (Except.ok.inj hok).symm

/-- The layers after an event are a ledger step's. -/
theorem layers_after (hi : FollowInv keccak base S s) {ev : Event} {rest : List Event}
    (hp : s.r.pending = ev :: rest) :
    ∃ bs, (stAfter s.r.st ev).layers = bs.map Mem.newLayer ∧
      (⟨s.fin, s.r.st.batches⟩ : Ledger).step ev = some ⟨s.finAfter ev, bs⟩ := by
  cases ev with
  | block b =>
    refine ⟨s.r.st.batches ++ [b], ?_, rfl⟩
    rw [stAfter, Mem.layers_applyBlock, List.map_append, ← hi.layers]
    rfl
  | reset bs => exact ⟨bs, Mem.layers_preferenceReset s.r.st bs, rfl⟩
  | finalize height hash =>
    obtain ⟨b, bs, hb, rfl, rfl, -, -⟩ := hi.next_finalize hp
    have hl : s.r.st.layers = Mem.newLayer b :: bs.map Mem.newLayer := by rw [hi.layers, hb]; rfl
    refine ⟨bs, (Mem.finalize_oldest hl).2.2, ?_⟩
    rw [Ledger.step, System.finAfter, hb]
    simp

theorem apply (hi : FollowInv keccak base S s) {ev : Event} {rest : List Event}
    (hp : s.r.pending = ev :: rest) {r : Follower}
    (hok : s.r.apply s.w.sink.bus.env ev = .ok r) :
    FollowInv keccak base S
      ⟨s.w, { r with pending := rest }, s.finAfter ev, s.stampedAfter ev⟩ := by
  obtain rfl := hi.apply_eq hp hok
  obtain ⟨bs, hl, hstep⟩ := hi.layers_after hp
  obtain ⟨l, hstep', hrun⟩ := hi.next_step hp
  obtain rfl := Option.some.inj (hstep.symm.trans hstep')
  have hbs := Mem.batches_of_layers hl
  refine ⟨hi.writer, hi.coherent, ?_, hi.cursor, ?_⟩
  · dsimp only
    rw [hl, hbs]
  · dsimp only
    rw [hbs]
    exact hrun

theorem read (hi : FollowInv keccak base S s) {ok : Key → Prop} {st : Mem.State}
    {q : List (Nat × Address)}
    (hs : Mem.ReadStep keccak s.r.handle s.w.sink.env ok s.r.st s.r.inflight st q) :
    FollowInv keccak base S { s with r := { s.r with st := st, inflight := q } } := by
  refine ⟨hi.writer, hi.coherent, ?_, hi.cursor, ?_⟩
  · dsimp only
    rw [Mem.State.batches, hs.layers]
    exact hi.layers
  · dsimp only
    rw [Mem.State.batches, hs.layers]
    exact hi.ledger

/-- Every step of either process keeps the invariant. -/
theorem step {P : System → Key → Prop} {Q : System → Event → Prop} {s' : System}
    (hi : FollowInv keccak base S s) (hst : FollowStep keccak base S P Q s s') :
    FollowInv keccak base S s' := by
  cases hst with
  | writer hs => exact hi.writerStep hs (hi.writer.step hs)
  | read hs => exact hi.read hs
  | sees hh =>
    refine { hi with coherent := ?_ }
    rcases hh with rfl | rfl
    · exact hi.coherent.genesis_snd hi.writer.tip.chain.refines.genesis
    · exact hi.coherent.complete_snd
  | poll hp hok => exact hi.poll hp hok
  | apply hp hq hQ hok => exact hi.apply hp hok

end FollowInv

/-- The invariant holds throughout every run of both processes. -/
theorem FollowRun.inv {P : System → Key → Prop} {Q : System → Event → Prop} {s : System}
    (hs : FollowRun keccak base S P Q s) : FollowInv keccak base S s := by
  induction hs with
  | start hw f hh => exact FollowInv.start hw f hh
  | step hs hst ih => exact ih.step hst

/-- The blocks the reader has folded are in the store. -/
theorem FollowInv.fin_written {s : System} (hi : FollowInv keccak base S s) :
    s.fin <+: s.w.written :=
  (Ledger.run_fin hi.ledger).trans (List.prefix_append _ _)

end Flatstate.Reader
