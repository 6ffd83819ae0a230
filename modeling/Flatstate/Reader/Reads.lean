import Flatstate.Reader.Follow

set_option autoImplicit false

/-!
# Reader: what its reads return

A reader's pins are values at any height from the one it has folded up to the store's
at the time of the read.  Folding older blocks on top of newer pins does no harm: after
the last fold every pin is the value at the reader's height.  So a reader that has
caught up with an idle writer reads what the writer reads.

While it lags, a read that no layer and no pin answers is answered by the store, at a
height the reader has not reached.  If no such read is of a key that the blocks above the
reader's height touch, every pin is the value at that height and every read is the value
at the end of the stamped block.
-/

namespace Flatstate.Reader

open Foundation Schema Capture Store Tipbus Node

variable {keccak : Bytes → Hash} {base : Trie} {S : UInt64} {P : System → Key → Prop}
  {Q : System → Event → Prop} {s : System}

/-! ## Pins -/

/-- An event keeps the pins lagging, behind the height the reader has then. -/
theorem FollowInv.pins_after (hi : FollowInv keccak base S s) {ev : Event} {rest : List Event}
    (hp : s.r.pending = ev :: rest) {ds : List (Diff Val)} {σ : Capture.State}
    (hpins : Mem.PinsLag ds σ s.fin.length s.r.st)
    (hds : ∀ b, s.finAfter ev = s.fin ++ [b] → ds[s.fin.length]? = some b.diff) :
    Mem.PinsLag ds σ (s.finAfter ev).length (stAfter s.r.st ev) := by
  cases ev with
  | block b => exact hpins.applyBlock b
  | reset bs => exact hpins.preferenceReset bs
  | finalize height hash =>
    obtain ⟨b, bs, hb, rfl, rfl, -, -⟩ := hi.next_finalize hp
    have hl : s.r.st.layers = Mem.newLayer b :: bs.map Mem.newLayer := by rw [hi.layers, hb]; rfl
    have hfin : s.finAfter (.finalize b.block b.hash) = s.fin ++ [b] := by
      rw [System.finAfter, hb]
      rfl
    obtain ⟨-, hfold, -⟩ := Mem.finalize_oldest hl
    rw [hfin, List.length_append, List.length_singleton]
    exact hpins.fold (hds b hfin) hfold

theorem FollowInv.fin_le (hi : FollowInv keccak base S s) :
    s.fin.length ≤ (s.w.written.map Batch.diff).length := by
  rw [List.length_map]
  exact hi.fin_written.length_le

theorem FollowInv.pins_step (hi : FollowInv keccak base S s) {s' : System}
    (hst : FollowStep keccak base S P Q s s')
    (hpins : Mem.PinsLag (s.w.written.map Batch.diff) (base.state keccak) s.fin.length s.r.st) :
    Mem.PinsLag (s'.w.written.map Batch.diff) (base.state keccak) s'.fin.length s'.r.st := by
  cases hst with
  | writer hs =>
    obtain ⟨more, hmore⟩ := writerStep_written hs
    dsimp only
    rw [← hmore, List.map_append]
    exact hpins.append _
  | read hs =>
    have hc := hi.writer.tip.chain
    exact hs.pins hpins hi.fin_le
      (fun k _ => Mem.answers_of_refines hc.refines hi.coherent hc.written_chain k)
  | sees hh => exact hpins
  | poll hp hok => exact hpins
  | apply hp hq hQ hok =>
    have hi' := hi.apply hp hok
    obtain rfl := hi.apply_eq hp hok
    refine hi.pins_after hp hpins (fun b hb => ?_)
    obtain ⟨more, hmore⟩ := hi'.fin_written
    dsimp only at hmore
    rw [hb] at hmore
    rw [← hmore]
    simp

/-- Every pin of a reader is the value at some height between its own and the store's. -/
theorem FollowRun.pins (hs : FollowRun keccak base S P Q s) :
    Mem.PinsLag (s.w.written.map Batch.diff) (base.state keccak) s.fin.length s.r.st := by
  induction hs with
  | start hw f hh => exact Mem.PinsLag.new _ _ _ f
  | step hs hst ih => exact hs.inv.pins_step hst ih

/-! ## A reader that has caught up -/

/-- While the store answers, no read fails. -/
theorem peek_ok {h : Handle} {env : Env} {k : Key} {v : Val k}
    (hr : readLatest keccak h env k = .ok v) (st : Mem.State) (i : Nat) :
    ∃ v, st.peek keccak h env i k = .ok v := by
  rw [Mem.State.peek]
  cases st.known i k with
  | some v => exact ⟨v, rfl⟩
  | none => exact ⟨v, hr⟩

theorem slot_fst_of_ok {h : Handle} {env env' : Env} {a : Address} {v : Option Account}
    (hr : readLatest keccak h env' (.account a) = .ok v) (st : Mem.State) (i : Nat) (slot : Hash) :
    (st.slot keccak h env env' i a slot).1 = st.peek keccak h env i (.slot a slot) := by
  rcases Mem.slot_fst env' st i a slot with h | ⟨e, he, -⟩
  · exact h
  · rw [hr] at he
    cases he

/-- A reader without pending events whose cursor is at the end has the layers of the bus
over the blocks the bus has announced as final. -/
theorem FollowInv.caughtUp (hi : FollowInv keccak base S s) (hp : s.r.pending = [])
    (hn : s.r.next = s.w.evs.length) :
    s.fin = s.w.fin ∧ s.r.st.batches = s.w.sink.bus.layers := by
  have hl := hi.ledger
  rw [hp, hn, List.drop_length, List.nil_append] at hl
  exact Ledger.mk.inj (Option.some.inj hl)

/-- A read of a caught-up reader returns the fold of its layers: a pin or an answer of the
store can only differ from that by the block in the store that is not announced yet, and
that block is among the layers. -/
theorem FollowInv.peek_exact (hi : FollowInv keccak base S s) (hno : NoOrphans (base.state keccak))
    (hpins : Mem.PinsLag (s.w.written.map Batch.diff) (base.state keccak) s.fin.length s.r.st)
    (hfin : s.fin = s.w.fin) (hbs : s.r.st.batches = s.w.sink.bus.layers) {i : Nat} {k : Key}
    {v : Val k} (hr : s.r.st.peek keccak s.r.handle s.w.sink.env i k = .ok v) :
    v = foldBatches s.w.sink.bus.layers (foldBatches s.w.fin (base.state keccak)) k := by
  have hc := hi.writer.tip.chain
  obtain ⟨j, hj1, hj2, rfl⟩ := Mem.peek_sees hpins hi.layers hi.fin_le
    (fun j _ => Mem.noOrphans_height hno hc.written_chain j)
    (fun _ => Mem.answers_of_refines hc.refines hi.coherent hc.written_chain k) hr
  rw [foldBatches_eq s.w.sink.bus.layers, Diff.applyAll_eq_stack, Diff.apply, ← hbs]
  cases hst : Diff.stack (s.r.st.batches.map Batch.diff) k with
  | some x => rfl
  | none =>
    have hbase : foldBatches s.w.fin (base.state keccak) =
        Diff.height (s.w.written.map Batch.diff) (base.state keccak) s.fin.length := by
      rw [Mem.height_eq_foldBatches, hfin, Writer.written, List.take_left' rfl]
    rw [hbase]
    refine Diff.height_eq_of_untouched hj1 (fun n d hn _ hd => ?_)
    rw [Writer.written, List.map_append, List.getElem?_append_right (by
      rw [List.length_map, ← hfin]; exact hn)] at hd
    obtain ⟨b, hb, rfl⟩ := List.mem_map.mp (List.mem_of_getElem? hd)
    refine (Diff.stack_eq_none_iff _ k).mp hst _ (List.mem_map_of_mem ?_)
    rw [hbs]
    exact hi.writer.commits_layers hb

/-- The executors of a caught-up reader read what the writer's executors read. -/
theorem FollowInv.reads_caughtUp (hi : FollowInv keccak base S s)
    (hno : NoOrphans (base.state keccak))
    (hpins : Mem.PinsLag (s.w.written.map Batch.diff) (base.state keccak) s.fin.length s.r.st)
    (hp : s.r.pending = []) (hn : s.r.next = s.w.evs.length) (i j : Nat) (a : Address) :
    (s.r.st.account keccak s.r.handle s.w.sink.env i a).1 =
      (s.w.sink.st.account keccak s.w.handle s.w.sink.env j a).1 ∧
    ∀ slot,
      (s.r.st.slot keccak s.r.handle s.w.sink.env s.w.sink.env i a slot).1 =
        (s.w.sink.st.slot keccak s.w.handle s.w.sink.env s.w.sink.env j a slot).1 ∧
      ∀ env' v, (s.r.st.slot keccak s.r.handle s.w.sink.env env' i a slot).1 = .ok v →
        (s.w.sink.st.slot keccak s.w.handle s.w.sink.env s.w.sink.env j a slot).1 = .ok v := by
  obtain ⟨hfin, hbs⟩ := hi.caughtUp hp hn
  have hc := hi.writer.tip.chain
  have hstore : ∀ h k, Coherent h s.w.sink.env → readLatest keccak h s.w.sink.env k =
      .ok (foldBatches s.w.written (base.state keccak) k) :=
    fun h k hcoh => Mem.readLatest_ok hc.refines hcoh hc.written_chain hi.writer.complete k
  have hcoh : Coherent s.w.handle s.w.sink.env := hc.coherent
  -- every read of either process is the fold of the same layers over the same blocks
  have hpeek : ∀ k, s.r.st.peek keccak s.r.handle s.w.sink.env i k =
      s.w.sink.st.peek keccak s.w.handle s.w.sink.env j k := by
    intro k
    obtain ⟨v, hv⟩ := peek_ok (hstore s.r.handle k hi.coherent) s.r.st i
    obtain ⟨v', hv'⟩ := peek_ok (hstore s.w.handle k hcoh) s.w.sink.st j
    rw [hv, hv', hi.peek_exact hno hpins hfin hbs hv, hi.writer.peek_exact hno hv']
  refine ⟨?_, fun slot => ?_⟩
  · rw [Mem.account_fst, Mem.account_fst]
    exact hpeek (.account a)
  · rw [slot_fst_of_ok (hstore s.w.handle (.account a) hcoh), ← hpeek (.slot a slot)]
    refine ⟨slot_fst_of_ok (hstore s.r.handle (.account a) hi.coherent) _ _ _, fun env' v hv => ?_⟩
    rcases Mem.slot_fst env' s.r.st i a slot with h | ⟨e, -, h⟩
    · exact h.symm.trans hv
    · rw [hv] at h
      cases h

/-- In every state of every interleaving: a `Finalize` the reader has to apply next does
not fail.  When the writer is between calls of the sink and the reader has applied all
published events, both have the same layers and their executors read the same, whatever
was pinned on the way.  `env'` is what the second store read of a reader's slot read
sees, at any later time. -/
theorem reader_converges (hno : NoOrphans (base.state keccak))
    (hs : FollowRun keccak base S P Q s) :
    (∀ height hash rest, s.r.pending = .finalize height hash :: rest →
      (s.r.st.finalize height hash).1 = .ok ()) ∧
    (s.w.stage = .idle → s.r.pending = [] → s.r.next = s.w.sink.bus.env.count →
      s.r.st.layers = s.w.sink.st.layers ∧
      ∀ i j a,
        (s.r.st.account keccak s.r.handle s.w.sink.env i a).1 =
          (s.w.sink.st.account keccak s.w.handle s.w.sink.env j a).1 ∧
        ∀ slot,
          (s.r.st.slot keccak s.r.handle s.w.sink.env s.w.sink.env i a slot).1 =
            (s.w.sink.st.slot keccak s.w.handle s.w.sink.env s.w.sink.env j a slot).1 ∧
          ∀ env' v, (s.r.st.slot keccak s.r.handle s.w.sink.env env' i a slot).1 = .ok v →
            (s.w.sink.st.slot keccak s.w.handle s.w.sink.env s.w.sink.env j a slot).1 = .ok v) := by
  have hi := hs.inv
  refine ⟨fun height hash rest hp => hi.finalize_ok hp, fun hidle hp hn => ?_⟩
  have hcount : s.r.next = s.w.evs.length := by
    rw [hn, BusEnv.count, hi.writer.carries.seq]
    rfl
  refine ⟨?_, fun i j a => hi.reads_caughtUp hno hs.pins hp hcount i j a⟩
  have hbus : s.w.sink.bus.layers = s.w.sink.st.batches := by
    rw [hi.writer.layers, hidle]
    rfl
  rw [hi.layers, (hi.caughtUp hp hcount).2, hbus]
  exact hi.writer.tip.chain.layers.symm

/-! ### A reader that joins after one block is delivered -/

namespace Sample

open Store.Sample
open Node.Sample

/-- Handshake with the block as the only layer. -/
def joined (w : Writer) (b : Batch) : System := ⟨w, Follower.start none [b] 1, [], none⟩

/-- The layer is applied. -/
def following (w : Writer) (b : Batch) : System :=
  ⟨w, { (joined w b).r with st := (Mem.State.new none).applyBlock b, pending := [] }, [], some [b]⟩

theorem following_step (w : Writer) (b : Batch) (P : System → Key → Prop)
    {Q : System → Event → Prop} (hQ : Q (joined w b) (.block b)) :
    FollowStep digest trie 5 P Q (joined w b) (following w b) :=
  .apply rfl rfl hQ rfl

theorem following_run {w : Writer} {b : Batch} (hw : WriterRun digest trie 5 w) (hfin : w.fin = [])
    (hh : w.sink.bus.env.handshake = .ok (0, [b], 1)) (P : System → Key → Prop)
    {Q : System → Event → Prop} (hQ : Q (joined w b) (.block b)) :
    FollowRun digest trie 5 P Q (following w b) := by
  have hjoin : FollowRun digest trie 5 P Q ⟨w, Follower.start none [b] 1, w.fin, none⟩ :=
    .start hw none hh
  rw [hfin] at hjoin
  exact .step hjoin (following_step w b P hQ)

theorem delivered_handshake : delivered.sink.bus.env.handshake = .ok (0, [block6], 1) := by
  decide +kernel

end Sample

/-- The theorem at work: the reader that has applied block 6 reads the account as the
writer does. -/
theorem reader_converges_sample :
    ((Sample.following Node.Sample.delivered Store.Sample.block6).r.st.account Store.Sample.digest
      {} Node.Sample.delivered.sink.env 0 Store.Sample.addr).1 =
        .ok (some (Store.Sample.acct 20)) := by
  have hrun : FollowRun Store.Sample.digest Store.Sample.trie 5 (fun _ _ => True)
      (fun _ _ => True) (Sample.following Node.Sample.delivered Store.Sample.block6) :=
    Sample.following_run Node.Sample.delivered_run rfl Sample.delivered_handshake _ trivial
  obtain ⟨-, hreads⟩ := (reader_converges Mem.Sample.noOrphans hrun).2 rfl rfl (by decide +kernel)
  refine (hreads 0 0 Store.Sample.addr).1.trans ?_
  decide +kernel

/-! ## A reader that lags -/

/-- No block that is committed above the height the reader has folded touches the key. -/
def Quiet (s : System) (k : Key) : Prop := ∀ b ∈ s.w.written.drop s.fin.length, b.diff k = none

/-- A reset that drops layers puts others in their place. -/
def KeepsTip (s : System) (ev : Event) : Prop := ev = .reset [] → s.r.st.layers = []

/-- The store's answer for a key that no block above the reader's height touches is the
value at the reader's height. -/
theorem FollowInv.answers_quiet (hi : FollowInv keccak base S s) {k : Key} (hq : Quiet s k) :
    Mem.Answers keccak s.r.handle s.w.sink.env
      (Diff.applyAll (s.fin.map Batch.diff) (base.state keccak)) k := by
  have hc := hi.writer.tip.chain
  obtain ⟨more, hmore⟩ := hi.fin_written
  have hans := Mem.answers_of_refines hc.refines hi.coherent hc.written_chain k
  have hwritten : s.w.tip.written = s.fin ++ more := hmore.symm
  intro v hv
  rw [hans v hv, hwritten, List.map_append, Diff.applyAll_append]
  refine Diff.applyAll_of_untouched (fun d hd => ?_) _
  obtain ⟨b, hb, rfl⟩ := List.mem_map.mp hd
  exact hq b (by rw [← hmore, List.drop_left' rfl]; exact hb)

theorem fin_prefix_finAfter (s : System) (ev : Event) : s.fin <+: s.finAfter ev := by
  cases ev with
  | finalize height hash => exact List.prefix_append _ _
  | block b => exact List.prefix_rfl
  | reset bs => exact List.prefix_rfl

/-- If the store is asked for such keys only, every pin is the value at the reader's own
height. -/
theorem FollowRun.pins_quiet (hs : FollowRun keccak base S Quiet Q s) :
    Mem.PinsLag (s.fin.map Batch.diff) (base.state keccak) s.fin.length s.r.st := by
  induction hs with
  | start hw f hh => exact Mem.PinsLag.new _ _ _ f
  | step hs hst ih =>
    have hi := hs.inv
    cases hst with
    | writer hs => exact ih
    | read hs =>
      exact hs.pins ih (by rw [List.length_map]) (fun k hk => hi.answers_quiet hk)
    | sees hh => exact ih
    | poll hp hok => exact ih
    | @apply ev rest hp hq hQ r hok =>
      obtain rfl := hi.apply_eq hp hok
      obtain ⟨more, hmore⟩ := fin_prefix_finAfter _ ev
      have hpins := ih.append (more.map Batch.diff)
      rw [← List.map_append, hmore] at hpins
      refine hi.pins_after hp hpins (fun b hb => ?_)
      rw [hb]
      simp

/-! ### The stamp -/

theorem tip_preferenceReset (st : Mem.State) (bs : List Batch) :
    (st.preferenceReset bs).tip = (bs.getLast?.map Batch.hash).getD st.tip := by
  have hfold : ∀ (bs : List Batch) (st : Mem.State),
      (bs.foldl Mem.State.push st).tip = (bs.getLast?.map Batch.hash).getD st.tip := by
    intro bs
    induction bs with
    | nil => intro st; rfl
    | cons b bs ih =>
      intro st
      rw [List.foldl_cons, ih]
      cases bs with
      | nil => rfl
      | cons b' bs => simp [List.getLast?_cons]
  exact hfold bs _

/-- The stamp names the last block of the chain that the reader's layers complete. -/
def Stamps (s : System) : Prop :=
  ∀ c, s.stamped = some c →
    c = s.fin ++ s.r.st.batches ∧ c.getLast?.map Batch.hash = some s.r.st.tip

theorem FollowInv.stamps_apply (hi : FollowInv keccak base S s) {ev : Event} {rest : List Event}
    (hp : s.r.pending = ev :: rest) (hk : KeepsTip s ev) (hst : Stamps s) {r : Follower}
    (hok : s.r.apply s.w.sink.bus.env ev = .ok r) :
    Stamps ⟨s.w, { r with pending := rest }, s.finAfter ev, s.stampedAfter ev⟩ := by
  obtain rfl := hi.apply_eq hp hok
  obtain ⟨bs, hl, hstep⟩ := hi.layers_after hp
  have hbs := Mem.batches_of_layers hl
  intro c hc
  dsimp only at hc ⊢
  rw [hbs]
  cases ev with
  | block b =>
    obtain rfl := Option.some.inj hc
    obtain ⟨-, rfl⟩ := Ledger.mk.inj (Option.some.inj hstep)
    refine ⟨List.append_assoc _ _ _, ?_⟩
    rw [List.getLast?_concat]
    rfl
  | reset preferred =>
    obtain ⟨-, rfl⟩ := Ledger.mk.inj (Option.some.inj hstep)
    rw [stAfter, tip_preferenceReset]
    cases preferred with
    | nil =>
      -- nothing is dropped, and the stamp stays
      have hnil : s.r.st.batches = [] := by rw [Mem.State.batches, hk rfl]; rfl
      have hold := hst c hc
      rw [hnil] at hold
      exact hold
    | cons b preferred =>
      obtain rfl := Option.some.inj hc
      refine ⟨rfl, ?_⟩
      rw [List.getLast?_append]
      cases hlast : (b :: preferred).getLast? with
      | none => simp at hlast
      | some x => rfl
  | finalize height hash =>
    obtain ⟨b, bs', hb, rfl, rfl, -, -⟩ := hi.next_finalize hp
    have hl0 : s.r.st.layers = Mem.newLayer b :: bs'.map Mem.newLayer := by
      rw [hi.layers, hb]
      rfl
    obtain ⟨-, hfold, hrest⟩ := Mem.finalize_oldest hl0
    have hbs' : bs = bs' := hbs.symm.trans (Mem.batches_of_layers hrest)
    obtain ⟨hchain, hlast⟩ := hst c hc
    have hc' : c = s.fin ++ [b] ++ bs := by rw [hchain, hb, hbs']; simp
    refine ⟨by rw [hc', System.finAfter, hb]; rfl, ?_⟩
    rw [stAfter, hfold.tip, hrest]
    cases bs' with
    | nil =>
      rw [hc', hbs', List.append_nil, List.getLast?_concat]
      rfl
    | cons b' bs' => exact hlast

theorem FollowRun.stamps (hs : FollowRun keccak base S P KeepsTip s) : Stamps s := by
  induction hs with
  | start hw f hh => exact fun c hc => absurd hc (by simp)
  | step hs hst ih =>
    have hi := hs.inv
    cases hst with
    | writer hs => exact ih
    | read hs =>
      intro c hc
      obtain ⟨h1, h2⟩ := ih c hc
      dsimp only
      rw [Mem.State.batches, hs.layers, hs.tip]
      exact ⟨h1, h2⟩
    | sees hh => exact ih
    | poll hp hok => exact ih
    | apply hp hq hQ hok => exact hi.stamps_apply hp hQ ih hok

/-- In every run in which the reader's executors ask the store only for keys that no
block above the reader's height touches, and no reset drops layers without replacing
them: the stamp names the last block of the chain the reader is on, and a read that
again only asks the store for such a key returns the value at the end of that chain. -/
theorem stamped_reads_exact (hno : NoOrphans (base.state keccak))
    (hs : FollowRun keccak base S Quiet KeepsTip s) {c : List Batch} (hc : s.stamped = some c)
    (i : Nat) (a : Address) :
    c.getLast?.map Batch.hash = some s.r.st.tip ∧
    (∀ v, (s.r.st.known i (.account a) = none → Quiet s (.account a)) →
      (s.r.st.account keccak s.r.handle s.w.sink.env i a).1 = .ok v →
      v = foldBatches c (base.state keccak) (.account a)) ∧
    (∀ slot env' v, (s.r.st.known i (.slot a slot) = none → Quiet s (.slot a slot)) →
      (s.r.st.slot keccak s.r.handle s.w.sink.env env' i a slot).1 = .ok v →
      v = foldBatches c (base.state keccak) (.slot a slot)) := by
  have hi := hs.inv
  obtain ⟨hchain, hlast⟩ := hs.stamps c hc
  have hfin : ContractChain (base.state keccak) s.fin := by
    obtain ⟨more, hmore⟩ := hi.fin_written
    have hwritten : ContractChain (base.state keccak) s.w.written :=
      hi.writer.tip.chain.written_chain
    rw [← hmore] at hwritten
    exact (ContractChain.append.mp hwritten).1
  have hpeek : ∀ k v, (s.r.st.known i k = none → Quiet s k) →
      s.r.st.peek keccak s.r.handle s.w.sink.env i k = .ok v →
      v = foldBatches c (base.state keccak) k := by
    intro k v hq hr
    obtain ⟨j, hj1, hj2, rfl⟩ := Mem.peek_sees hs.pins_quiet hi.layers (by rw [List.length_map])
      (fun j _ => Mem.noOrphans_height hno hfin j) (fun hk => hi.answers_quiet (hq hk)) hr
    have hj : j = (s.fin.map Batch.diff).length := by
      rw [List.length_map] at hj2 ⊢
      omega
    rw [hj, Diff.height_length, ← foldBatches_eq, hchain, foldBatches_append,
      foldBatches_eq s.r.st.batches, Diff.applyAll_eq_stack, Diff.apply]
  refine ⟨hlast, fun v hq hr => ?_, fun slot env' v hq hr => ?_⟩
  · exact hpeek (.account a) v hq ((Mem.account_fst s.r.st i a).symm.trans hr)
  · rcases Mem.slot_fst env' s.r.st i a slot with h | ⟨e, -, h⟩
    · exact hpeek (.slot a slot) v hq (h.symm.trans hr)
    · rw [hr] at h
      cases h

/-- The theorem at work: the reader that has applied block 6 reads its end state. -/
theorem stamped_reads_exact_sample :
    foldBatches [Store.Sample.block6] (Store.Sample.trie.state Store.Sample.digest)
        (.account Store.Sample.addr) = (some (Store.Sample.acct 20) : Option Account) := by
  have hrun : FollowRun Store.Sample.digest Store.Sample.trie 5 Quiet KeepsTip
      (Sample.following Node.Sample.delivered Store.Sample.block6) :=
    Sample.following_run Node.Sample.delivered_run rfl Sample.delivered_handshake Quiet
      (fun h => by cases h)
  obtain ⟨-, hacct, -⟩ := stamped_reads_exact Mem.Sample.noOrphans hrun (c := [Store.Sample.block6])
    rfl 0 Store.Sample.addr
  have hread : ((Sample.following Node.Sample.delivered Store.Sample.block6).r.st.account
      Store.Sample.digest {} Node.Sample.delivered.sink.env 0 Store.Sample.addr).1 =
        .ok (some (Store.Sample.acct 20)) := by
    decide +kernel
  exact (hacct _ (fun _ b hb => by cases hb) hread).symm

/-! ### A reader on a dropped fork

The writer delivers one block at height 6 and the reader applies it.  Then the
preference moves to a sibling, which is accepted and committed. -/

namespace Sample

open Store.Sample
open Node.Sample

/-- The block that is dropped writes a slot. -/
def dropped : Batch where
  block := 6
  hash := FixedBytes.ofNat 32 61
  parent := FixedBytes.ofNat 32 5
  time := 6000
  ops := [.slot addr slot1 (FixedBytes.ofNat 32 9)]

/-- Its sibling, which is accepted, writes the account. -/
def accepted : Batch where
  block := 6
  hash := FixedBytes.ofNat 32 62
  parent := FixedBytes.ofNat 32 5
  time := 6000
  ops := [.account addr (acct 30)]

theorem dropped_extends : Mem.Extends digest trie 5 [] [dropped] where
  numbers n b hn := by
    cases n with
    | zero => obtain rfl : dropped = b := by simpa using hn
              rfl
    | succ n => simp at hn
  contract := by
    refine ⟨⟨by decide, fun a ha _ => by simp [dropped] at ha, fun a hs => ?_⟩, trivial⟩
    obtain ⟨o, ho, hso⟩ := hs
    obtain rfl : o = .slot addr slot1 (FixedBytes.ofNat 32 9) := by simpa [dropped] using ho
    obtain rfl : addr = a := by simpa [Op.isSlotOf] using hso
    have hval : dropped.apply (foldBatches [] (trie.state digest)) (.account addr) =
        (some (acct 10) : Option Account) := by decide +kernel
    rw [hval]
    simp

theorem accepted_extends : Mem.Extends digest trie 5 [] [accepted] where
  numbers n b hn := by
    cases n with
    | zero => obtain rfl : accepted = b := by simpa using hn
              rfl
    | succ n => simp at hn
  contract := by
    refine ⟨⟨by decide, fun a ha _ => by simp [accepted] at ha, fun a hs => ?_⟩, trivial⟩
    obtain ⟨o, ho, hso⟩ := hs
    obtain rfl : o = .account addr (acct 30) := by simpa [accepted] using ho
    simp [Op.isSlotOf] at hso

/-- The writer at each point. -/
def w1 : Writer :=
  { started with sink := (started.sink.block none dropped).2, evs := [.block dropped] }

def w2 : Writer :=
  { w1 with
    sink := (w1.sink.preferenceReset none [accepted]).2
    evs := [.block dropped] ++ [.reset [accepted]] }

def w3 : Writer := { w2 with sink := w2.sink.finalizeWrite accepted, stage := .written accepted }

/-- The reader has the dropped block as its layer. -/
def forked : System := { following w1 dropped with w := w3 }

theorem forked_run : FollowRun digest trie 5 (fun _ _ => True) (fun _ _ => True) forked := by
  have h1 : WriterRun digest trie 5 w1 :=
    .step started_run (.block rfl rfl dropped_extends (by decide +kernel))
  have r1 : FollowRun digest trie 5 (fun _ _ => True) (fun _ _ => True) (following w1 dropped) :=
    following_run h1 rfl (by decide +kernel) _ trivial
  have r2 : FollowRun digest trie 5 (fun _ _ => True) (fun _ _ => True)
      { following w1 dropped with w := w2 } :=
    .step r1 (.writer (.preferenceReset rfl rfl accepted_extends (by decide +kernel)))
  exact .step r2 (.writer (.write rfl (by decide +kernel) (by decide +kernel) (by decide +kernel)))

end Sample

/-- The reader's stamp is the dropped block, at whose end the account has balance 10; its
read of the account is answered by the store, with the balance its accepted sibling wrote. -/
theorem reader_mixes_forks :
    FollowRun Store.Sample.digest Store.Sample.trie 5 (fun _ _ => True) (fun _ _ => True)
        Sample.forked ∧
      Sample.forked.r.st.tip = Sample.dropped.hash ∧
      Sample.forked.stamped = some [Sample.dropped] ∧
      foldBatches [Sample.dropped] (Store.Sample.trie.state Store.Sample.digest)
        (.account Store.Sample.addr) = (some (Store.Sample.acct 10) : Option Account) ∧
      (Sample.forked.r.st.account Store.Sample.digest Sample.forked.r.handle
        Sample.forked.w.sink.env 0 Store.Sample.addr).1 = .ok (some (Store.Sample.acct 30)) :=
  ⟨Sample.forked_run, rfl, rfl, by decide +kernel, by decide +kernel⟩

end Flatstate.Reader
