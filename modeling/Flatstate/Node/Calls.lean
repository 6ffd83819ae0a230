import Flatstate.Node.Published

set_option autoImplicit false

/-!
# Node: calls that finalize nothing (`node/tracker.go` over `node/sink.go`)

`Tracker.Head`, and `Tracker.Accepted` up to its `Sink.Finalize`, change what is published
but neither the store nor what is final.  Every outcome of such a call is one of three:
it is done, it is refused before anything changed, or the bus could not commit.
-/

namespace Flatstate.Node

open Foundation Schema Capture Store Tipbus

/-! ## Calls that finalize nothing -/

/-- The bus tells a new subscriber that `fin` is final. -/
def Announces (bus : Bus) (fin : UInt64) : Prop :=
  ∃ layers n, bus.env.handshake = .ok (fin, layers, n)

theorem announces_of_carries {bus : Bus} {evs : List Event} (h : Carries bus evs) :
    Announces bus bus.finalized :=
  ⟨_, _, h.handshake⟩

/-- A call of the sink that changes neither the store nor what is final. -/
structure Kept (s s' : Sink) : Prop where
  env : s'.env = s.env
  finalized : s'.st.finalized = s.st.finalized
  announces : ∀ fin, Announces s.bus fin → Announces s'.bus fin

/-- Some events describe the bus. -/
def Live (s : Sink) : Prop := ∃ evs, Carries s.bus evs

section Kept

variable {s s' : Sink}

theorem Kept.refl (s : Sink) : Kept s s := ⟨rfl, rfl, fun _ h => h⟩

/-- A call that succeeded. -/
theorem Kept.of_called {st : Mem.State} {evs evs' : List Event} {layers : List Batch}
    (hc : Carries s.bus evs) (h : Called s st evs' layers s.bus.finalized s')
    (hst : st.finalized = s.st.finalized) : Kept s s' where
  env := h.env
  finalized := by rw [h.st, hst]
  announces := by
    rintro fin ⟨layers, n, hfin⟩
    rw [hc.handshake] at hfin
    obtain ⟨rfl, -, -⟩ : s.bus.finalized = fin ∧ _ ∧ _ := by simpa using hfin
    rw [← h.finalized]
    exact announces_of_carries h.carries

/-- A call whose publish did not commit. -/
theorem Kept.of_env {st : Mem.State} {bus : Bus} {pending : Hash → Option Batch}
    (hst : st.finalized = s.st.finalized) (hbus : bus.env = s.bus.env) :
    Kept s ⟨s.env, st, bus, pending⟩ where
  env := rfl
  finalized := hst
  announces fin hfin := by
    rw [Announces, hbus]
    exact hfin

/-- A publish that does not commit leaves the environment alone. -/
theorem publish_env_of_ne_ok {bus : Bus} {payload : Bytes}
    (h : (bus.publish none payload).1 ≠ .ok ()) :
    (bus.publish none payload).2.env = bus.env := by
  simp only [Bus.publish, reduceCtorEq, false_or] at h ⊢
  split
  · rfl
  · rename_i hev
    split
    · rfl
    · rename_i hst
      rw [if_neg hev, if_neg hst] at h
      exact absurd rfl h

theorem publishFinalize_layers {bus bus' : Bus} {height : UInt64} {hash : Hash}
    (h : bus.publishFinalize none height hash = (.ok (), bus')) :
    bus'.layers = bus.layers.tail := by
  rw [Bus.publishFinalize] at h
  cases hl : bus.layers with
  | nil =>
    rw [hl] at h
    cases h
  | cons l rest =>
    rw [hl] at h
    dsimp only at h
    split at h
    · cases h
    · have hlayers := (publish_cases none { bus with layers := rest, finalized := height }
        (Event.finalize height hash).encode).2
      rw [h] at hlayers
      exact hlayers

theorem publishBlock_env_of_ne_ok {bus : Bus} {b : Batch}
    (h : (bus.publishBlock none b).1 ≠ .ok ()) : (bus.publishBlock none b).2.env = bus.env := by
  rw [Bus.publishBlock] at h ⊢
  exact publish_env_of_ne_ok h

theorem publishReset_env_of_ne_ok {bus : Bus} {preferred : List Batch}
    (h : (bus.publishReset none preferred).1 ≠ .ok ()) :
    (bus.publishReset none preferred).2.env = bus.env := by
  rw [Bus.publishReset] at h ⊢
  exact publish_env_of_ne_ok h

theorem publishFinalize_env_of_ne_ok {bus : Bus} {height : UInt64} {hash : Hash}
    (h : (bus.publishFinalize none height hash).1 ≠ .ok ()) :
    (bus.publishFinalize none height hash).2.env = bus.env := by
  rw [Bus.publishFinalize] at h ⊢
  cases hl : bus.layers with
  | nil => rfl
  | cons l rest =>
    rw [hl] at h
    dsimp only at h ⊢
    split
    · rfl
    · rename_i hblock
      rw [if_neg hblock] at h
      exact publish_env_of_ne_ok h

theorem published_ne_ok {r : Except BusErr Unit × Bus} (h : (s.published r).1 ≠ .ok ()) :
    r.1 ≠ .ok () := by
  obtain ⟨res, bus⟩ := r
  cases res with
  | error e => simp
  | ok u => exact absurd rfl h

theorem block_kept {b : Batch} (hl : Live s) :
    Kept s (s.block none b).2 ∧ ((s.block none b).1 = .ok () → Live (s.block none b).2) := by
  obtain ⟨evs, hc⟩ := hl
  by_cases hok : (s.block none b).1 = .ok ()
  · have h := block_ok hc hok
    exact ⟨Kept.of_called hc h rfl, fun _ => ⟨_, h.carries⟩⟩
  · refine ⟨?_, fun h => absurd h hok⟩
    dsimp only [Sink.block] at hok ⊢
    rw [published_snd]
    exact Kept.of_env rfl (publishBlock_env_of_ne_ok (published_ne_ok hok))

theorem finalized_preferenceReset (st : Mem.State) (preferred : List Batch) :
    (st.preferenceReset preferred).finalized = st.finalized := by
  have hfold : ∀ (bs : List Batch) (st : Mem.State),
      (bs.foldl Mem.State.push st).finalized = st.finalized := by
    intro bs
    induction bs with
    | nil => exact fun st => rfl
    | cons b bs ih => exact fun st => ih (st.push b)
  exact hfold preferred _

theorem preferenceReset_kept (preferred : List Batch) (hl : Live s) :
    Kept s (s.preferenceReset none preferred).2 ∧
      ((s.preferenceReset none preferred).1 = .ok () →
        Live (s.preferenceReset none preferred).2) := by
  obtain ⟨evs, hc⟩ := hl
  by_cases hok : (s.preferenceReset none preferred).1 = .ok ()
  · have h := preferenceReset_ok hc hok
    exact ⟨Kept.of_called hc h (finalized_preferenceReset _ _), fun _ => ⟨_, h.carries⟩⟩
  · refine ⟨?_, fun h => absurd h hok⟩
    dsimp only [Sink.preferenceReset] at hok ⊢
    rw [published_snd]
    exact Kept.of_env (finalized_preferenceReset _ _)
      (publishReset_env_of_ne_ok (published_ne_ok hok))

end Kept

/-! ## Calls of the tracker -/

section Calls

variable {Tag : Batch → Prop} {num : Hash → Nat} {par : Hash → Hash} {t : Tracker} {s : Sink}

/-- What a call of the tracker that finalizes nothing comes to, `P` being what it ensures:
it succeeds, or it finds a block it does not know and does nothing, or the bus could not
commit. -/
inductive Tracked (Tag : Batch → Prop) (num : Hash → Nat) (t : Tracker) (s : Sink)
    (P : Tracker → Prop) : Except TrackErr Unit × Tracker × Sink → Prop where
  | done {stack : List Batch} {s' : Sink} (hp : Published Tag num { t with stack := stack } s')
      (hk : Kept s s') (hl : Live s') (h : P { t with stack := stack }) :
      Tracked Tag num t s P (.ok (), { t with stack := stack }, s')
  | refused {e : TrackErr} (he : ∀ e', e ≠ .sink e') : Tracked Tag num t s P (.error e, t, s)
  | failed {t' : Tracker} {s' : Sink} (hk : Kept s s') :
      Tracked Tag num t s P (.error (.sink (.bus .txn)), t', s')

/-- Nothing is to be done. -/
theorem Tracked.same {P : Tracker → Prop} (hp : Published Tag num t s) (hl : Live s) (h : P t) :
    Tracked Tag num t s P (.ok (), t, s) :=
  @Tracked.done Tag num t s P t.stack s hp (Kept.refl s) hl h

/-- A sink call of the tracker. -/
theorem Tracked.sinkCall {P : Tracker → Prop} {stack : List Batch}
    {r : Except NodeErr Unit × Sink} (hr : Clean r.1) (hk : Kept s r.2)
    (hl : r.1 = .ok () → Live r.2) (hp : Published Tag num { t with stack := stack } r.2)
    (h : P { t with stack := stack }) :
    Tracked Tag num t s P (sinkCall { t with stack := stack } r) := by
  rcases sinkCall_cases { t with stack := stack } hr with ⟨hok, hres⟩ | hres
  · rw [hres]
    exact .done hp hk (hl hok) h
  · rw [hres]
    exact .failed hk

theorem Published.numbers (h : Published Tag num t s) (hd : Determines Tag num par) :
    ∀ h b, t.table.get h = some b → b.block.toNat = num h ∧ num b.parent < num h := by
  intro hash b hb
  obtain ⟨rfl, hT, -⟩ := h.table hash b hb
  have hsucc := hd.succ b hT
  exact ⟨hd.block b hT, by omega⟩

/-- `Tracker.Head` of any hash. -/
theorem Published.tracked_head (h : Published Tag num t s) (hd : Determines Tag num par)
    (hl : Live s) (hash : Hash) :
    Tracked Tag num t s (fun _ => True) (t.head s hash) := by
  rcases chainTo_cases (h.numbers hd) hash with ⟨es, hp, hchain⟩ | ⟨u, hu⟩
  · obtain ⟨hlinked, hT, -, -⟩ := h.linked_path hd hp
    rw [Tracker.head, hchain]
    dsimp only
    split
    · exact .same h hl trivial
    · split
      · rename_i hext
        obtain ⟨hlen, hsame⟩ := hext
        cases hlast : (es.map Prod.snd).reverse.getLast? with
        | none => exact .same h hl trivial
        | some b =>
          obtain ⟨c, hc⟩ := List.getLast?_eq_some_iff.mp hlast
          rw [hc] at hlen hsame hlinked hT ⊢
          have hclen : c.length = t.stack.length := by simpa using hlen
          rw [← hclen, List.take_left' rfl, sameChain_iff] at hsame
          obtain ⟨hclean, bus, hbus, hs⟩ := block_cases s b
          obtain ⟨hk, hlive⟩ := block_kept (b := b) hl
          refine .sinkCall hclean hk hlive ?_ trivial
          rw [hs]
          exact h.block hlinked hT hsame hbus
      · obtain ⟨hclean, bus, hbus, hs⟩ := preferenceReset_cases s (es.map Prod.snd).reverse
        obtain ⟨hk, hlive⟩ := preferenceReset_kept (es.map Prod.snd).reverse hl
        refine .sinkCall hclean hk hlive ?_ trivial
        rw [hs]
        exact h.reset hlinked hT hbus
  · rw [Tracker.head, hu]
    exact .refused (by simp)

/-- The first part of `Tracker.Accepted`: afterwards the accepted block is the oldest
published one. -/
theorem Published.tracked_accept (h : Published Tag num t s) (hd : Determines Tag num par)
    (hl : Live s) (block : UInt64) (hash : Hash) :
    Tracked Tag num t s (fun t' => t'.stack.head?.map Batch.hash = some hash)
      (t.publishAccepted s block hash) := by
  rw [Tracker.publishAccepted]
  split
  · rename_i hhead
    exact .same h hl hhead
  · cases hb : t.table.get hash with
    | none => exact .refused (by simp)
    | some b =>
      obtain ⟨hbh, hbT, -⟩ := h.table hash b hb
      dsimp only
      split
      · exact .refused (by simp)
      · rename_i hpar
        have hlinked : Linked t.finalizedHash t.finalizedHeight.toNat [b] := by
          refine ⟨not_not.mp hpar, ?_, trivial⟩
          rw [hd.block b hbT, hd.succ b hbT, not_not.mp hpar, h.finalized]
        obtain ⟨hclean, bus, hbus, hs⟩ := preferenceReset_cases s [b]
        obtain ⟨hk, hlive⟩ := preferenceReset_kept [b] hl
        refine .sinkCall hclean hk hlive ?_ (by simp [hbh])
        rw [hs]
        exact h.reset hlinked (by simpa using hbT) hbus

/-- What `Sink.Finalize` found under the hash of the oldest published block. -/
theorem Published.check (h : Published Tag num t s) (hd : Determines Tag num par)
    {block : UInt64} {hash : Hash} {b : Batch}
    (hhead : t.stack.head?.map Batch.hash = some hash)
    (hc : s.finalizeCheck block hash = .ok b) :
    Tag b ∧ b.hash = hash ∧ b.block = block ∧ b.parent = t.finalizedHash ∧
      b.block.toNat = t.finalizedHeight.toNat + 1 ∧ block.toNat = num hash := by
  rw [Sink.finalizeCheck] at hc
  cases hp : s.pending hash with
  | none => simp [hp] at hc
  | some p =>
    simp only [hp] at hc
    split at hc
    · cases hc
    · rename_i hblock
      obtain rfl := Except.ok.inj hc
      obtain ⟨hph, hpT, -⟩ := h.pendingTag hash p hp
      have hlinked := h.linked
      cases hstack : t.stack with
      | nil => simp [hstack] at hhead
      | cons b0 stack =>
        rw [hstack] at hhead hlinked
        obtain rfl : b0.hash = hash := by simpa using hhead
        have hb0T : Tag b0 := h.stack b0 (by simp [hstack])
        obtain ⟨hpar, hnum, -⟩ := hlinked
        refine ⟨hpT, hph, not_not.mp hblock, ?_, ?_, ?_⟩
        · rw [hd.parent p hpT, hph, ← hd.parent b0 hb0T, hpar]
        · rw [hd.block p hpT, hph, ← hd.block b0 hb0T, hnum]
        · rw [← not_not.mp hblock, hd.block p hpT, hph]

/-- `Sink.Finalize`'s fold into the tip view succeeds. -/
theorem Published.fold (h : Published Tag num t s) (hd : Determines Tag num par)
    {block : UInt64} {hash : Hash} {b : Batch}
    (hhead : t.stack.head?.map Batch.hash = some hash)
    (hc : s.finalizeCheck block hash = .ok b) :
    ((s.finalizeWrite b).finalizeFold block hash).1 = .ok () ∧
      ((s.finalizeWrite b).finalizeFold block hash).2.st.finalized = block := by
  obtain ⟨-, -, -, -, -, hblock⟩ := h.check hd hhead hc
  obtain ⟨-, -, l, rest, -, hbus, -, hlh, -, hlb, -⟩ := h.oldest hd hhead hblock
  have hlayers : (s.finalizeWrite b).st.layers = Mem.newLayer l :: rest.map Mem.newLayer := by
    have hl := h.layers
    rw [hbus] at hl
    exact hl
  obtain ⟨hok, hfolds, -⟩ := Mem.finalize_oldest hlayers
  rw [hlh, hlb] at hok hfolds
  refine ⟨?_, ?_⟩
  · rw [Sink.finalizeFold]
    cases hf : (s.finalizeWrite b).st.finalize block hash with
    | mk res st =>
      rw [hf] at hok
      dsimp only at hok
      subst hok
      rfl
  · rw [finalizeFold_snd]
    exact hfolds.finalized.trans hlb

/-- The last step of `Sink.Finalize` completes the call. -/
theorem finalize_of_steps {block : UInt64} {hash : Hash} {b : Batch}
    (hc : s.finalizeCheck block hash = .ok b)
    (hok : ((s.finalizeWrite b).finalizeFold block hash).1 = .ok ()) :
    s.finalize none block hash =
      (((s.finalizeWrite b).finalizeFold block hash).2.finalizeMark block).finalizePublish none
        block hash := by
  rw [Sink.finalize, hc]
  dsimp only
  cases hf : (s.finalizeWrite b).finalizeFold block hash with
  | mk res s' =>
    rw [hf] at hok
    dsimp only at hok
    subst hok
    rfl

end Calls

end Flatstate.Node
