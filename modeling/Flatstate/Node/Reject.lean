import Flatstate.Mem.Drain
import Flatstate.Node.Sink

set_option autoImplicit false

/-!
# Node: finalizations that the sink rejects

`Sink.Finalize` checks its arguments against the sink's own table, the oldest layer of the
tip view and the oldest layer of the bus.  The store transaction stands after the first of
these checks and before the others.  Here is every state a sink can get into,
whatever its calls return, and exactly when a rejected finalization has left no trace.
-/

namespace Flatstate.Node

open Foundation Schema Capture Store
open Mem (SameReads PinsIdle sameReads_lockAndDrain_iff)
open Tipbus

/-- The states of a sink over a store: calls in any order and with any outcome, side buffers
that executors fill meanwhile, and other writers of the store. -/
inductive Sink.Reached : Sink → Prop where
  | new (env : Env) (finalized : Option UInt64) :
      Reached (newSink env (Mem.State.new finalized) openWriter)
  | block {s : Sink} (h : Reached s) (cut : Option Cut) (b : Batch) : Reached (s.block cut b).2
  | preferenceReset {s : Sink} (h : Reached s) (cut : Option Cut) (preferred : List Batch) :
      Reached (s.preferenceReset cut preferred).2
  | finalize {s : Sink} (h : Reached s) (cut : Option Cut) (block : UInt64) (hash : Hash) :
      Reached (s.finalize cut block hash).2
  /-- the watermark's transaction fails, after the tip view has folded the block -/
  | unmarked {s : Sink} (h : Reached s) {block : UInt64} {hash : Hash} {b : Batch}
      (hcheck : s.finalizeCheck block hash = .ok b) :
      Reached ((s.finalizeWrite b).finalizeFold block hash).2
  | buffers {s : Sink} (h : Reached s) (bufs : List Mem.SideBuffer) :
      Reached { s with st := { s.st with buffers := bufs } }
  | store {s : Sink} (h : Reached s) (env : Env) : Reached { s with env := env }

section Rejected

variable (keccak : Bytes → Hash) (h : Handle)

/-- Nothing that can be observed of the sink has changed. -/
structure Unmoved (s s' : Sink) : Prop where
  /-- the rows and the watermark of the main store -/
  env : s'.env = s.env
  finalized : s'.st.finalized = s.st.finalized
  layers : s'.st.layers = s.st.layers
  tip : (s'.st.tip, s'.st.tipBlock, s'.st.tipTime) = (s.st.tip, s.st.tipBlock, s.st.tipTime)
  /-- what every executor reads through the tip view -/
  reads : SameReads keccak h s.env s.st s'.env s'.st
  pending : s'.pending = s.pending
  bus : s'.bus = s.bus

/-- The oldest layer of the tip view is the block. -/
def Oldest (st : Mem.State) (block : UInt64) (hash : Hash) : Prop :=
  ∃ l ∈ st.layers.head?, l.batch.block = block ∧ l.batch.hash = hash

theorem Unmoved.refl (s : Sink) : Unmoved keccak h s s :=
  ⟨rfl, rfl, rfl, rfl, fun _ => ⟨fun _ => rfl, fun _ _ => rfl, fun _ => rfl⟩, rfl, rfl⟩

/-! ## How a finalization ends -/

/-- `State.Finalize` drops the oldest layer if it is the block, else it fails and only merges
the side buffers. -/
theorem stateFinalize_cases (st : Mem.State) (block : UInt64) (hash : Hash) :
    (Oldest st block hash ∧ (st.finalize block hash).1 = .ok () ∧
        (st.finalize block hash).2.layers ≠ st.layers) ∨
      ¬ Oldest st block hash ∧ ∃ e, st.finalize block hash = (.error e, st.lockAndDrain) := by
  have hdrain : st.lockAndDrain.layers = st.layers := rfl
  simp only [Mem.State.finalize, hdrain, Oldest]
  cases st.layers with
  | nil => exact Or.inr ⟨by simp, _, rfl⟩
  | cons l rest =>
    dsimp only
    split
    · rename_i hblock
      exact Or.inr ⟨by simp [hblock], _, rfl⟩
    · rename_i hblock
      split
      · rename_i hhash
        exact Or.inr ⟨by simp [hhash], _, rfl⟩
      · rename_i hhash
        exact Or.inl ⟨⟨l, rfl, not_not.mp hblock, not_not.mp hhash⟩, rfl,
          (List.cons_ne_self l rest).symm⟩

/-- Once the tip view has folded the block, the sink rejects the call exactly when the bus has
another oldest layer. -/
theorem finalizePublish_rejects_iff (s : Sink) (cut : Option Cut) (block : UInt64) (hash : Hash) :
    (∃ e, (s.finalizePublish cut block hash).1 = .error e ∧ e ≠ .bus .txn) ↔
      s.bus.layers.head?.map Batch.block ≠ some block := by
  rw [Sink.finalizePublish]
  dsimp only
  rw [Bus.publishFinalize]
  cases hl : s.bus.layers with
  | nil => simp [Sink.published]
  | cons l rest =>
    by_cases hb : l.block = block
    · have hp := (publish_cases cut { s.bus with layers := rest, finalized := block }
        (Event.finalize block hash).encode).1
      simp only [hb, ne_eq, not_true_eq_false, if_false, List.head?_cons, Option.map_some, iff_false]
      rintro ⟨e, he, hne⟩
      rcases hpub : Bus.publish cut { s.bus with layers := rest, finalized := block }
        (Event.finalize block hash).encode with ⟨r, bus⟩
      rw [hpub] at hp he
      rcases hp with hp | hp
      · cases hp
        cases he
      · cases hp
        cases he
        exact hne rfl
    · simp [hb, Sink.published]

/-- The sink's own check rejects it, or the tip view does after the store's transaction, or
the tip view has folded the block whatever the bus says then. -/
theorem finalize_outcomes (s : Sink) (cut : Option Cut) (block : UInt64) (hash : Hash) :
    (∃ e, s.finalizeCheck block hash = .error e ∧ s.finalize cut block hash = (.error e, s)) ∨
    (∃ b e, s.finalizeCheck block hash = .ok b ∧ ¬ Oldest s.st block hash ∧
      s.finalize cut block hash =
        (.error (.mem e), { s with env := writeBlock s.env b, st := s.st.lockAndDrain })) ∨
    ∃ b, s.finalizeCheck block hash = .ok b ∧ Oldest s.st block hash ∧
      (s.finalize cut block hash).2.st.layers ≠ s.st.layers ∧
      ((∃ e, (s.finalize cut block hash).1 = .error e ∧ e ≠ .bus .txn) ↔
        s.bus.layers.head?.map Batch.block ≠ some block) := by
  rw [Sink.finalize]
  cases hcheck : s.finalizeCheck block hash with
  | error e => exact Or.inl ⟨e, rfl, rfl⟩
  | ok b =>
    right
    have hst : (s.finalizeWrite b).st = s.st := rfl
    dsimp only
    rw [Sink.finalizeFold, hst]
    rcases stateFinalize_cases s.st block hash with ⟨hold, hok, hne⟩ | ⟨hold, e, he⟩
    · right
      refine ⟨b, rfl, hold, ?_⟩
      rcases hf : s.st.finalize block hash with ⟨r, st⟩
      rw [hf] at hok hne
      subst hok
      dsimp only
      refine ⟨?_, finalizePublish_rejects_iff _ cut block hash⟩
      rwa [Sink.finalizePublish, published_snd]
    · left
      rw [he]
      exact ⟨b, e, rfl, hold, rfl⟩

theorem finalizeCheck_ok_iff {s : Sink} {block : UInt64} {hash : Hash} {b : Batch} :
    s.finalizeCheck block hash = .ok b ↔ s.pending hash = some b ∧ b.block = block := by
  rw [Sink.finalizeCheck]
  cases s.pending hash with
  | none => simp
  | some p =>
    by_cases hp : p.block = block
    · simp only [hp, ne_eq, not_true_eq_false, if_false, Except.ok.injEq, Option.some.injEq]
      exact ⟨fun hb => ⟨hb, hb ▸ hp⟩, fun hb => hb.1⟩
    · simp only [ne_eq, hp, not_false_eq_true, if_true, reduceCtorEq, Option.some.injEq, false_iff]
      rintro ⟨rfl, hb⟩
      exact hp hb

/-- The store's transaction and the merge of the side buffers leave no trace. -/
theorem unmoved_write_iff {s : Sink} {b : Batch} :
    Unmoved keccak h s { s with env := writeBlock s.env b, st := s.st.lockAndDrain } ↔
      BlockStored s.env b ∧ PinsIdle keccak h s.env s.st := by
  rw [← writeBlock_eq_self_iff, ← sameReads_lockAndDrain_iff]
  constructor
  · intro hun
    have henv : writeBlock s.env b = s.env := hun.env
    have hreads := hun.reads
    dsimp only at hreads
    rw [henv] at hreads
    exact ⟨henv, hreads⟩
  · rintro ⟨henv, hreads⟩
    refine ⟨henv, rfl, rfl, rfl, ?_, rfl, rfl⟩
    dsimp only
    rwa [henv]

/-- In any state of the sink: a finalization that is rejected, and not by the transaction of
the bus, changes nothing exactly when no delivered block of that hash has that height, or the
block is the oldest layer of the tip view and of the bus, so that it is not rejected, or it is
not the tip view's oldest layer but its rows are in the store already and the pins are idle. -/
theorem rejected_finalize_unmoved_iff (s : Sink) (cut : Option Cut) (block : UInt64)
    (hash : Hash) :
    (∀ e, (s.finalize cut block hash).1 = .error e → e ≠ .bus .txn →
        Unmoved keccak h s (s.finalize cut block hash).2) ↔
      ∀ b, s.pending hash = some b → b.block = block →
        (Oldest s.st block hash ∧ s.bus.layers.head?.map Batch.block = some block) ∨
          (¬ Oldest s.st block hash ∧ BlockStored s.env b ∧ PinsIdle keccak h s.env s.st) := by
  rcases finalize_outcomes s cut block hash with ⟨e', hce, heq⟩ | ⟨b, e', hcb, hold, heq⟩ |
    ⟨b, hcb, hold, hne, hrej⟩
  · rw [heq]
    refine ⟨fun _ b hp hb => ?_, fun _ _ _ _ => .refl keccak h s⟩
    rw [finalizeCheck_ok_iff.mpr ⟨hp, hb⟩] at hce
    cases hce
  · obtain ⟨hp, hb⟩ := finalizeCheck_ok_iff.mp hcb
    rw [heq]
    constructor
    · intro hun b' hp' _
      obtain rfl : b = b' := Option.some.inj (hp.symm.trans hp')
      exact Or.inr ⟨hold, (unmoved_write_iff keccak h).mp (hun _ rfl (by simp))⟩
    · intro hc _ _ _
      rcases hc b hp hb with hc | hc
      · exact absurd hc.1 hold
      · exact (unmoved_write_iff keccak h).mpr hc.2
  · obtain ⟨hp, hb⟩ := finalizeCheck_ok_iff.mp hcb
    constructor
    · intro hun b' _ _
      refine Or.inl ⟨hold, by_contra fun hbus => ?_⟩
      obtain ⟨e, he, htxn⟩ := hrej.mpr hbus
      exact hne (hun e he htxn).layers
    · intro hc e he htxn
      rcases hc b hp hb with hc | hc
      · exact absurd hc.2 (hrej.mp ⟨e, he, htxn⟩)
      · exact absurd hold hc.1

end Rejected

namespace Sample

open Tipbus.Sample

/-- Two blocks are delivered to a new sink. -/
def twoDelivered : Sink :=
  (((newSink OrdMap.empty (Mem.State.new none) openWriter).block none first).2.block none second).2

/-- The newer one is finalized. -/
def middleRejected : Sink := (twoDelivered.finalize none 7 (hashOf 7)).2

end Sample

open Sample Tipbus.Sample in
/-- The newer of two blocks is finalized: the tip view rejects it, but its rows are in the
store. -/
theorem middle_finalize_leaves_rows :
    twoDelivered.Reached ∧
      (twoDelivered.finalize none 7 (hashOf 7)).1 = .error (.mem (.notOldest 7)) ∧
      row twoDelivered.env (.diff 7) = none ∧ row middleRejected.env (.diff 7) ≠ none ∧
      ∀ keccak h, ¬ Unmoved keccak h twoDelivered (twoDelivered.finalize none 7 (hashOf 7)).2 := by
  have hbefore : row twoDelivered.env (.diff 7) = none := by decide +kernel
  have hafter : row middleRejected.env (.diff 7) ≠ none := by decide +kernel
  refine ⟨((Sink.Reached.new _ _).block none first).block none second, by decide +kernel, hbefore,
    hafter, fun keccak h hun => hafter ?_⟩
  rw [middleRejected, hun.env]
  exact hbefore

open Sample Tipbus.Sample in
/-- The same call again: now the rows are in the store already. -/
theorem rejected_finalize_unmoved_iff_again :
    ∀ keccak h,
      (middleRejected.finalize none 7 (hashOf 7)).1 = .error (.mem (.notOldest 7)) ∧
        Unmoved keccak h middleRejected (middleRejected.finalize none 7 (hashOf 7)).2 := by
  intro keccak h
  have herr : (middleRejected.finalize none 7 (hashOf 7)).1 = .error (.mem (.notOldest 7)) := by
    decide +kernel
  have hpending : middleRejected.pending (hashOf 7) = some second := by decide +kernel
  have hhead : middleRejected.st.layers.head?.map (fun l => l.batch.block) = some 6 := by
    decide +kernel
  have hentries : (writeBlock middleRejected.env second).entries = middleRejected.env.entries := by
    decide +kernel
  refine ⟨herr, (rejected_finalize_unmoved_iff keccak h _ _ _ _).mpr (fun b hb _ => Or.inr ?_) _
    herr (by simp)⟩
  obtain rfl : second = b := Option.some.inj (hpending.symm.trans hb)
  refine ⟨?_, ?_, .of_unregistered (List.isEmpty_iff.mp (by decide +kernel))⟩
  · rintro ⟨l, hl, hblock, -⟩
    rw [Option.mem_def.mp hl, Option.map_some, hblock] at hhead
    cases hhead
  · exact (writeBlock_eq_self_iff _ _).mp (OrdMap.ext hentries)

end Flatstate.Node
