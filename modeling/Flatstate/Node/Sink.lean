import Flatstate.Exec.View
import Flatstate.Tipbus.Bus

set_option autoImplicit false

/-!
# Node: the writer's composite sink (`node/sink.go`)

A block that extends the preferred chain goes to the tip view and the bus.  A block
that is accepted is committed to the store first, then folded into the tip view, then
the watermark moves, then the bus learns of it.  The four steps are separate
transactions of three different parties, and anything can be observed, or crash,
between two of them.
-/

namespace Flatstate.Node

open Foundation Schema Capture Store Tipbus

/-! ## The sink -/

/-- `Sink`, with the environment its store handle is on. -/
structure Sink where
  env : Env
  st : Mem.State
  bus : Bus
  /-- the published unfinalized batches by hash -/
  pending : Hash → Option Batch

/-- `NewSink`. -/
def newSink (env : Env) (st : Mem.State) (bus : Bus) : Sink := ⟨env, st, bus, fun _ => none⟩

/-- What the sink's methods fail with; LMDB I/O errors of the main store are not modelled. -/
inductive NodeErr where
  /-- "node: finalize %d %x: block was never delivered" -/
  | neverDelivered (block : UInt64) (hash : Hash)
  /-- "node: finalize height %d does not match delivered height %d for %x" -/
  | heightMismatch (block delivered : UInt64) (hash : Hash)
  | mem (e : Mem.FinalizeErr)
  | bus (e : BusErr)
  deriving DecidableEq

/-- The outcome of a publish. -/
def Sink.published (s : Sink) (r : Except BusErr Unit × Bus) : Except NodeErr Unit × Sink :=
  match r with
  | (.ok (), bus) => (.ok (), { s with bus := bus })
  | (.error e, bus) => (.error (.bus e), { s with bus := bus })

/-- `Sink.Block`. -/
def Sink.block (cut : Option Cut) (s : Sink) (b : Batch) : Except NodeErr Unit × Sink :=
  let s := { s with pending := Function.update s.pending b.hash (some b), st := s.st.applyBlock b }
  s.published (s.bus.publishBlock cut b)

/-- `Sink.PreferenceReset`. -/
def Sink.preferenceReset (cut : Option Cut) (s : Sink) (preferred : List Batch) :
    Except NodeErr Unit × Sink :=
  let pending : Hash → Option Batch :=
    preferred.foldl (fun p b => Function.update p b.hash (some b)) (fun _ => none)
  let s := { s with pending := pending, st := s.st.preferenceReset preferred }
  s.published (s.bus.publishReset cut preferred)

/-! The steps of `Sink.Finalize`, in the order of D7. -/

/-- The checks before anything is written. -/
def Sink.finalizeCheck (s : Sink) (block : UInt64) (hash : Hash) : Except NodeErr Batch :=
  match s.pending hash with
  | none => .error (.neverDelivered block hash)
  | some b => if b.block ≠ block then .error (.heightMismatch block b.block hash) else .ok b

/-- Step 1: the main store transaction. -/
def Sink.finalizeWrite (s : Sink) (b : Batch) : Sink := { s with env := writeBlock s.env b }

/-- Step 2: the base of the tip view. -/
def Sink.finalizeFold (s : Sink) (block : UInt64) (hash : Hash) : Except NodeErr Unit × Sink :=
  match s.st.finalize block hash with
  | (.ok (), st) => (.ok (), { s with st := st })
  | (.error e, st) => (.error (.mem e), { s with st := st })

/-- Step 3: the watermark. -/
def Sink.finalizeMark (s : Sink) (block : UInt64) : Sink :=
  { s with env := setFinalized s.env block }

/-- The last step: forget what is final and tell the bus. -/
def Sink.finalizePublish (cut : Option Cut) (s : Sink) (block : UInt64) (hash : Hash) :
    Except NodeErr Unit × Sink :=
  let s := { s with pending := fun h => (s.pending h).filter (fun p => ¬ p.block ≤ block) }
  s.published (s.bus.publishFinalize cut block hash)

/-- `Sink.Finalize`. -/
def Sink.finalize (cut : Option Cut) (s : Sink) (block : UInt64) (hash : Hash) :
    Except NodeErr Unit × Sink :=
  match s.finalizeCheck block hash with
  | .error e => (.error e, s)
  | .ok b =>
    match (s.finalizeWrite b).finalizeFold block hash with
    | (.error e, s) => (.error e, s)
    | (.ok (), s) => (s.finalizeMark block).finalizePublish cut block hash

/-! ## What the calls of the sink do -/

section Calls

variable {s : Sink}

/-- The only failure of a publish is that of its transaction, and it keeps the layers of the
mirror. -/
theorem publish_cases (cut : Option Cut) (bus : Bus) (payload : Bytes) :
    ((bus.publish cut payload).1 = .ok () ∨ (bus.publish cut payload).1 = .error .txn) ∧
      (bus.publish cut payload).2.layers = bus.layers := by
  simp only [Bus.publish]
  split
  · exact ⟨Or.inr rfl, rfl⟩
  split
  · exact ⟨Or.inr rfl, rfl⟩
  split
  · exact ⟨Or.inr rfl, rfl⟩
  · exact ⟨Or.inl rfl, rfl⟩

theorem published_snd (s : Sink) (r : Except BusErr Unit × Bus) :
    (s.published r).2 = { s with bus := r.2 } := by
  obtain ⟨res, bus⟩ := r
  cases res <;> rfl

theorem published_ok {r : Except BusErr Unit × Bus} (h : (s.published r).1 = .ok ()) :
    r = (.ok (), r.2) ∧ (s.published r).2 = { s with bus := r.2 } := by
  obtain ⟨res, bus⟩ := r
  cases res with
  | error e => simp [Sink.published] at h
  | ok u => exact ⟨rfl, rfl⟩

/-- What a call of the sink that succeeds leaves, given what it did to the view. -/
structure Called (s : Sink) (st : Mem.State) (evs : List Event) (layers : List Batch)
    (finalized : UInt64) (s' : Sink) : Prop where
  env : s'.env = s.env
  st : s'.st = st
  carries : Carries s'.bus evs
  layers : s'.bus.layers = layers
  finalized : s'.bus.finalized = finalized

theorem Called.of_bus {st : Mem.State} {pending : Hash → Option Batch} {bus : Bus}
    {evs : List Event} {layers : List Batch} {fin : UInt64} (hc : Carries bus evs)
    (hl : bus.layers = layers) (hf : bus.finalized = fin) :
    Called s st evs layers fin ⟨s.env, st, bus, pending⟩ := by
  subst hl hf
  exact ⟨rfl, rfl, hc, rfl, rfl⟩

theorem block_ok {b : Batch} {evs : List Event} (hc : Carries s.bus evs)
    (h : (s.block none b).1 = .ok ()) :
    Called s (s.st.applyBlock b) (evs ++ [.block b]) (s.bus.layers ++ [b]) s.bus.finalized
      (s.block none b).2 := by
  dsimp only [Sink.block] at h ⊢
  obtain ⟨hok, hs⟩ := published_ok h
  obtain ⟨hc', hl, hf⟩ := hc.publishBlock hok
  rw [hs]
  exact Called.of_bus hc' hl hf

theorem preferenceReset_ok {preferred : List Batch} {evs : List Event} (hc : Carries s.bus evs)
    (h : (s.preferenceReset none preferred).1 = .ok ()) :
    Called s (s.st.preferenceReset preferred) (evs ++ [.reset preferred]) preferred
      s.bus.finalized (s.preferenceReset none preferred).2 := by
  dsimp only [Sink.preferenceReset] at h ⊢
  obtain ⟨hok, hs⟩ := published_ok h
  obtain ⟨hc', hl, hf⟩ := hc.publishReset hok
  rw [hs]
  exact Called.of_bus hc' hl hf

theorem finalizePublish_ok {block : UInt64} {hash : Hash} {evs : List Event}
    (hc : Carries s.bus evs) (h : (s.finalizePublish none block hash).1 = .ok ()) :
    Called s s.st (evs ++ [.finalize block hash]) s.bus.layers.tail block
      (s.finalizePublish none block hash).2 := by
  dsimp only [Sink.finalizePublish] at h ⊢
  obtain ⟨hok, hs⟩ := published_ok h
  obtain ⟨hc', hl, hf⟩ := hc.publishFinalize hok
  rw [hs]
  exact Called.of_bus hc' hl hf

theorem finalizeFold_snd (block : UInt64) (hash : Hash) :
    (s.finalizeFold block hash).2 = { s with st := (s.st.finalize block hash).2 } := by
  rw [Sink.finalizeFold]
  cases s.st.finalize block hash with
  | mk r st => cases r <;> rfl

end Calls

end Flatstate.Node
