import Mathlib.Data.List.Basic
import Mathlib.Logic.Relation
import Mathlib.Tactic.Cases

set_option autoImplicit false

/-!
# Sync: the goroutines of the loader (`follower/sync/sync.go`)

`Run` without its rows: segment workers, storage walkers with their sub-walkers, the writer
and the main goroutine, and the channels between them.  Any client call, any `apply`, any
flush and any queue scan may fail; the caller's context is not cancelled.  The contexts of
the error groups are cancelled by the first error of the group.

Two exits do not fit the others.  A writer that has failed drains the channel, and drops the
barrier that the main goroutine then waits for.  A failed scan returns without waiting for
the walkers, and `Run` closes the channel they send on.
-/

namespace Flatstate.Sync.Protocol

/-! ## Goroutines -/

/-- `bundle`: rows (`final = false`, their `apply` may fail), the end of a segment, or the
barrier. -/
inductive Bundle where
  | leaf (final : Bool)
  | barrier
  deriving DecidableEq

/-- A goroutine that sends: working, or in `enqueue`. -/
inductive Go where
  | run
  | send (final : Bool)
  deriving DecidableEq

/-- What a goroutine does to the others. -/
inductive Act where
  | tau
  | put (b : Bundle)
  | fail
  deriving DecidableEq

def Act.isFail : Act → Bool
  | .fail => true
  | _ => false

/-- A step of a sending goroutine; `none` means it has returned.  In `enqueue` it gives up
only if the context of its group is cancelled. -/
inductive GoStep (cancelled : Bool) : Go → Act → Option Go → Prop where
  | want (final : Bool) : GoStep cancelled .run .tau (some (.send final))
  | put (final : Bool) : GoStep cancelled (.send final) (.put (.leaf final)) (some .run)
  | done : GoStep cancelled .run .tau none
  | fail : GoStep cancelled .run .fail none
  | cancel (final : Bool) (hc : cancelled = true) : GoStep cancelled (.send final) .fail none

/-- The goroutine of one queued trie: the walk, the sub-walkers of a giant trie with whether
one of them has failed, the deletion of the queue row. -/
inductive Walker where
  | walk (g : Go)
  | fan (subs : List Go) (bad : Bool)
  | dequeue
  | ended

/-- A sub-walker has failed. -/
def Walker.bad : Walker → Bool
  | .fan _ bad => bad
  | _ => false

inductive WalkerStep (cancelled : Bool) : Walker → Act → Option Walker → Prop where
  | walk {g g' : Go} {act : Act} (h : GoStep cancelled g act (some g')) :
      WalkerStep cancelled (.walk g) act (some (.walk g'))
  | walkFail {g : Go} (h : GoStep cancelled g .fail none) : WalkerStep cancelled (.walk g) .fail none
  | small : WalkerStep cancelled (.walk .run) .tau (some .dequeue)
  | giant (n : Nat) :
      WalkerStep cancelled (.walk .run) .tau (some (.fan (List.replicate n .run) false))
  /-- the first error of the sub-walkers cancels the others -/
  | sub {l r : List Go} {g : Go} {g' : Option Go} {act : Act} {bad : Bool}
      (h : GoStep (cancelled || bad) g act g') :
      WalkerStep cancelled (.fan (l ++ g :: r) bad) act
        (some (.fan (l ++ g'.toList ++ r) (bad || act.isFail)))
  | joined : WalkerStep cancelled (.fan [] false) .tau (some .dequeue)
  | joinedFail : WalkerStep cancelled (.fan [] true) .fail none
  | dequeue : WalkerStep cancelled .dequeue (.put (.leaf false)) (some .ended)
  | dequeueCancel (hc : cancelled = true) : WalkerStep cancelled .dequeue .fail none
  | ended : WalkerStep cancelled .ended .tau none

/-- Where the main goroutine is.  `err` is whether `segErr` is set. -/
inductive Main where
  /-- starting segment workers, then in `g.Wait` -/
  | segments
  | sendBarrier
  | awaitBarrier
  /-- before a `StorageQueueAfter` -/
  | scan
  /-- starting the walkers of a batch -/
  | spawn (n : Nat)
  /-- in `g.Wait` of the walkers -/
  | wait
  | close (err : Bool)
  | awaitWriter (err : Bool)
  | flush
  | sweep
  | finish
  | returned (err : Bool)
  deriving DecidableEq

/-- The calls after the writer has returned: `Flush`, `codeSweep`, `Finish`. -/
def Main.next : Main → Option Main
  | .flush => some .sweep
  | .sweep => some .finish
  | .finish => some (.returned false)
  | _ => none

/-- The writer: applying, only draining after an `apply` failed, or returned. -/
inductive Writer where
  | running
  | draining
  | done
  deriving DecidableEq

/-- All of them, with their channels. -/
structure Proto where
  main : Main
  /-- segments whose worker is not started -/
  tasks : Nat
  workers : List Go
  /-- a worker has returned an error -/
  segErr : Bool
  walkers : List Walker
  walkErr : Bool
  /-- `s.writes` -/
  queue : List Bundle
  closed : Bool
  writer : Writer
  /-- what is in `writerErr`: an error or nil -/
  writerErr : Option Bool
  /-- what is in the barrier's channel: nil or an error -/
  reply : Option Bool
  /-- a send on the closed channel -/
  panicked : Bool
  /-- something has failed -/
  failed : Bool

/-- `Run` once the loader is set up. -/
def Proto.start (tasks : Nat) : Proto :=
  ⟨.segments, tasks, [], false, [], false, [], false, .running, none, none, false, false⟩

section Steps

variable (limit cap : Nat) (A C : Proto → Prop)

/-- What a goroutine's step does to the channel. -/
inductive Emits : Act → Proto → Proto → Prop where
  | tau {s : Proto} : Emits .tau s s
  | fail {s : Proto} : Emits .fail s { s with failed := true }
  | put {s : Proto} (b : Bundle) (hc : s.closed = false) (hroom : s.queue.length < cap) :
      Emits (.put b) s { s with queue := s.queue ++ [b] }
  | panics {s : Proto} (b : Bundle) (hc : s.closed = true) :
      Emits (.put b) s { s with panicked := true }

/-- The steps, with `limit` goroutines of a group at a time and `cap` bundles in the channel.
An `apply` fails only in states of `A`, a queue scan only in states of `C`. -/
inductive Step : Proto → Proto → Prop where
  | startWorker {s : Proto} {n : Nat} (hm : s.main = .segments) (ht : s.tasks = n + 1)
      (hl : s.workers.length < limit) :
      Step s { s with tasks := n, workers := s.workers ++ [.run] }
  | worker {s s' : Proto} {l r : List Go} {g : Go} {g' : Option Go} {act : Act}
      (hw : s.workers = l ++ g :: r) (hg : GoStep s.segErr g act g') (he : Emits cap act s s') :
      Step s { s' with workers := l ++ g'.toList ++ r, segErr := s.segErr || act.isFail }
  | segmentsDone {s : Proto} (hm : s.main = .segments) (ht : s.tasks = 0) (hw : s.workers = []) :
      Step s { s with main := if s.segErr then .close true else .sendBarrier }
  | sendBarrier {s : Proto} (hm : s.main = .sendBarrier) (hroom : s.queue.length < cap) :
      Step s { s with main := .awaitBarrier, queue := s.queue ++ [.barrier] }
  | replied {s : Proto} {ok : Bool} (hm : s.main = .awaitBarrier) (hr : s.reply = some ok) :
      Step s { s with main := if ok then .scan else .close true, reply := none }
  | scanned {s : Proto} (hm : s.main = .scan) (n : Nat) :
      Step s { s with main := if n = 0 then .wait else .spawn n }
  /-- `return err`, without `g.Wait` -/
  | scanFails {s : Proto} (hm : s.main = .scan) (hC : C s) :
      Step s { s with main := .close true, failed := true }
  | startWalker {s : Proto} {n : Nat} (hm : s.main = .spawn (n + 1))
      (hl : s.walkers.length < limit) :
      Step s { s with main := .spawn n, walkers := s.walkers ++ [.walk .run] }
  | spawned {s : Proto} (hm : s.main = .spawn 0) : Step s { s with main := .scan }
  | walker {s s' : Proto} {l r : List Walker} {w : Walker} {w' : Option Walker} {act : Act}
      (hw : s.walkers = l ++ w :: r) (hs : WalkerStep s.walkErr w act w') (he : Emits cap act s s') :
      Step s { s' with
        walkers := l ++ w'.toList ++ r, walkErr := s.walkErr || (act.isFail && w'.isNone) }
  | walkersDone {s : Proto} (hm : s.main = .wait) (hw : s.walkers = []) :
      Step s { s with main := .close s.walkErr }
  | close {s : Proto} {err : Bool} (hm : s.main = .close err) :
      Step s { s with main := .awaitWriter err, closed := true }
  | result {s : Proto} {err werr : Bool} (hm : s.main = .awaitWriter err)
      (hw : s.writerErr = some werr) :
      Step s { s with main := if err || werr then .returned true else .flush }
  | after {s : Proto} {m : Main} (hn : s.main.next = some m) : Step s { s with main := m }
  | afterFails {s : Proto} {m : Main} (hn : s.main.next = some m) :
      Step s { s with main := .returned true, failed := true }
  | applied {s : Proto} {final : Bool} {q : List Bundle} (hw : s.writer = .running)
      (hq : s.queue = .leaf final :: q) : Step s { s with queue := q }
  | applyFails {s : Proto} {q : List Bundle} (hw : s.writer = .running)
      (hq : s.queue = .leaf false :: q) (hA : A s) :
      Step s { s with queue := q, writer := .draining, writerErr := some true, failed := true }
  | flushed {s : Proto} {q : List Bundle} (hw : s.writer = .running)
      (hq : s.queue = .barrier :: q) (ok : Bool) :
      Step s { s with queue := q, reply := some ok, failed := s.failed || !ok }
  | drained {s : Proto} {b : Bundle} {q : List Bundle} (hw : s.writer = .draining)
      (hq : s.queue = b :: q) : Step s { s with queue := q }
  | writerDone {s : Proto} (hw : s.writer = .running) (hq : s.queue = []) (hc : s.closed = true) :
      Step s { s with writer := .done, writerErr := some false }
  | drainDone {s : Proto} (hw : s.writer = .draining) (hq : s.queue = []) (hc : s.closed = true) :
      Step s { s with writer := .done }

/-- What a run reaches. -/
def Reaches (s : Proto) : Prop :=
  ∃ tasks, Relation.ReflTransGen (Step limit cap A C) (.start tasks) s

end Steps

/-! ## The invariant -/

/-- Before the barrier is answered. -/
def Main.early : Main → Bool
  | .segments | .sendBarrier | .awaitBarrier => true
  | _ => false

/-- While walkers may run. -/
def Main.walking : Main → Bool
  | .scan | .spawn _ | .wait => true
  | _ => false

/-- The channel is closed. -/
def Main.past : Main → Bool
  | .awaitWriter _ | .flush | .sweep | .finish | .returned _ => true
  | _ => false

/-- `Run` is going to return an error, or has. -/
def Main.bad : Main → Bool
  | .close err | .awaitWriter err | .returned err => err
  | _ => false

/-- No error so far, and the writer has returned nil. -/
def Main.good : Main → Bool
  | .flush | .sweep | .finish => true
  | .returned err => !err
  | _ => false

/-- An `apply` may fail once the barrier is answered, or when a segment has failed, so that
there will be no barrier. -/
def Fenced (s : Proto) : Prop := s.main.early = true → s.segErr = true ∨ s.reply ≠ none

/-- A scan may fail while no walker runs. -/
def Idle (s : Proto) : Prop := s.walkers = []

structure Inv (s : Proto) : Prop where
  live : s.panicked = false
  closed : s.closed = s.main.past
  workers : s.main ≠ .segments → s.tasks = 0 ∧ s.workers = []
  walkers : s.main.walking = false → s.walkers = []
  segErr : s.segErr = true → s.main = .segments ∨ s.main.bad = true
  walkErr : s.walkErr = true → s.main.walking = true ∨ s.main.bad = true
  /-- the writer is there to take the barrier -/
  intact : s.main.early = true → s.segErr = false → s.reply = none → s.writer = .running
  /-- the one barrier is on its way while the main goroutine waits for the answer -/
  barrier : s.queue.count .barrier = if s.main = .awaitBarrier ∧ s.reply = none then 1 else 0
  reply : s.reply ≠ none → s.main = .awaitBarrier
  running : s.writer = .running → s.writerErr = none
  draining : s.writer = .draining → s.writerErr = some true
  done : s.writer = .done → s.writerErr ≠ none ∧ s.main.past = true
  /-- a failure is on its way to the result -/
  failed : s.failed = true → s.segErr = true ∨ s.walkErr = true ∨ (∃ w ∈ s.walkers, w.bad = true) ∨
    s.writerErr = some true ∨ s.reply = some false ∨ s.main.bad = true
  good : s.main.good = true → s.failed = false ∧ s.writerErr = some false

theorem Inv.start (tasks : Nat) : Inv (.start tasks) := by
  constructor <;> simp [Proto.start, Main.past, Main.walking, Main.early, Main.good]

/-- A worker runs only in phase 1. -/
theorem Inv.of_worker {s : Proto} {l r : List Go} {g : Go} (hi : Inv s)
    (hw : s.workers = l ++ g :: r) : s.main = .segments := by
  by_contra hm
  have hnil := (hi.workers hm).2
  simp [hw] at hnil

/-- A walker runs only in phase 2. -/
theorem Inv.of_walker {s : Proto} {l r : List Walker} {w : Walker} (hi : Inv s)
    (hw : s.walkers = l ++ w :: r) : s.main.walking = true := by
  by_contra hm
  have hnil := hi.walkers (by simpa using hm)
  simp [hw] at hnil

/-- A goroutine never sends a barrier. -/
theorem GoStep.put_leaf {c : Bool} {g : Go} {g' : Option Go} {b : Bundle}
    (h : GoStep c g (.put b) g') : b ≠ .barrier := by
  cases h
  simp

theorem WalkerStep.put_leaf {c : Bool} {w : Walker} {w' : Option Walker} {b : Bundle}
    (h : WalkerStep c w (.put b) w') : b ≠ .barrier := by
  cases h with
  | walk h => exact h.put_leaf
  | sub h => exact h.put_leaf
  | dequeue => simp

/-- A failure inside a walker stays with it, or is its result. -/
theorem WalkerStep.keeps_bad {c : Bool} {w : Walker} {act : Act} {w' : Option Walker}
    (h : WalkerStep c w act w') (hb : w.bad = true ∨ act = .fail) :
    (∃ v, w' = some v ∧ v.bad = true) ∨ (act = .fail ∧ w' = none) := by
  cases h with
  | walk h => cases h <;> simp [Walker.bad] at hb
  | sub h =>
    refine Or.inl ⟨_, rfl, ?_⟩
    rcases hb with hb | rfl <;> simp_all [Walker.bad, Act.isFail]
  | _ => simp_all [Walker.bad]

theorem Inv.worker {cap : Nat} {s s' : Proto} {l r : List Go} {g : Go} {g' : Option Go}
    {act : Act} (hi : Inv s) (hw : s.workers = l ++ g :: r) (hg : GoStep s.segErr g act g')
    (he : Emits cap act s s') :
    Inv { s' with workers := l ++ g'.toList ++ r, segErr := s.segErr || act.isFail } := by
  have hm := hi.of_worker hw
  have hc : s.closed = false := by rw [hi.closed, hm]; rfl
  cases he with
  | tau => exact { hi with
      workers := fun h => absurd hm h
      segErr := fun _ => Or.inl hm
      intact := by simpa [Act.isFail] using hi.intact
      failed := by simpa [Act.isFail] using hi.failed }
  | fail => exact { hi with
      workers := fun h => absurd hm h
      segErr := fun _ => Or.inl hm
      intact := by simp [Act.isFail]
      failed := by simp [Act.isFail]
      good := by simp [hm, Main.good] }
  | put b _ hroom => exact { hi with
      workers := fun h => absurd hm h
      segErr := fun _ => Or.inl hm
      intact := by simpa [Act.isFail] using hi.intact
      barrier := by simpa [List.count_singleton, hg.put_leaf] using hi.barrier
      failed := by simpa [Act.isFail] using hi.failed }
  | panics b h => simp [hc] at h

theorem Main.closed_no {m : Main} (hm : m.walking = true) : m.past = false ∧ m.good = false := by
  cases m <;> simp_all [Main.walking, Main.past, Main.good]

/-- A failure known before a walker's step, or made by it, is on its way after it. -/
theorem Inv.failed_walker {s : Proto} {l r : List Walker} {w : Walker} {w' : Option Walker}
    {act : Act} (hi : Inv s) (hw : s.walkers = l ++ w :: r) (hs : WalkerStep s.walkErr w act w')
    (hf : s.failed = true ∨ act = .fail) :
    s.segErr = true ∨ (s.walkErr || (act.isFail && w'.isNone)) = true ∨
      (∃ v ∈ l ++ w'.toList ++ r, v.bad = true) ∨ s.writerErr = some true ∨
      s.reply = some false ∨ s.main.bad = true := by
  have hgo (hb : w.bad = true ∨ act = .fail) :
      (∃ v ∈ l ++ w'.toList ++ r, v.bad = true) ∨ (act.isFail && w'.isNone) = true := by
    rcases hs.keeps_bad hb with ⟨v, rfl, hv⟩ | ⟨rfl, rfl⟩
    · exact Or.inl ⟨v, by simp, hv⟩
    · exact Or.inr rfl
  rcases hf with hf | hf
  · rcases hi.failed hf with h | h | ⟨v, hv, hbad⟩ | h | h | h
    · simp [h]
    · simp [h]
    · -- the failing walker is the one that steps, or another one
      by_cases hvw : v = w
      · have := hgo (Or.inl (hvw ▸ hbad))
        grind
      · have : v ∈ l ++ w'.toList ++ r := by
          rw [hw] at hv
          simp only [List.mem_append, List.mem_cons, hvw, false_or] at hv ⊢
          tauto
        exact Or.inr (Or.inr (Or.inl ⟨v, this, hbad⟩))
    · simp [h]
    · simp [h]
    · simp [h]
  · have := hgo (Or.inr hf)
    grind

theorem Inv.walker {cap : Nat} {s s' : Proto} {l r : List Walker} {w : Walker}
    {w' : Option Walker} {act : Act} (hi : Inv s) (hw : s.walkers = l ++ w :: r)
    (hs : WalkerStep s.walkErr w act w') (he : Emits cap act s s') :
    Inv { s' with
      walkers := l ++ w'.toList ++ r, walkErr := s.walkErr || (act.isFail && w'.isNone) } := by
  have hm := hi.of_walker hw
  obtain ⟨hpast, hgood⟩ := Main.closed_no hm
  have hc : s.closed = false := by rw [hi.closed, hpast]
  have hnw : s.main.walking = false → l ++ w'.toList ++ r = [] := by simp [hm]
  have hwe (b : Bool) : (s.walkErr || b) = true → s.main.walking = true ∨ s.main.bad = true :=
    fun _ => Or.inl hm
  cases he with
  | tau => exact { hi with
      walkers := hnw
      walkErr := hwe _
      failed := fun h => hi.failed_walker hw hs (Or.inl h) }
  | fail => exact { hi with
      walkers := hnw
      walkErr := hwe _
      failed := fun _ => hi.failed_walker hw hs (Or.inr rfl)
      good := by simp [hgood] }
  | put b _ hroom => exact { hi with
      walkers := hnw
      walkErr := hwe _
      barrier := by simpa [List.count_singleton, hs.put_leaf] using hi.barrier
      failed := fun h => hi.failed_walker hw hs (Or.inl h) }
  | panics b h => simp [hc] at h

theorem Main.early_past {m : Main} (hm : m.past = true) : m.early = false := by
  cases m <;> simp_all [Main.early, Main.past]

/-- Two positions after the fence that the invariant does not tell apart. -/
structure Main.Alike (m m' : Main) : Prop where
  early : m.early = false
  early' : m'.early = false
  past : m'.past = m.past
  walking : m'.walking = m.walking
  bad : m'.bad = m.bad
  good : m'.good = m.good

theorem Main.alike_of_next {m m' : Main} (h : m.next = some m') : m.Alike m' := by
  cases m <;> simp only [Main.next, Option.some.injEq, reduceCtorEq] at h <;> subst h <;>
    constructor <;> rfl

theorem Main.next_pos {m m' : Main} (h : m.next = some m') :
    m ≠ .segments ∧ m ≠ .awaitBarrier ∧ m.past = true ∧ m.walking = false := by
  cases m <;> simp_all [Main.next, Main.past, Main.walking]

theorem Inv.move {s : Proto} {m : Main} (hi : Inv s) (h : s.main.Alike m) :
    Inv { s with main := m } := by
  have hseg : s.main ≠ .segments := fun hm => by simpa [hm, Main.early] using h.early
  have hawait : s.main ≠ .awaitBarrier := fun hm => by simpa [hm, Main.early] using h.early
  have hawait' : m ≠ .awaitBarrier := fun hm => by simpa [hm, Main.early] using h.early'
  have hreply : s.reply = none := by_contra fun hr => hawait (hi.reply hr)
  exact { hi with
    closed := hi.closed.trans h.past.symm
    workers := fun _ => hi.workers hseg
    walkers := fun hw => hi.walkers (h.walking ▸ hw)
    segErr := fun he => Or.inr (h.bad ▸ (hi.segErr he).resolve_left hseg)
    walkErr := by simpa only [h.walking, h.bad] using hi.walkErr
    intact := by simp [h.early']
    barrier := by simpa [hawait, hawait'] using hi.barrier
    reply := fun hr => absurd hreply hr
    done := by simpa only [h.past] using hi.done
    failed := by simpa only [h.bad] using hi.failed
    good := by simpa only [h.good] using hi.good }

theorem Inv.no_reply {s : Proto} (hi : Inv s) (hm : s.main ≠ .awaitBarrier) :
    s.reply = none ∧ s.queue.count .barrier = 0 :=
  ⟨by_contra fun hr => hm (hi.reply hr), by simpa [hm] using hi.barrier⟩

/-- The main goroutine gives up, with no other goroutine left but the writer. -/
theorem Inv.abort {s : Proto} {m : Main} {r : Option Bool} {f : Bool} (hi : Inv s)
    (hbad : m.bad = true) (hpast : m.past = s.main.past) (ht : s.tasks = 0 ∧ s.workers = [])
    (hw : s.walkers = []) (hr : r = none ∧ s.queue.count .barrier = 0) :
    Inv { s with main := m, reply := r, failed := f } := by
  have hpos : m.early = false ∧ m.good = false := by
    cases m <;> simp_all [Main.bad, Main.early, Main.good]
  exact { hi with
    closed := hi.closed.trans hpast.symm
    workers := fun _ => ht
    walkers := fun _ => hw
    segErr := fun _ => Or.inr hbad
    walkErr := fun _ => Or.inr hbad
    intact := by simp [hpos.1]
    barrier := by
      have hm : m ≠ .awaitBarrier := by rintro rfl; simp [Main.bad] at hbad
      simp [hm, hr.2]
    reply := fun h => absurd hr.1 h
    done := by simpa only [hpast] using hi.done
    failed := fun _ => by simp [hbad]
    good := by simp [hpos.2] }

/-- While the main goroutine waits for the answer, the writer has not failed. -/
theorem Inv.answered {s : Proto} (hi : Inv s) (hm : s.main = .awaitBarrier)
    (hr : s.reply = none) : s.writer = .running := by
  refine hi.intact (by simp [hm, Main.early]) ?_ hr
  by_contra he
  have := hi.segErr (by simpa using he)
  simp [hm, Main.bad] at this

/-- A draining writer meets no barrier. -/
theorem Inv.no_barrier {s : Proto} (hi : Inv s) (hw : s.writer = .draining) :
    s.queue.count .barrier = 0 := by
  rw [hi.barrier, if_neg]
  rintro ⟨hm, hr⟩
  simp [hi.answered hm hr] at hw

/-! The steps of the main goroutine, and those of the writer, one by one. -/

theorem Inv.fence {s : Proto} (hi : Inv s) (hm : s.main = .segments)
    (ht : s.tasks = 0 ∧ s.workers = []) (he : s.segErr = false) :
    Inv { s with main := .sendBarrier } :=
  have hr := hi.no_reply (by simp [hm])
  { hi with
    closed := by simpa [hm, Main.past] using hi.closed
    workers := fun _ => ht
    walkers := fun _ => hi.walkers (by rw [hm]; rfl)
    segErr := by simp [he]
    walkErr := by simpa [hm, Main.walking, Main.bad] using hi.walkErr
    intact := fun _ => hi.intact (by rw [hm]; rfl)
    barrier := by simp [hr.2]
    reply := fun h => absurd hr.1 h
    done := by simpa [hm, Main.past] using hi.done
    failed := by simpa [hm, Main.bad] using hi.failed
    good := by simp [Main.good] }

theorem Inv.sendBarrier {s : Proto} (hi : Inv s) (hm : s.main = .sendBarrier) :
    Inv { s with main := .awaitBarrier, queue := s.queue ++ [.barrier] } :=
  have hr := hi.no_reply (by simp [hm])
  { hi with
    closed := by simpa [hm, Main.past] using hi.closed
    workers := fun _ => hi.workers (by simp [hm])
    walkers := fun _ => hi.walkers (by rw [hm]; rfl)
    segErr := by simpa [hm, Main.bad] using hi.segErr
    walkErr := by simpa [hm, Main.walking, Main.bad] using hi.walkErr
    intact := fun _ => hi.intact (by rw [hm]; rfl)
    barrier := by simp [hr.1, hr.2]
    reply := fun _ => rfl
    done := by simpa [hm, Main.past] using hi.done
    failed := by simpa [hm, Main.bad] using hi.failed
    good := by simp [Main.good] }

theorem Inv.replied {s : Proto} (hi : Inv s) (hm : s.main = .awaitBarrier)
    (hr : s.reply = some true) : Inv { s with main := .scan, reply := none } where
  live := hi.live
  closed := by simpa [hm, Main.past] using hi.closed
  workers _ := hi.workers (by simp [hm])
  walkers := by simp [Main.walking]
  segErr := by simpa [hm, Main.bad] using hi.segErr
  walkErr _ := Or.inl rfl
  intact := by simp [Main.early]
  barrier := by simpa [hr] using hi.barrier
  reply := by simp
  running := hi.running
  draining := hi.draining
  done := by simpa [hm, Main.past] using hi.done
  failed := by simpa [hm, hr, Main.bad] using hi.failed
  good := by simp [Main.good]

theorem Inv.startWalker {s : Proto} {n : Nat} (hi : Inv s) (hm : s.main = .spawn (n + 1)) :
    Inv { s with main := .spawn n, walkers := s.walkers ++ [.walk .run] } :=
  have hmove : Inv { s with main := .spawn n } := hi.move (by rw [hm]; constructor <;> rfl)
  { hmove with
    walkers := by simp [Main.walking]
    failed := fun h => (hmove.failed h).imp_right (Or.imp_right (Or.imp_left
      fun ⟨w, hw, hb⟩ => ⟨w, List.mem_append_left _ hw, hb⟩)) }

theorem Inv.walkersDone {s : Proto} (hi : Inv s) (hm : s.main = .wait) (hw : s.walkers = []) :
    Inv { s with main := .close s.walkErr } :=
  have hr := hi.no_reply (by simp [hm])
  { hi with
    closed := by simpa [hm, Main.past] using hi.closed
    workers := fun _ => hi.workers (by simp [hm])
    walkers := fun _ => hw
    segErr := fun h => absurd (hi.segErr h) (by simp [hm, Main.bad])
    walkErr := fun h => Or.inr h
    intact := by simp [Main.early]
    barrier := by simp [hr.2]
    reply := fun h => absurd hr.1 h
    done := by simpa [hm, Main.past] using hi.done
    failed := fun h => by
      have := hi.failed h
      simp only [hm, hw, Main.bad] at this ⊢
      tauto
    good := by simp [Main.good] }

theorem Inv.close {s : Proto} {err : Bool} (hi : Inv s) (hm : s.main = .close err) :
    Inv { s with main := .awaitWriter err, closed := true } :=
  have hr := hi.no_reply (by simp [hm])
  { hi with
    closed := rfl
    workers := fun _ => hi.workers (by simp [hm])
    walkers := fun _ => hi.walkers (by rw [hm]; rfl)
    segErr := by simpa [hm, Main.bad] using hi.segErr
    walkErr := by simpa [hm, Main.walking, Main.bad] using hi.walkErr
    intact := by simp [Main.early]
    barrier := by simp [hr.2]
    reply := fun h => absurd hr.1 h
    done := fun h => ⟨(hi.done h).1, rfl⟩
    failed := by simpa [hm, Main.bad] using hi.failed
    good := by simp [Main.good] }

/-- The writer has returned nil and no goroutine has failed. -/
theorem Inv.result {s : Proto} (hi : Inv s) (hm : s.main = .awaitWriter false)
    (hw : s.writerErr = some false) : Inv { s with main := .flush } :=
  have hr := hi.no_reply (by simp [hm])
  have hseg : s.segErr = false := by
    by_contra h
    simpa [hm, Main.bad] using hi.segErr (by simpa using h)
  have hwalk : s.walkErr = false := by
    by_contra h
    simpa [hm, Main.walking, Main.bad] using hi.walkErr (by simpa using h)
  have hnone := hi.walkers (by rw [hm]; rfl)
  have hfailed : s.failed = false := by
    by_contra h
    have := hi.failed (by simpa using h)
    simp [hseg, hwalk, hnone, hw, hr.1, hm, Main.bad] at this
  { hi with
    closed := by simpa [hm, Main.past] using hi.closed
    workers := fun _ => hi.workers (by simp [hm])
    walkers := fun _ => hnone
    segErr := by simp [hseg]
    walkErr := by simp [hwalk]
    intact := by simp [Main.early]
    barrier := by simp [hr.2]
    reply := fun h => absurd hr.1 h
    done := by simpa [hm, Main.past] using hi.done
    failed := by simp [hfailed]
    good := fun _ => ⟨hfailed, hw⟩ }

theorem Inv.applyFails {s : Proto} {q : List Bundle} (hi : Inv s) (hw : s.writer = .running)
    (hq : s.queue = .leaf false :: q) (hA : Fenced s) :
    Inv { s with queue := q, writer := .draining, writerErr := some true, failed := true } :=
  { hi with
    intact := fun he hs hr => by
      rcases hA he with h | h
      · simp [h] at hs
      · exact absurd hr h
    barrier := by simpa [hq] using hi.barrier
    running := by simp
    draining := fun _ => rfl
    done := by simp
    failed := by simp
    good := fun h => by simpa [hi.running hw] using (hi.good h).2 }

theorem Inv.flushed {s : Proto} {q : List Bundle} (hi : Inv s) (hq : s.queue = .barrier :: q)
    (ok : Bool) : Inv { s with queue := q, reply := some ok, failed := s.failed || !ok } := by
  have hcount := hi.barrier
  rw [hq, List.count_cons_self] at hcount
  obtain ⟨hm, hr⟩ : s.main = .awaitBarrier ∧ s.reply = none := by
    by_contra h
    simp [h] at hcount
  have hzero : q.count .barrier = 0 := by simpa [hm, hr] using hcount
  exact { hi with
    intact := by simp
    barrier := by simp [hzero]
    reply := fun _ => hm
    failed := by
      cases ok with
      | true => simpa [hr] using hi.failed
      | false => simp
    good := by simp [hm, Main.good] }

theorem Inv.drained {s : Proto} {b : Bundle} {q : List Bundle} (hi : Inv s)
    (hw : s.writer = .draining) (hq : s.queue = b :: q) : Inv { s with queue := q } := by
  have hb := hi.no_barrier hw
  have hcount := hi.barrier
  rw [hb] at hcount
  simp only [hq, List.count_cons, Nat.add_eq_zero_iff] at hb
  exact { hi with barrier := hb.1.trans hcount }

theorem Inv.writerDone {s : Proto} (hi : Inv s) (hw : s.writer = .running)
    (hc : s.closed = true) : Inv { s with writer := .done, writerErr := some false } :=
  have hpast := hi.closed ▸ hc
  { hi with
    intact := by simp [Main.early_past hpast]
    running := by simp
    draining := by simp
    done := fun _ => ⟨by simp, hpast⟩
    failed := by simpa [hi.running hw] using hi.failed
    good := fun h => by simpa [hi.running hw] using (hi.good h).2 }

theorem Inv.drainDone {s : Proto} (hi : Inv s) (hw : s.writer = .draining)
    (hc : s.closed = true) : Inv { s with writer := .done } :=
  have hpast := hi.closed ▸ hc
  { hi with
    intact := by simp [Main.early_past hpast]
    running := by simp
    draining := by simp
    done := fun _ => ⟨by simp [hi.draining hw], hpast⟩ }

theorem Inv.step {limit cap : Nat} {s s' : Proto} (hi : Inv s)
    (h : Step limit cap Fenced Idle s s') : Inv s' := by
  cases h with
  | worker hw hg he => exact hi.worker hw hg he
  | walker hw hs he => exact hi.walker hw hs he
  | applied hw hq => exact { hi with barrier := by simpa [hq] using hi.barrier }
  | applyFails hw hq hA => exact hi.applyFails hw hq hA
  | flushed hw hq ok => exact hi.flushed hq ok
  | drained hw hq => exact hi.drained hw hq
  | writerDone hw hq hc => exact hi.writerDone hw hc
  | drainDone hw hq hc => exact hi.drainDone hw hc
  | startWorker hm ht hl => exact { hi with workers := fun h => absurd hm h }
  | segmentsDone hm ht hw =>
    split
    · exact hi.abort rfl (by rw [hm]; rfl) ⟨ht, hw⟩ (hi.walkers (by rw [hm]; rfl))
        (hi.no_reply (by simp [hm]))
    · rename_i he
      exact hi.fence hm ⟨ht, hw⟩ (by simpa using he)
  | sendBarrier hm hroom => exact hi.sendBarrier hm
  | @replied ok hm hr =>
    cases ok with
    | true => exact hi.replied hm hr
    | false =>
      exact hi.abort rfl (by rw [hm]; rfl) (hi.workers (by simp [hm])) (hi.walkers (by rw [hm]; rfl))
        ⟨rfl, by simpa [hr] using hi.barrier⟩
  | scanned hm n => exact hi.move (by rw [hm]; split <;> constructor <;> rfl)
  | scanFails hm hC =>
    exact hi.abort rfl (by rw [hm]; rfl) (hi.workers (by simp [hm])) hC (hi.no_reply (by simp [hm]))
  | startWalker hm hl => exact hi.startWalker hm
  | spawned hm => exact hi.move (by rw [hm]; constructor <;> rfl)
  | walkersDone hm hw => exact hi.walkersDone hm hw
  | close hm => exact hi.close hm
  | @result err werr hm hw =>
    split
    · exact hi.abort rfl (by rw [hm]; rfl) (hi.workers (by simp [hm])) (hi.walkers (by rw [hm]; rfl))
        (hi.no_reply (by simp [hm]))
    · rename_i he
      obtain ⟨rfl, rfl⟩ : err = false ∧ werr = false := by simpa using he
      exact hi.result hm hw
  | after hn => exact hi.move (Main.alike_of_next hn)
  | afterFails hn =>
    obtain ⟨hseg, hawait, hpast, hwalk⟩ := Main.next_pos hn
    exact hi.abort rfl hpast.symm (hi.workers hseg) (hi.walkers hwalk) (hi.no_reply hawait)

theorem inv_of_reaches {limit cap : Nat} {s : Proto} (h : Reaches limit cap Fenced Idle s) :
    Inv s := by
  obtain ⟨tasks, h⟩ := h
  induction h with
  | refl => exact Inv.start tasks
  | tail _ hstep ih => exact ih.step hstep

/-! ## Progress -/

theorem GoStep.exists_step (c : Bool) (g : Go) : ∃ act g', GoStep c g act g' := by
  cases g with
  | run => exact ⟨_, _, .done⟩
  | send final => exact ⟨_, _, .put final⟩

theorem WalkerStep.exists_step (c : Bool) (w : Walker) : ∃ act w', WalkerStep c w act w' := by
  cases w with
  | walk g =>
    cases g with
    | run => exact ⟨_, _, .small⟩
    | send final => exact ⟨_, _, .walk (.put final)⟩
  | fan subs bad =>
    cases subs with
    | nil =>
      cases bad with
      | false => exact ⟨_, _, .joined⟩
      | true => exact ⟨_, _, .joinedFail⟩
    | cons g r =>
      obtain ⟨act, g', hg⟩ := GoStep.exists_step (c || bad) g
      exact ⟨_, _, .sub (l := []) hg⟩
  | dequeue => exact ⟨_, _, .dequeue⟩
  | ended => exact ⟨_, _, .ended⟩

theorem Emits.exists_step {cap : Nat} (hcap : 0 < cap) {s : Proto} (hq : s.queue = [])
    (act : Act) : ∃ s', Emits cap act s s' := by
  cases act with
  | tau => exact ⟨_, .tau⟩
  | fail => exact ⟨_, .fail⟩
  | put b =>
    cases hc : s.closed with
    | false => exact ⟨_, .put b hc (by simpa [hq] using hcap)⟩
    | true => exact ⟨_, .panics b hc⟩

section Progress

variable {limit cap : Nat} {A C : Proto → Prop}

theorem exists_step_worker (hcap : 0 < cap) {s : Proto} (hq : s.queue = [])
    (hw : s.workers ≠ []) : ∃ s', Step limit cap A C s s' := by
  obtain ⟨g, r, hw⟩ := List.exists_cons_of_ne_nil hw
  obtain ⟨act, g', hg⟩ := GoStep.exists_step s.segErr g
  obtain ⟨s', he⟩ := Emits.exists_step hcap hq act
  exact ⟨_, .worker (l := []) hw hg he⟩

theorem exists_step_walker (hcap : 0 < cap) {s : Proto} (hq : s.queue = [])
    (hw : s.walkers ≠ []) : ∃ s', Step limit cap A C s s' := by
  obtain ⟨w, r, hw⟩ := List.exists_cons_of_ne_nil hw
  obtain ⟨act, w', hs⟩ := WalkerStep.exists_step s.walkErr w
  obtain ⟨s', he⟩ := Emits.exists_step hcap hq act
  exact ⟨_, .walker (l := []) hw hs he⟩

/-- A writer that has not returned takes what is in the channel. -/
theorem exists_step_queue {s : Proto} (hw : s.writer ≠ .done) (hq : s.queue ≠ []) :
    ∃ s', Step limit cap A C s s' := by
  obtain ⟨b, q, hq⟩ := List.exists_cons_of_ne_nil hq
  cases hs : s.writer with
  | running =>
    cases b with
    | leaf final => exact ⟨_, .applied hs hq⟩
    | barrier => exact ⟨_, .flushed hs hq true⟩
  | draining => exact ⟨_, .drained hs hq⟩
  | done => exact absurd hs hw

theorem Inv.exists_step_past {s : Proto} (hi : Inv s) (hm : s.main.past = true)
    (hq : s.writer ≠ .done → s.queue = []) (hr : ∀ err, s.main ≠ .returned err) :
    ∃ s', Step limit cap A C s s' := by
  cases hmain : s.main with
  | awaitWriter err =>
    cases hs : s.writer with
    | running => exact ⟨_, .writerDone hs (hq (by simp [hs])) (hi.closed.trans hm)⟩
    | draining => exact ⟨_, .result hmain (hi.draining hs)⟩
    | done =>
      obtain ⟨werr, he⟩ := Option.ne_none_iff_exists'.mp (hi.done hs).1
      exact ⟨_, .result hmain he⟩
  | flush | sweep | finish => exact ⟨_, .after (congrArg Main.next hmain)⟩
  | returned err => exact absurd hmain (hr err)
  | _ => simp [hmain, Main.past] at hm

/-- Something can always go on until `Run` returns. -/
theorem Inv.exists_step {s : Proto} (hlimit : 0 < limit) (hcap : 0 < cap) (hi : Inv s)
    (hr : ∀ err, s.main ≠ .returned err) : ∃ s', Step limit cap A C s s' := by
  by_cases hq : s.writer ≠ .done ∧ s.queue ≠ []
  · exact exists_step_queue hq.1 hq.2
  replace hq : s.writer ≠ .done → s.queue = [] := fun h => by_contra fun h' => hq ⟨h, h'⟩
  by_cases hpast : s.main.past = true
  · exact hi.exists_step_past hpast hq hr
  replace hq : s.queue = [] := hq fun h => hpast (hi.done h).2
  have hroom : s.queue.length < cap := by simpa [hq] using hcap
  cases hm : s.main with
  | segments =>
    by_cases hw : s.workers = []
    · cases ht : s.tasks with
      | zero => exact ⟨_, .segmentsDone hm ht hw⟩
      | succ n => exact ⟨_, .startWorker hm ht (by simpa [hw] using hlimit)⟩
    · exact exists_step_worker hcap hq hw
  | sendBarrier => exact ⟨_, .sendBarrier hm hroom⟩
  | awaitBarrier =>
    cases hreply : s.reply with
    | none =>
      have := hi.barrier
      simp [hq, hm, hreply] at this
    | some ok => exact ⟨_, .replied hm hreply⟩
  | scan => exact ⟨_, .scanned hm 0⟩
  | spawn n =>
    by_cases hw : s.walkers = []
    · cases n with
      | zero => exact ⟨_, .spawned hm⟩
      | succ n => exact ⟨_, .startWalker hm (by simpa [hw] using hlimit)⟩
    · exact exists_step_walker hcap hq hw
  | wait =>
    by_cases hw : s.walkers = []
    · exact ⟨_, .walkersDone hm hw⟩
    · exact exists_step_walker hcap hq hw
  | close err => exact ⟨_, .close hm⟩
  | _ => simp [hm, Main.past] at hpast

end Progress

/-! ## The protocol -/

/-- While every `apply` that fails does so after the barrier is answered, or after a segment
has failed, and every scan that fails does so with no walker running: the main goroutine
never waits on a writer that only drains, no goroutine sends on the closed channel, some
goroutine can go on until `Run` returns, and what `Run` returns tells whether anything has
failed. -/
theorem protocol_safe {limit cap : Nat} (hlimit : 0 < limit) (hcap : 0 < cap) {s : Proto}
    (h : Reaches limit cap Fenced Idle s) :
    ¬ (s.main = .awaitBarrier ∧ s.reply = none ∧ s.writer ≠ .running) ∧ s.panicked = false ∧
      ((∀ err, s.main ≠ .returned err) → ∃ s', Step limit cap Fenced Idle s s') ∧
      (s.main = .returned false → s.failed = false) := by
  have hi := inv_of_reaches h
  refine ⟨?_, hi.live, hi.exists_step hlimit hcap, fun hm => ?_⟩
  · rintro ⟨hm, hr, hw⟩
    exact hw (hi.answered hm hr)
  · exact (hi.good (by simp [hm, Main.good])).1

namespace Sample

/-- One segment, one worker, a channel of two bundles; anything may fail anywhere. -/
abbrev Free : Proto → Proto → Prop := Step 1 2 (fun _ => True) (fun _ => True)

/-- The account rows failed to apply, the barrier is drained, nobody answers. -/
def stuck : Proto :=
  ⟨.awaitBarrier, 0, [], false, [], false, [], false, .draining, some true, none, false, true⟩

theorem reaches_stuck : Relation.ReflTransGen Free (.start 1) stuck := by
  refine .head (.startWorker rfl rfl (by decide)) ?_
  refine .head (.worker (l := []) rfl (.want false) .tau) ?_
  refine .head (.worker (l := []) rfl (.put false) (.put _ rfl (by decide))) ?_
  refine .head (.applyFails rfl rfl trivial) ?_
  refine .head (.worker (l := []) rfl .done .tau) ?_
  refine .head (.segmentsDone rfl rfl rfl) ?_
  refine .head (.sendBarrier rfl (by decide)) ?_
  exact .single (.drained rfl rfl)

theorem stuck_stuck (s : Proto) : ¬ Free stuck s := by
  intro h
  cases h <;> simp_all [stuck, Main.next]

/-- A queue scan failed while a walker ran, which then sends on the closed channel. -/
def crashed : Proto :=
  ⟨.awaitWriter true, 0, [], false, [.ended], false, [], true, .running, none, none, true, true⟩

theorem reaches_crashed : Relation.ReflTransGen Free (.start 0) crashed := by
  refine .head (.segmentsDone rfl rfl rfl) ?_
  refine .head (.sendBarrier rfl (by decide)) ?_
  refine .head (.flushed rfl rfl true) ?_
  refine .head (.replied rfl rfl) ?_
  refine .head (.scanned rfl 1) ?_
  refine .head (.startWalker rfl (by decide)) ?_
  refine .head (.spawned rfl) ?_
  refine .head (.scanFails rfl trivial) ?_
  refine .head (.close rfl) ?_
  refine .head (.walker (l := []) rfl .small .tau) ?_
  exact .single (.walker (l := []) rfl .dequeue (.panics _ rfl))

/-- The deletion of a queue row failed to apply, and then the next scan failed. -/
def failing : Proto :=
  ⟨.close true, 0, [], false, [], false, [], false, .draining, some true, none, false, true⟩

theorem reaches_failing : Reaches 1 2 Fenced Idle failing := by
  refine ⟨0, .head (.segmentsDone rfl rfl rfl) ?_⟩
  refine .head (.sendBarrier rfl (by decide)) ?_
  refine .head (.flushed rfl rfl true) ?_
  refine .head (.replied rfl rfl) ?_
  refine .head (.scanned rfl 1) ?_
  refine .head (.startWalker rfl (by decide)) ?_
  refine .head (.walker (l := []) rfl .small .tau) ?_
  refine .head (.walker (l := []) rfl .dequeue (.put _ rfl (by decide))) ?_
  refine .head (.walker (l := []) rfl .ended .tau) ?_
  refine .head (.applyFails rfl rfl fun h => by cases h) ?_
  refine .head (.spawned rfl) ?_
  exact .single (.scanFails rfl rfl)

end Sample

/-- With failures anywhere, the main goroutine can wait forever for an answer that the
draining writer does not give, and a walker can send on the closed channel. -/
theorem stuck_and_crashed_reachable :
    (Reaches 1 2 (fun _ => True) (fun _ => True) Sample.stuck ∧
      Sample.stuck.main = .awaitBarrier ∧ Sample.stuck.writer = .draining ∧
      ∀ s, ¬ Step 1 2 (fun _ => True) (fun _ => True) Sample.stuck s) ∧
    (Reaches 1 2 (fun _ => True) (fun _ => True) Sample.crashed ∧
      Sample.crashed.panicked = true) :=
  ⟨⟨⟨1, Sample.reaches_stuck⟩, rfl, rfl, Sample.stuck_stuck⟩, ⟨0, Sample.reaches_crashed⟩, rfl⟩

theorem protocol_safe_failing :
    0 < 1 ∧ 0 < 2 ∧ Reaches 1 2 Fenced Idle Sample.failing ∧ Sample.failing.panicked = false ∧
      ∃ s', Step 1 2 Fenced Idle Sample.failing s' := by
  have hsafe := protocol_safe (by decide) (by decide) Sample.reaches_failing
  exact ⟨by decide, by decide, Sample.reaches_failing, hsafe.2.1, hsafe.2.2.1 (by simp [Sample.failing])⟩

end Flatstate.Sync.Protocol
