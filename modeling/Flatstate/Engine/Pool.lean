import Flatstate.Engine.View
import Flatstate.Foundation.Holders
import Mathlib.Logic.Relation

set_option autoImplicit false

/-!
# Engine: batches over a pool of executors (`engine/engine.go`)

`Execute` runs a batch of calls under one read lock of `mem.State`: for each call it takes a
worker from the pool, a channel, and starts a goroutine that runs the call and puts the worker
back.  When all are done it releases the lock, asks for the tip hash and starts over if the
hash is not the one it saw under the lock.  Any number of batches run at a time and share the
workers; write phases wait until no batch holds the lock, and no batch takes it while one
waits.

The executors are arbitrary programs over the methods of `View`; what they read is answered
by the world around the engine, one read at a time.
-/

namespace Flatstate.Engine

open Foundation Schema
open Foundation.Prog (Ends ends_ret ends_ask ends_bind)

/-! ## The engine -/

/-- The world around the engine: `mem.State` over a store. -/
structure World (T : Type) where
  /-- `State.TipHash` -/
  tip : T → Hash
  /-- a read of the executor with side buffer `i` -/
  serve : (i : Nat) → T → (q : MemQ) → q.Ans → T → Prop
  /-- what goes on without the lock -/
  drift : T → T → Prop
  /-- a write phase -/
  write : T → T → Prop

/-- `worker`: an executor and its view, over the side buffer `buf`. -/
structure Worker (X : Type) where
  buf : Nat
  ex : X
  view : View

/-- The goroutine of a call, by the position of the call and the worker's side buffer. -/
structure Task (X R : Type) where
  idx : Nat
  buf : Nat
  /-- what is left of the call; `none` when the worker is back and `Done` is to be called -/
  run : Option (Prog MemQ MemQ.Ans ((R × X) × View))

/-- Where an `Execute` is. -/
inductive Stage (X R : Type) where
  /-- at `BeginBatch` -/
  | begin
  /-- in the loop over the calls, or at `Wait` after it -/
  | batch (stamp : Hash) (next : Nat) (tasks : List (Task X R)) (results : List (Option R))
  /-- at `TipHash` -/
  | check (stamp : Hash) (results : List (Option R))
  | returned (results : List (Option R))

/-- An `Execute`. -/
structure Job (X C R : Type) where
  calls : List C
  stage : Stage X R

/-- Whether the job holds the read lock. -/
def Stage.reading {X R : Type} : Stage X R → Bool
  | .batch _ _ _ _ => true
  | _ => false

/-- The engine and the world; `waiting` is a write phase that waits for the lock. -/
structure Sys (T X C R : Type) where
  world : T
  waiting : Bool
  pool : List (Worker X)
  jobs : List (Job X C R)
  requeues : UInt64

section Steps

variable {T X C R : Type} (W : World T) (exec : X → C → Prog ViewQ ViewQ.Ans (R × X)) (n : Nat)

/-- The start of a call: the view is reset. -/
def Worker.start (w : Worker X) (c : C) : Prog MemQ MemQ.Ans ((R × X) × View) :=
  (exec w.ex c).handle View.step w.view.reset

/-- A step of a job, on the world and the pool; `n` is the capacity of the pool. -/
inductive JobStep (waiting : Bool) :
    T → List (Worker X) → Job X C R → T → List (Worker X) → Job X C R → Prop where
  /-- `BeginBatch` -/
  | begin {t : T} {pool : List (Worker X)} {calls : List C} (hw : waiting = false) :
      JobStep waiting t pool ⟨calls, .begin⟩ t pool
        ⟨calls, .batch (W.tip t) 0 [] (List.replicate calls.length none)⟩
  /-- a worker for the next call -/
  | take {t : T} {pool : List (Worker X)} {calls : List C} {stamp : Hash} {next : Nat}
      {tasks : List (Task X R)} {results : List (Option R)} {c : C} {w : Worker X}
      (hc : calls[next]? = some c) :
      JobStep waiting t (w :: pool) ⟨calls, .batch stamp next tasks results⟩ t pool
        ⟨calls, .batch stamp (next + 1) (tasks ++ [⟨next, w.buf, some (w.start exec c)⟩]) results⟩
  /-- a read of a call -/
  | read {t t' : T} {pool : List (Worker X)} {calls : List C} {stamp : Hash} {next : Nat}
      {tasks : List (Task X R)} {results : List (Option R)} {k idx buf : Nat} {q : MemQ}
      {f : q.Ans → Prog MemQ MemQ.Ans ((R × X) × View)} {a : q.Ans}
      (hk : tasks[k]? = some ⟨idx, buf, some (.ask q f)⟩) (ha : W.serve buf t q a t') :
      JobStep waiting t pool ⟨calls, .batch stamp next tasks results⟩ t' pool
        ⟨calls, .batch stamp next (tasks.set k ⟨idx, buf, some (f a)⟩) results⟩
  /-- the end of a call: the result is stored, and the worker put back if there is room -/
  | send {t : T} {pool : List (Worker X)} {calls : List C} {stamp : Hash} {next : Nat}
      {tasks : List (Task X R)} {results : List (Option R)} {k idx buf : Nat} {r : R} {x : X}
      {v : View} (hk : tasks[k]? = some ⟨idx, buf, some (.ret ((r, x), v))⟩)
      (hroom : pool.length < n) :
      JobStep waiting t pool ⟨calls, .batch stamp next tasks results⟩ t (pool ++ [⟨buf, x, v⟩])
        ⟨calls, .batch stamp next (tasks.set k ⟨idx, buf, none⟩) (results.set idx (some r))⟩
  /-- `Done` -/
  | done {t : T} {pool : List (Worker X)} {calls : List C} {stamp : Hash} {next : Nat}
      {tasks : List (Task X R)} {results : List (Option R)} {k idx buf : Nat}
      (hk : tasks[k]? = some ⟨idx, buf, none⟩) :
      JobStep waiting t pool ⟨calls, .batch stamp next tasks results⟩ t pool
        ⟨calls, .batch stamp next (tasks.eraseIdx k) results⟩
  /-- `Wait` and `EndBatch` -/
  | finish {t : T} {pool : List (Worker X)} {calls : List C} {stamp : Hash}
      {results : List (Option R)} :
      JobStep waiting t pool ⟨calls, .batch stamp calls.length [] results⟩ t pool
        ⟨calls, .check stamp results⟩
  /-- the tip has not moved -/
  | accept {t : T} {pool : List (Worker X)} {calls : List C} {results : List (Option R)}
      (hw : waiting = false) :
      JobStep waiting t pool ⟨calls, .check (W.tip t) results⟩ t pool ⟨calls, .returned results⟩

/-- A step of the engine without anything from outside: a job's, one that starts over, or a
write phase that has waited. -/
inductive Internal : Sys T X C R → Sys T X C R → Prop where
  | job {s : Sys T X C R} {i : Nat} {j j' : Job X C R} {t : T} {pool : List (Worker X)}
      (hj : s.jobs[i]? = some j)
      (hs : JobStep W exec n s.waiting s.world s.pool j t pool j') :
      Internal s { s with world := t, pool := pool, jobs := s.jobs.set i j' }
  | requeue {s : Sys T X C R} {i : Nat} {calls : List C} {stamp : Hash}
      {results : List (Option R)} (hj : s.jobs[i]? = some ⟨calls, .check stamp results⟩)
      (hw : s.waiting = false) (hne : W.tip s.world ≠ stamp) :
      Internal s
        { s with jobs := s.jobs.set i ⟨calls, .begin⟩, requeues := s.requeues + 1 }
  | write {s : Sys T X C R} {t : T} (hw : s.waiting = true)
      (hfree : ∀ j ∈ s.jobs, j.stage.reading = false) (ht : W.write s.world t) :
      Internal s { s with world := t, waiting := false }

/-- A step from outside: a new batch, a write phase that asks for the lock, or what happens
without the lock. -/
inductive External : Sys T X C R → Sys T X C R → Prop where
  | execute {s : Sys T X C R} (calls : List C) :
      External s { s with jobs := s.jobs ++ [⟨calls, .begin⟩] }
  | lock {s : Sys T X C R} (hw : s.waiting = false) : External s { s with waiting := true }
  | drift {s : Sys T X C R} {t : T} (ht : W.drift s.world t) : External s { s with world := t }

/-- `New`, over a state whose next side buffer is `first`. -/
def Sys.new (t : T) (first : Nat) (execs : List X) : Sys T X C R where
  world := t
  waiting := false
  pool := (execs.zipIdx first).map fun p => ⟨p.2, p.1, View.new⟩
  jobs := []
  requeues := 0

/-- The runs of an engine. -/
def Reaches (s s' : Sys T X C R) : Prop :=
  Relation.ReflTransGen (fun a b => Internal W exec n a b ∨ External W a b) s s'

variable {W exec n}

/-- An invariant of the steps holds of every run. -/
theorem Reaches.rule {I : Sys T X C R → Prop} {s s' : Sys T X C R} (h : Reaches W exec n s s')
    (hs : I s) (hint : ∀ a b, I a → Internal W exec n a b → I b)
    (hext : ∀ a b, I a → External W a b → I b) : I s' := by
  induction h with
  | refl => exact hs
  | tail _ hstep ih => exact hstep.elim (hint _ _ ih) (hext _ _ ih)

end Steps

namespace Sample

/-- A world in which nothing exists. -/
def reply (t : Hash) : (q : MemQ) → q.Ans
  | .tipInfo => (t, 1, 0)
  | .account _ => .ok none
  | .slotFetch _ _ => .ok (Hash.zero, true)
  | .accountFetch _ => .ok ()
  | .code _ => .ok []

def world : World Hash where
  tip := id
  serve _ t q a t' := t' = t ∧ a = reply t q
  drift t t' := t' = t
  write _ _ := True

/-- A call that reads one slot. -/
def exec (_ : Unit) (c : Nat) : Prog ViewQ ViewQ.Ans (Nat × Unit) :=
  .ask (.read (.slot (FixedBytes.ofNat 20 1) Hash.zero)) fun _ => .ret (c + 1, ())

/-- Two executors, each with a call of another batch. -/
def two : Sys Hash Unit Nat Nat where
  world := Hash.zero
  waiting := false
  pool := []
  jobs :=
    [⟨[7], .batch Hash.zero 1 [⟨0, 0, some ((⟨0, (), View.new⟩ : Worker Unit).start exec 7)⟩] [none]⟩,
      ⟨[8], .batch Hash.zero 1 [⟨0, 1, some ((⟨1, (), View.new⟩ : Worker Unit).start exec 8)⟩] [none]⟩]
  requeues := 0

theorem two_reached : Reaches world exec 2 (Sys.new Hash.zero 0 [(), ()]) two := by
  have h0 : Reaches world exec 2 (Sys.new Hash.zero 0 [(), ()]) _ := .refl
  have h1 := (h0.tail (.inr (.execute [7]))).tail (.inr (.execute [8]))
  have h2 := (h1.tail (.inl (.job (i := 0) rfl (.begin rfl)))).tail
    (.inl (.job (i := 1) rfl (.begin rfl)))
  exact (h2.tail (.inl (.job (i := 0) rfl (.take rfl)))).tail
    (.inl (.job (i := 1) rfl (.take rfl)))

end Sample

/-! ## Workers -/

section Workers

variable {T X C R : Type}

/-- Whether the task has a worker of the kind `P`. -/
def Task.busy (P : Nat → Bool) (k : Task X R) : Nat := if k.run.isSome && P k.buf then 1 else 0

/-- The workers of the kind `P` that a job has. -/
def Stage.busy (P : Nat → Bool) : Stage X R → Nat
  | .batch _ _ tasks _ => (tasks.map (Task.busy P)).sum
  | _ => 0

/-- The workers of the kind `P`, in the pool and with the jobs. -/
def Sys.uses (P : Nat → Bool) (s : Sys T X C R) : Nat :=
  s.pool.countP (fun w => P w.buf) + (s.jobs.map fun j => j.stage.busy P).sum

/-- The call `p` runs as task `k` of job `i`, on the worker with side buffer `buf`. -/
def Sys.Runs (s : Sys T X C R) (i k buf : Nat) (p : Prog MemQ MemQ.Ans ((R × X) × View)) : Prop :=
  ∃ calls stamp next tasks results idx,
    s.jobs[i]? = some ⟨calls, .batch stamp next tasks results⟩ ∧ tasks[k]? = some ⟨idx, buf, some p⟩

variable {W : World T} {exec : X → C → Prog ViewQ ViewQ.Ans (R × X)} {n : Nat} {b : Bool}
  {t t' : T} {pool pool' : List (Worker X)} {j j' : Job X C R} {s s' : Sys T X C R}

/-- A job gives back what it takes. -/
theorem JobStep.uses (h : JobStep W exec n b t pool j t' pool' j') (P : Nat → Bool) :
    pool'.countP (fun w => P w.buf) + j'.stage.busy P =
      pool.countP (fun w => P w.buf) + j.stage.busy P := by
  cases h with
  | begin hw => rfl
  | take hc =>
    simp only [Stage.busy, List.map_append, List.sum_append, List.countP_cons, List.map_cons,
      List.map_nil, List.sum_cons, List.sum_nil, Task.busy, Option.isSome_some, Bool.true_and]
    omega
  | read hk ha =>
    rename_i idx buf q f a
    have hsum := sum_set_add (Task.busy P) hk ⟨idx, buf, some (f a)⟩
    exact congrArg (_ + ·) (Nat.add_right_cancel hsum)
  | send hk hroom =>
    rename_i idx buf r x v
    have hsum := sum_set_add (Task.busy P) hk ⟨idx, buf, none⟩
    simp only [Stage.busy, List.countP_append, List.countP_cons, List.countP_nil]
    simp only [Task.busy, Option.isSome_some, Bool.true_and, Option.isSome_none, Bool.false_and,
      Bool.false_eq_true, if_false] at hsum ⊢
    omega
  | done hk =>
    have hsum := sum_eraseIdx_add (Task.busy P) hk
    exact congrArg (_ + ·) hsum
  | finish => rfl
  | accept hw => rfl

theorem Internal.uses (h : Internal W exec n s s') (P : Nat → Bool) : s'.uses P = s.uses P := by
  cases h with
  | job hj hs =>
    rename_i i j j' t pool
    have huses := hs.uses P
    have hsum := sum_set_add (fun j => j.stage.busy P) hj j'
    simp only [Sys.uses]
    omega
  | requeue hj hw hne =>
    rename_i i calls stamp results
    have hsum := sum_set_add (fun j => j.stage.busy P) hj ⟨calls, .begin⟩
    exact congrArg (_ + ·) hsum
  | write hw hfree ht => rfl

theorem External.uses (h : External W s s') (P : Nat → Bool) : s'.uses P = s.uses P := by
  cases h with
  | execute calls => simp [Sys.uses, Stage.busy]
  | lock hw => rfl
  | drift ht => rfl

/-- No worker is lost and none is made. -/
theorem Reaches.uses {t : T} {first : Nat} {execs : List X}
    (h : Reaches W exec n (Sys.new t first execs) s) (P : Nat → Bool) :
    s.uses P = (List.range' first execs.length).countP P := by
  refine h.rule (I := fun s => s.uses P = (List.range' first execs.length).countP P) ?_
    (fun a b ha hab => (hab.uses P).trans ha) (fun a b ha hab => (hab.uses P).trans ha)
  have hids : ((execs.zipIdx first).map fun p => (⟨p.2, p.1, View.new⟩ : Worker X)).map (·.buf) =
      List.range' first execs.length := by
    rw [List.map_map]
    exact List.zipIdx_map_snd first execs
  rw [← hids, List.countP_map]
  rfl

/-- What a running task uses. -/
theorem Sys.Runs.uses {i k buf : Nat} {p : Prog MemQ MemQ.Ans ((R × X) × View)}
    (h : s.Runs i k buf p) {P : Nat → Bool} (hP : P buf = true) :
    s.pool.countP (fun w => P w.buf) + 1 ≤ s.uses P := by
  obtain ⟨calls, stamp, next, tasks, results, idx, hj, hk⟩ := h
  have htask := le_sum (Task.busy P) hk
  have hjob : (tasks.map (Task.busy P)).sum ≤ (s.jobs.map fun j => j.stage.busy P).sum :=
    le_sum (fun j => j.stage.busy P) hj
  simp only [Task.busy, Option.isSome_some, Bool.true_and, hP, if_true] at htask
  simp only [Sys.uses]
  omega

/-- Two running tasks use two workers. -/
theorem Sys.Runs.uses_two {i k buf i' k' buf' : Nat} {p p' : Prog MemQ MemQ.Ans ((R × X) × View)}
    (h : s.Runs i k buf p) (h' : s.Runs i' k' buf' p') (hne : ¬(i = i' ∧ k = k')) {P : Nat → Bool}
    (hP : P buf = true) (hP' : P buf' = true) : 2 ≤ s.uses P := by
  obtain ⟨calls, stamp, next, tasks, results, idx, hj, hk⟩ := h
  obtain ⟨calls', stamp', next', tasks', results', idx', hj', hk'⟩ := h'
  have hbusy : ∀ (idx buf : Nat) (p : Prog MemQ MemQ.Ans ((R × X) × View)), P buf = true →
      Task.busy P ⟨idx, buf, some p⟩ = 1 := fun idx buf p hb => by simp [Task.busy, hb]
  have hle : s.uses P ≥ (s.jobs.map fun j => j.stage.busy P).sum := Nat.le_add_left _ _
  by_cases hi : i = i'
  · -- two tasks of one job
    subst hi
    obtain ⟨-, -, rfl, -⟩ : calls = calls' ∧ stamp = stamp' ∧ tasks = tasks' ∧ results = results' := by
      rw [hj] at hj'
      simp at hj'
      tauto
    have htwo := add_le_sum (Task.busy P) hk hk' (fun hkk => hne ⟨rfl, hkk⟩)
    have hjob : (tasks.map (Task.busy P)).sum ≤ (s.jobs.map fun j => j.stage.busy P).sum :=
      le_sum (fun j => j.stage.busy P) hj
    rw [hbusy _ _ _ hP, hbusy _ _ _ hP'] at htwo
    omega
  · -- tasks of two jobs
    have h1 := le_sum (Task.busy P) hk
    have h2 := le_sum (Task.busy P) hk'
    have htwo : (tasks.map (Task.busy P)).sum + (tasks'.map (Task.busy P)).sum ≤
        (s.jobs.map fun j => j.stage.busy P).sum :=
      add_le_sum (fun j => j.stage.busy P) hj hj' hi
    rw [hbusy _ _ _ hP] at h1
    rw [hbusy _ _ _ hP'] at h2
    omega

section Exclusive

variable {t : T} {first : Nat} {execs : List X}
  (h : Reaches W exec execs.length (Sys.new t first execs) s)

include h

theorem Reaches.uses_le_one (buf : Nat) : s.uses (fun x => x == buf) ≤ 1 := by
  rw [h.uses]
  exact List.nodup_iff_count_le_one.mp List.nodup_range' buf

theorem Reaches.runs_unique {i k i' k' buf : Nat} {p p' : Prog MemQ MemQ.Ans ((R × X) × View)}
    (hr : s.Runs i k buf p) (hr' : s.Runs i' k' buf p') : i = i' ∧ k = k' := by
  by_contra hne
  have htwo := hr.uses_two hr' hne (P := fun x => x == buf) (by simp) (by simp)
  have hone := h.uses_le_one buf
  omega

theorem Reaches.runs_outside {i k buf : Nat} {p : Prog MemQ MemQ.Ans ((R × X) × View)}
    (hr : s.Runs i k buf p) : ∀ w ∈ s.pool, w.buf ≠ buf := by
  intro w hw hbuf
  have hused := hr.uses (P := fun x => x == buf) (by simp)
  have hpool : 0 < s.pool.countP (fun w => w.buf == buf) :=
    List.countP_pos_iff.mpr ⟨w, hw, by simpa using hbuf⟩
  have hone := h.uses_le_one buf
  omega

theorem Reaches.room {i k buf : Nat} {p : Prog MemQ MemQ.Ans ((R × X) × View)}
    (hr : s.Runs i k buf p) : s.pool.length < execs.length := by
  have hused := hr.uses (P := fun _ => true) rfl
  have hall := h.uses (fun _ => true)
  rw [List.countP_true] at hused
  rw [List.countP_true, List.length_range'] at hall
  omega

end Exclusive

/-- In every run of an engine with any number of batches at a time: no worker has two calls at
once, a worker with a call is not in the pool, and the pool has room for every worker that is
put back. -/
theorem executors_not_shared {t : T} {first : Nat} {execs : List X}
    (h : Reaches W exec execs.length (Sys.new t first execs) s) :
    (∀ i k i' k' buf p p', s.Runs i k buf p → s.Runs i' k' buf p' → i = i' ∧ k = k') ∧
      ∀ i k buf p, s.Runs i k buf p →
        (∀ w ∈ s.pool, w.buf ≠ buf) ∧ s.pool.length < execs.length :=
  ⟨fun _ _ _ _ _ _ _ hr hr' => h.runs_unique hr hr',
    fun _ _ _ _ hr => ⟨h.runs_outside hr, h.room hr⟩⟩

/-- Two batches with a call each. -/
theorem executors_not_shared_sample :
    (∀ w ∈ Sample.two.pool, w.buf ≠ 0) ∧ Sample.two.pool.length < 2 := by
  have hreach : Reaches Sample.world Sample.exec [(), ()].length (Sys.new Hash.zero 0 [(), ()])
      Sample.two := Sample.two_reached
  exact (executors_not_shared hreach).2 0 0 0 _ ⟨[7], Hash.zero, 1, _, [none], 0, rfl, rfl⟩

end Workers

/-! ## Results

What the world shows under the lock is a snapshot, and a read that does not fail fits it.  The
executors are right about a snapshot if they are right for every answer that fits. -/

/-- Reads leave the snapshot alone and fit it, and so does what goes on without the lock; the
tip hash stands for the snapshot. -/
structure Lawful {T S : Type} (W : World T) (Inv : T → Prop) (snap : T → S)
    (Fits : S → (q : MemQ) → q.Ans → Prop) : Prop where
  serve : ∀ i t q a t', Inv t → W.serve i t q a t' →
    Inv t' ∧ snap t' = snap t ∧ W.tip t' = W.tip t ∧ Fits (snap t) q a
  drift : ∀ t t', Inv t → W.drift t t' → Inv t' ∧ snap t' = snap t ∧ W.tip t' = W.tip t
  write : ∀ t t', Inv t → W.write t t' → Inv t'
  stamp : ∀ t t', Inv t → Inv t' → W.tip t = W.tip t' → snap t = snap t'

/-- An executor at rest gives a good result on a snapshot, and is at rest again. -/
def Obeys {X C R S : Type} (exec : X → C → Prog ViewQ ViewQ.Ans (R × X))
    (Fits : S → (q : MemQ) → q.Ans → Prop) (Rest : X → Prop) (Good : S → C → R → Prop) (s : S) :
    Prop :=
  ∀ x c r x' v, Rest x → Ends (Fits s) ((exec x c).handle View.step View.new) ((r, x'), v) →
    Rest x' ∧ Good s c r

/-- Every call has its good result. -/
def Answered {C R S : Type} (Good : S → C → R → Prop) (s : S) (calls : List C)
    (results : List (Option R)) : Prop :=
  results.length = calls.length ∧
    ∀ (i : Nat) (c : C), calls[i]? = some c → ∃ r, results[i]? = some (some r) ∧ Good s c r

section Results

variable {T X C R S : Type} (W : World T) (Inv : T → Prop) (snap : T → S)
  (Fits : S → (q : MemQ) → q.Ans → Prop) (Rest : X → Prop) (Good : S → C → R → Prop)

/-- What is left of a call leads to a good result only. -/
def RunOk (s : S) (c : C) (p : Prog MemQ MemQ.Ans ((R × X) × View)) : Prop :=
  ∀ r x v, Ends (Fits s) p ((r, x), v) → Rest x ∧ Good s c r

/-- A batch under the lock. -/
structure BatchOk (s : S) (calls : List C) (next : Nat) (tasks : List (Task X R))
    (results : List (Option R)) : Prop where
  bound : next ≤ calls.length
  length : results.length = calls.length
  /-- a call that was started runs, or has its result -/
  started : ∀ i : Nat, i < next →
    (∃ k ∈ tasks, k.idx = i ∧ k.run.isSome) ∨ ∃ r, results[i]? = some (some r)
  runs : ∀ k ∈ tasks, ∀ p, k.run = some p → ∃ c, calls[k.idx]? = some c ∧ RunOk Fits Rest Good s c p
  good : ∀ (i : Nat) (r : R), results[i]? = some (some r) → ∃ c, calls[i]? = some c ∧ Good s c r

/-- A job in a world.  After the batch its results are those of some world with its stamp. -/
def StageOk (t : T) (calls : List C) : Stage X R → Prop
  | .begin => True
  | .batch stamp next tasks results =>
    stamp = W.tip t ∧ BatchOk Fits Rest Good (snap t) calls next tasks results
  | .check stamp results => ∃ u, Inv u ∧ W.tip u = stamp ∧ Answered Good (snap u) calls results
  | .returned results => ∃ u, Inv u ∧ Answered Good (snap u) calls results

structure SysOk (s : Sys T X C R) : Prop where
  world : Inv s.world
  pool : ∀ w ∈ s.pool, Rest w.ex
  jobs : ∀ j ∈ s.jobs, StageOk W Inv snap Fits Rest Good s.world j.calls j.stage

variable {W Inv snap Fits Rest Good} {s : S} {calls : List C} {next : Nat}
  {tasks : List (Task X R)} {results : List (Option R)}

namespace BatchOk

theorem start : BatchOk Fits Rest Good s calls 0 [] (List.replicate calls.length none) where
  bound := Nat.zero_le _
  length := List.length_replicate
  started i hi := absurd hi (Nat.not_lt_zero i)
  runs k hk := absurd hk List.not_mem_nil
  good i r hr := by
    rw [List.getElem?_replicate] at hr
    split at hr <;> cases hr

theorem take (h : BatchOk Fits Rest Good s calls next tasks results) {c : C} {w : Worker X}
    {exec : X → C → Prog ViewQ ViewQ.Ans (R × X)} (hexec : Obeys exec Fits Rest Good s)
    (hc : calls[next]? = some c) (hw : Rest w.ex) :
    BatchOk Fits Rest Good s calls (next + 1)
      (tasks ++ [⟨next, w.buf, some (w.start exec c)⟩]) results where
  bound := (List.getElem?_eq_some_iff.mp hc).1
  length := h.length
  started i hi := by
    rcases Nat.lt_succ_iff_lt_or_eq.mp hi with hi | rfl
    · rcases h.started i hi with ⟨k, hk, hrun⟩ | hr
      · exact .inl ⟨k, List.mem_append_left _ hk, hrun⟩
      · exact .inr hr
    · exact .inl ⟨_, List.mem_append_right _ (List.mem_singleton_self _), rfl, rfl⟩
  runs k hk p hp := by
    rcases List.mem_append.mp hk with hk | hk
    · exact h.runs k hk p hp
    · rw [List.mem_singleton.mp hk] at hp ⊢
      cases hp
      exact ⟨c, hc, fun r x v hr => hexec w.ex c r x v hw hr⟩
  good := h.good

/-- A task goes on. -/
theorem read (h : BatchOk Fits Rest Good s calls next tasks results) {k idx buf : Nat} {q : MemQ}
    {f : q.Ans → Prog MemQ MemQ.Ans ((R × X) × View)} {a : q.Ans}
    (hk : tasks[k]? = some ⟨idx, buf, some (.ask q f)⟩) (ha : Fits s q a) :
    BatchOk Fits Rest Good s calls next (tasks.set k ⟨idx, buf, some (f a)⟩) results where
  bound := h.bound
  length := h.length
  started i hi := by
    rcases h.started i hi with ⟨k', hk', hidx, hrun⟩ | hr
    · obtain ⟨m, hm⟩ := List.mem_iff_getElem?.mp hk'
      by_cases hmk : m = k
      · subst hmk
        rw [hk] at hm
        cases hm
        have hlt := (List.getElem?_eq_some_iff.mp hk).1
        exact .inl ⟨_, List.mem_of_getElem? (List.getElem?_set_self hlt), hidx, rfl⟩
      · exact .inl ⟨k', List.mem_of_getElem? ((List.getElem?_set_ne (Ne.symm hmk)).trans hm), hidx, hrun⟩
    · exact .inr hr
  runs := by
    refine forall_mem_set h.runs fun p hp => ?_
    cases hp
    obtain ⟨c, hc, hok⟩ := h.runs _ (List.mem_of_getElem? hk) _ rfl
    exact ⟨c, hc, fun r x v hr => hok r x v (.ask ha hr)⟩
  good := h.good

/-- A call ends: its result is good, and its executor at rest. -/
theorem send (h : BatchOk Fits Rest Good s calls next tasks results) {k idx buf : Nat} {r : R}
    {x : X} {v : View} (hk : tasks[k]? = some ⟨idx, buf, some (.ret ((r, x), v))⟩) :
    Rest x ∧ BatchOk Fits Rest Good s calls next (tasks.set k ⟨idx, buf, none⟩)
      (results.set idx (some r)) := by
  obtain ⟨c, hc, hok⟩ := h.runs _ (List.mem_of_getElem? hk) _ rfl
  obtain ⟨hrest, hgood⟩ := hok r x v (.ret _)
  have hlt : idx < results.length := by
    rw [h.length]
    exact (List.getElem?_eq_some_iff.mp hc).1
  refine ⟨hrest, h.bound, (List.length_set ..).trans h.length, fun i hi => ?_, ?_, fun i r' hr => ?_⟩
  · by_cases hidx : i = idx
    · subst hidx
      exact .inr ⟨r, List.getElem?_set_self hlt⟩
    · rcases h.started i hi with ⟨k', hk', hki, hrun⟩ | ⟨r', hr'⟩
      · obtain ⟨m, hm⟩ := List.mem_iff_getElem?.mp hk'
        have hmk : m ≠ k := by
          rintro rfl
          rw [hk] at hm
          cases hm
          exact hidx hki.symm
        exact .inl ⟨k', List.mem_of_getElem? ((List.getElem?_set_ne (Ne.symm hmk)).trans hm), hki, hrun⟩
      · exact .inr ⟨r', (List.getElem?_set_ne (Ne.symm hidx)).trans hr'⟩
  · exact forall_mem_set h.runs fun p hp => (by cases hp)
  · rcases getElem?_set_cases hr with ⟨rfl, hsame⟩ | ⟨-, hold⟩
    · cases hsame
      exact ⟨c, hc, hgood⟩
    · exact h.good i r' hold

theorem done (h : BatchOk Fits Rest Good s calls next tasks results) {k idx buf : Nat}
    (hk : tasks[k]? = some ⟨idx, buf, none⟩) :
    BatchOk Fits Rest Good s calls next (tasks.eraseIdx k) results where
  bound := h.bound
  length := h.length
  started i hi := by
    rcases h.started i hi with ⟨k', hk', hidx, hrun⟩ | hr
    · refine .inl ⟨k', List.mem_eraseIdx_iff_getElem?.mpr ?_, hidx, hrun⟩
      obtain ⟨m, hm⟩ := List.mem_iff_getElem?.mp hk'
      refine ⟨m, ?_, hm⟩
      rintro rfl
      rw [hk] at hm
      cases hm
      cases hrun
    · exact .inr hr
  runs k' hk' := h.runs k' (List.mem_of_mem_eraseIdx hk')
  good := h.good

/-- When no task is left, every call has its result. -/
theorem answered (h : BatchOk Fits Rest Good s calls calls.length [] results) :
    Answered Good s calls results := by
  refine ⟨h.length, fun i c hc => ?_⟩
  rcases h.started i (List.getElem?_eq_some_iff.mp hc).1 with ⟨k, hk, -⟩ | ⟨r, hr⟩
  · cases hk
  · obtain ⟨c', hc', hgood⟩ := h.good i r hr
    rw [hc] at hc'
    cases hc'
    exact ⟨r, hr, hgood⟩

end BatchOk

theorem StageOk.congr {t t' : T} {stage : Stage X R}
    (h : StageOk W Inv snap Fits Rest Good t calls stage)
    (hsnap : snap t' = snap t) (htip : W.tip t' = W.tip t) :
    StageOk W Inv snap Fits Rest Good t' calls stage := by
  cases stage with
  | batch stamp next tasks results =>
    obtain ⟨hstamp, hok⟩ := h
    refine ⟨hstamp.trans htip.symm, ?_⟩
    rw [hsnap]
    exact hok
  | begin => exact h
  | check stamp results => exact h
  | returned results => exact h

variable {exec : X → C → Prog ViewQ ViewQ.Ans (R × X)} {n : Nat} {b : Bool} {t t' : T}
  {pool pool' : List (Worker X)} {j j' : Job X C R} {a a' : Sys T X C R}

/-- A step of a job, in a world under the lock or not. -/
theorem JobStep.ok (h : JobStep W exec n b t pool j t' pool' j') (hW : Lawful W Inv snap Fits)
    (hexec : ∀ t, Inv t → Obeys exec Fits Rest Good (snap t)) (ht : Inv t) (hpool : ∀ w ∈ pool, Rest w.ex)
    (hj : StageOk W Inv snap Fits Rest Good t j.calls j.stage) :
    Inv t' ∧ snap t' = snap t ∧ W.tip t' = W.tip t ∧ (∀ w ∈ pool', Rest w.ex) ∧
      StageOk W Inv snap Fits Rest Good t' j'.calls j'.stage := by
  cases h with
  | begin hw => exact ⟨ht, rfl, rfl, hpool, rfl, BatchOk.start⟩
  | take hc =>
    have hw := List.forall_mem_cons.mp hpool
    exact ⟨ht, rfl, rfl, hw.2, hj.1, hj.2.take (hexec t ht) hc hw.1⟩
  | read hk ha =>
    obtain ⟨ht', hsnap, htip, hfits⟩ := hW.serve _ _ _ _ _ ht ha
    refine ⟨ht', hsnap, htip, hpool, hj.1.trans htip.symm, ?_⟩
    rw [hsnap]
    exact hj.2.read hk hfits
  | send hk hroom =>
    obtain ⟨hrest, hok⟩ := hj.2.send hk
    refine ⟨ht, rfl, rfl, fun w hw => ?_, hj.1, hok⟩
    rcases List.mem_append.mp hw with hw | hw
    · exact hpool w hw
    · rw [List.mem_singleton.mp hw]
      exact hrest
  | done hk => exact ⟨ht, rfl, rfl, hpool, hj.1, hj.2.done hk⟩
  | finish => exact ⟨ht, rfl, rfl, hpool, t, ht, hj.1.symm, hj.2.answered⟩
  | accept hw =>
    obtain ⟨u, hu, -, hans⟩ := hj
    exact ⟨ht, rfl, rfl, hpool, u, hu, hans⟩

theorem Internal.ok (h : Internal W exec n a a') (hW : Lawful W Inv snap Fits)
    (hexec : ∀ t, Inv t → Obeys exec Fits Rest Good (snap t)) (ha : SysOk W Inv snap Fits Rest Good a) :
    SysOk W Inv snap Fits Rest Good a' := by
  cases h with
  | job hj hs =>
    obtain ⟨ht, hsnap, htip, hpool, hj'⟩ :=
      hs.ok hW hexec ha.world ha.pool (ha.jobs _ (List.mem_of_getElem? hj))
    exact ⟨ht, hpool, forall_mem_set (fun j hj => (ha.jobs j hj).congr hsnap htip) hj'⟩
  | requeue hj hw hne => exact ⟨ha.world, ha.pool, forall_mem_set ha.jobs trivial⟩
  | write hw hfree ht =>
    -- no job is under the lock, and the others do not refer to the world
    refine ⟨hW.write _ _ ha.world ht, ha.pool, fun j hj => ?_⟩
    have hok := ha.jobs j hj
    have hread := hfree j hj
    cases hstage : j.stage with
    | batch stamp next tasks results =>
      rw [hstage] at hread
      cases hread
    | begin => trivial
    | check _ _ | returned _ =>
      rw [hstage] at hok
      exact hok

theorem External.ok (h : External W a a') (hW : Lawful W Inv snap Fits)
    (ha : SysOk W Inv snap Fits Rest Good a) : SysOk W Inv snap Fits Rest Good a' := by
  cases h with
  | execute calls =>
    refine ⟨ha.world, ha.pool, fun j hj => ?_⟩
    rcases List.mem_append.mp hj with hj | hj
    · exact ha.jobs j hj
    · rw [List.mem_singleton.mp hj]
      trivial
  | lock hw => exact ⟨ha.world, ha.pool, ha.jobs⟩
  | drift ht =>
    obtain ⟨ht, hsnap, htip⟩ := hW.drift _ _ ha.world ht
    exact ⟨ht, ha.pool, fun j hj => (ha.jobs j hj).congr hsnap htip⟩

theorem Reaches.ok {u : T} {first : Nat} {execs : List X}
    (h : Reaches W exec n (Sys.new u first execs) a) (hW : Lawful W Inv snap Fits)
    (hexec : ∀ t, Inv t → Obeys exec Fits Rest Good (snap t)) (hu : Inv u) (hx : ∀ x ∈ execs, Rest x) :
    SysOk W Inv snap Fits Rest Good a := by
  refine h.rule (I := SysOk W Inv snap Fits Rest Good) ⟨hu, fun w hw => ?_, fun j hj => ?_⟩
    (fun _ _ ha h => h.ok hW hexec ha) (fun _ _ ha h => h.ok hW ha)
  · obtain ⟨p, hp, rfl⟩ := List.mem_map.mp hw
    exact hx p.1 (List.fst_mem_of_mem_zipIdx hp)
  · cases hj

/-- The results of a batch whose stamp is the tip hash are good at the snapshot of that
moment. -/
theorem Reaches.answered {u : T} {first : Nat} {execs : List X}
    (h : Reaches W exec n (Sys.new u first execs) a) (hW : Lawful W Inv snap Fits)
    (hexec : ∀ t, Inv t → Obeys exec Fits Rest Good (snap t)) (hu : Inv u) (hx : ∀ x ∈ execs, Rest x)
    {calls : List C} {results : List (Option R)}
    (hj : (⟨calls, .check (W.tip a.world) results⟩ : Job X C R) ∈ a.jobs) :
    Answered Good (snap a.world) calls results := by
  have hok := h.ok hW hexec hu hx
  obtain ⟨t₀, ht₀, htip, hans⟩ := hok.jobs _ hj
  rw [hW.stamp _ _ hok.world ht₀ htip.symm]
  exact hans

end Results

end Flatstate.Engine
