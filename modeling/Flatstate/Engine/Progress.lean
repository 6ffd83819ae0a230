import Flatstate.Engine.Pool
import Flatstate.Foundation.Work

set_option autoImplicit false

/-!
# Engine: every batch returns

Between two events from outside, a new batch or a write phase that asks for the lock, the
engine makes finitely many steps in whatever order, and when it can make no more every batch
has returned.  A batch that has to start over does so once: its new stamp stays the tip hash.

What is left of a batch is its stage, the calls that are not started, and the programs of
those that run.
-/

namespace Flatstate.Engine

open Foundation Schema
open Relation (CutExpand)

/-! ## The work of an engine -/

section Progress

variable {T X C R : Type}

/-- What is left of a call. -/
def Task.work (k : Task X R) : Multiset (Work (Prog MemQ MemQ.Ans ((R × X) × View))) :=
  match k.run with
  | some p => {.run p}
  | none => {.token 0}

/-- What is left of a job; more if its stamp is not the tip hash. -/
def Job.work (tip : Hash) (j : Job X C R) :
    Multiset (Work (Prog MemQ MemQ.Ans ((R × X) × View))) :=
  match j.stage with
  | .begin => {.token 4}
  | .batch stamp next tasks _ =>
    {.token (if tip = stamp then 3 else 6)} + Multiset.replicate (j.calls.length - next) (.token 1) +
      (tasks.map Task.work).sum
  | .check stamp _ => {.token (if tip = stamp then 2 else 5)}
  | .returned _ => 0

/-- What is left to do: a write phase first. -/
def Sys.work (W : World T) (s : Sys T X C R) :
    Nat × Multiset (Work (Prog MemQ MemQ.Ans ((R × X) × View))) :=
  (if s.waiting then 1 else 0, (s.jobs.map (Job.work (W.tip s.world))).sum)

variable {W : World T} {exec : X → C → Prog ViewQ ViewQ.Ans (R × X)} {n : Nat} {b : Bool}
  {t t' : T} {pool pool' : List (Worker X)} {j j' : Job X C R} {s s' : Sys T X C R}

/-- Reads do not move the tip. -/
theorem JobStep.tip (h : JobStep W exec n b t pool j t' pool' j')
    (htip : ∀ i t q a t', W.serve i t q a t' → W.tip t' = W.tip t) : W.tip t' = W.tip t := by
  cases h with
  | read hk ha => exact htip _ _ _ _ _ ha
  | begin hw => rfl
  | take hc => rfl
  | send hk hroom => rfl
  | done hk => rfl
  | finish => rfl
  | accept hw => rfl

/-- Every step of a job replaces a piece of its work by smaller ones. -/
theorem JobStep.work (h : JobStep W exec n b t pool j t' pool' j') :
    CutExpand (Work.Less Prog.Next) (j'.work (W.tip t)) (j.work (W.tip t)) := by
  cases h with
  | begin hw =>
    refine Relation.cutExpand_singleton fun w hw => ?_
    simp only [Job.work, if_pos, List.map_nil, List.sum_nil, add_zero, Multiset.mem_add,
      Multiset.mem_singleton] at hw
    rcases hw with rfl | hw
    · exact .token (by decide)
    · rw [Multiset.eq_of_mem_replicate hw]
      exact .token (by decide)
  | take hc =>
    rename_i calls stamp next tasks results c w
    obtain ⟨m, hm⟩ : ∃ m, calls.length - next = m + 1 :=
      ⟨calls.length - next - 1, by have := (List.getElem?_eq_some_iff.mp hc).1; omega⟩
    have hm' : calls.length - (next + 1) = m := by omega
    refine ⟨{.run (w.start exec c)}, .token 1, fun x hx => ?_, ?_⟩
    · rw [Multiset.mem_singleton.mp hx]
      exact .start _ 0
    · simp only [Job.work, hm, hm', Multiset.replicate_succ, List.map_append, List.sum_append,
        List.map_cons, List.map_nil, List.sum_cons, List.sum_nil, add_zero, Task.work,
        ← Multiset.singleton_add]
      ac_rfl
  | read hk ha =>
    refine (Relation.cutExpand_add_left _).mpr (cutExpand_sum_set Task.work hk ?_)
    exact Relation.cutExpand_singleton_singleton (.go (.mk _ _ _))
  | send hk hroom =>
    refine (Relation.cutExpand_add_left _).mpr (cutExpand_sum_set Task.work hk ?_)
    exact Relation.cutExpand_singleton_singleton (.stop _)
  | done hk =>
    refine ⟨0, .token 0, fun x hx => absurd hx (Multiset.notMem_zero x), ?_⟩
    simp only [Job.work, add_zero]
    rw [add_assoc]
    exact congrArg (_ + ·) (sum_eraseIdx_add Task.work hk)
  | finish =>
    simp only [Job.work, Nat.sub_self, Multiset.replicate_zero, List.map_nil, List.sum_nil, add_zero]
    refine Relation.cutExpand_singleton_singleton (.token ?_)
    split <;> decide
  | accept hw =>
    simp only [Job.work]
    exact Relation.cutExpand_singleton fun x hx => absurd hx (Multiset.notMem_zero x)

/-- Every step of the engine leaves less to do. -/
theorem Internal.work (h : Internal W exec n s s')
    (htip : ∀ i t q a t', W.serve i t q a t' → W.tip t' = W.tip t) :
    Prod.Lex (· < ·) (CutExpand (Work.Less Prog.Next)) (s'.work W) (s.work W) := by
  cases h with
  | job hj hs =>
    refine Prod.Lex.right _ ?_
    dsimp only
    rw [hs.tip htip]
    exact cutExpand_sum_set (Job.work (W.tip s.world)) hj hs.work
  | requeue hj hw hne =>
    refine Prod.Lex.right _ (cutExpand_sum_set (Job.work (W.tip s.world)) hj ?_)
    simp only [Job.work, if_neg hne]
    exact Relation.cutExpand_singleton_singleton (.token (by decide))
  | write hw hfree ht =>
    refine Prod.Lex.left _ _ ?_
    rw [hw]
    exact Nat.zero_lt_one

theorem internal_wf (htip : ∀ i t q a t', W.serve i t q a t' → W.tip t' = W.tip t) :
    WellFounded (fun s' s : Sys T X C R => Internal W exec n s s') := by
  have hnext : WellFounded (Prog.Next : Prog MemQ MemQ.Ans ((R × X) × View) → _ → Prop) := Prog.next_wf
  have hless := Work.less_wf hnext
  have hlex := WellFounded.prod_lex Nat.lt_wfRel.wf hless.cutExpand
  exact Subrelation.wf (fun h => h.work htip) (InvImage.wf (Sys.work W) hlex)

/-! ## Nothing gets stuck -/

/-- No batch has started more calls than it has. -/
def Job.InRange (j : Job X C R) : Prop :=
  match j.stage with
  | .batch _ next _ _ => next ≤ j.calls.length
  | _ => True

theorem JobStep.inRange (h : JobStep W exec n b t pool j t' pool' j') (hj : j.InRange) :
    j'.InRange := by
  cases h with
  | begin hw => exact Nat.zero_le _
  | take hc => exact (List.getElem?_eq_some_iff.mp hc).1
  | read hk ha => exact hj
  | send hk hroom => exact hj
  | done hk => exact hj
  | finish => trivial
  | accept hw => trivial

theorem Reaches.inRange {first : Nat} {execs : List X}
    (h : Reaches W exec n (Sys.new t first execs) s) : ∀ j ∈ s.jobs, j.InRange := by
  refine h.rule (I := fun s => ∀ j ∈ s.jobs, j.InRange) (fun j hj => (by cases hj))
    (fun a b ha hab => ?_) (fun a b ha hab => ?_)
  · cases hab with
    | job hj hs => exact forall_mem_set ha (hs.inRange (ha _ (List.mem_of_getElem? hj)))
    | requeue hj hw hne => exact forall_mem_set ha trivial
    | write hw hfree ht => exact ha
  · cases hab with
    | execute calls =>
      intro j hj
      rcases List.mem_append.mp hj with hj | hj
      · exact ha j hj
      · rw [List.mem_singleton.mp hj]
        trivial
    | lock hw => exact ha
    | drift ht => exact ha

section Stuck

variable {first : Nat} {execs : List X}

/-- A task of a batch can go on. -/
theorem Reaches.task_moves (h : Reaches W exec execs.length (Sys.new t first execs) s)
    (hserve : ∀ i t q, ∃ a t', W.serve i t q a t') {i k : Nat} {calls : List C} {stamp : Hash}
    {next : Nat} {tasks : List (Task X R)} {results : List (Option R)} {task : Task X R}
    (hj : s.jobs[i]? = some ⟨calls, .batch stamp next tasks results⟩)
    (hk : tasks[k]? = some task) : ∃ s', Internal W exec execs.length s s' := by
  obtain ⟨idx, buf, run⟩ := task
  cases run with
  | none => exact ⟨_, .job hj (.done hk)⟩
  | some p =>
    cases p with
    | ask q f =>
      obtain ⟨a, t', ha⟩ := hserve buf s.world q
      exact ⟨_, .job hj (.read hk ha)⟩
    | ret out =>
      obtain ⟨⟨r, x⟩, v⟩ := out
      have hroom := h.room ⟨calls, stamp, next, tasks, results, idx, hj, hk⟩
      exact ⟨_, .job hj (.send hk hroom)⟩

/-- If the pool is empty, a call runs. -/
theorem Reaches.exists_task (h : Reaches W exec execs.length (Sys.new t first execs) s)
    (hexecs : execs ≠ []) (hpool : s.pool = []) :
    ∃ (i : Nat) (calls : List C) (stamp : Hash) (next : Nat) (tasks : List (Task X R))
      (results : List (Option R)) (k : Nat) (task : Task X R),
      s.jobs[i]? = some ⟨calls, .batch stamp next tasks results⟩ ∧ tasks[k]? = some task := by
  have huses := h.uses (fun _ => true)
  have hlen : 0 < execs.length := List.length_pos_iff.mpr hexecs
  rw [List.countP_true, List.length_range', Sys.uses, hpool, List.countP_nil, Nat.zero_add] at huses
  have hpos : 0 < (s.jobs.map fun j => j.stage.busy fun _ => true).sum := huses ▸ hlen
  obtain ⟨x, hx, hbusy⟩ := List.exists_mem_ne_zero_of_sum_ne_zero (Nat.pos_iff_ne_zero.mp hpos)
  obtain ⟨j, hj, rfl⟩ := List.mem_map.mp hx
  obtain ⟨i, hi⟩ := List.mem_iff_getElem?.mp hj
  obtain ⟨calls, stage⟩ := j
  cases stage with
  | batch stamp next tasks results =>
    cases tasks with
    | nil => exact absurd rfl hbusy
    | cons task tasks => exact ⟨i, calls, stamp, next, _, results, 0, task, hi, rfl⟩
  | begin | check _ _ | returned _ => exact absurd rfl hbusy

/-- While a batch holds the lock, the engine can go on. -/
theorem Reaches.batch_moves (h : Reaches W exec execs.length (Sys.new t first execs) s)
    (hexecs : execs ≠ []) (hserve : ∀ i t q, ∃ a t', W.serve i t q a t') {j : Job X C R}
    (hj : j ∈ s.jobs) (hread : j.stage.reading = true) :
    ∃ s', Internal W exec execs.length s s' := by
  have hrange := h.inRange j hj
  obtain ⟨i, hi⟩ := List.mem_iff_getElem?.mp hj
  obtain ⟨calls, stage⟩ := j
  cases stage with
  | batch stamp next tasks results =>
    cases tasks with
    | cons task tasks => exact h.task_moves hserve hi (k := 0) rfl
    | nil =>
      rcases Nat.lt_or_eq_of_le hrange with hlt | heq
      · -- the next call needs a worker
        cases hpool : s.pool with
        | cons w pool =>
          have hs : JobStep W exec execs.length s.waiting s.world s.pool
              ⟨calls, .batch stamp next [] results⟩ s.world pool
              ⟨calls, .batch stamp (next + 1) ([] ++ [⟨next, w.buf, some (w.start exec
                (calls.get ⟨next, hlt⟩))⟩]) results⟩ := by
            rw [hpool]
            exact .take (List.getElem?_eq_getElem hlt)
          exact ⟨_, .job hi hs⟩
        | nil =>
          obtain ⟨i', calls', stamp', next', tasks', results', k, task, hi', hk⟩ :=
            h.exists_task hexecs hpool
          exact h.task_moves hserve hi' hk
      · have hs : JobStep W exec execs.length s.waiting s.world s.pool
            ⟨calls, .batch stamp next [] results⟩ s.world s.pool ⟨calls, .check stamp results⟩ := by
          change next = calls.length at heq
          rw [heq]
          exact .finish
        exact ⟨_, .job hi hs⟩
  | begin => cases hread
  | check stamp results => cases hread
  | returned results => cases hread

/-- An engine that has a batch to finish, or a write phase that waits, can go on. -/
theorem Reaches.moves (h : Reaches W exec execs.length (Sys.new t first execs) s)
    (hexecs : execs ≠ []) (hserve : ∀ i t q, ∃ a t', W.serve i t q a t')
    (hwrite : ∀ t, ∃ t', W.write t t') :
    (∃ s', Internal W exec execs.length s s') ∨
      s.waiting = false ∧ ∀ j ∈ s.jobs, ∃ results, j.stage = .returned results := by
  by_cases hread : ∃ j ∈ s.jobs, j.stage.reading = true
  · obtain ⟨j, hj, hread⟩ := hread
    exact .inl (h.batch_moves hexecs hserve hj hread)
  · have hfree : ∀ j ∈ s.jobs, j.stage.reading = false := fun j hj =>
      Bool.eq_false_iff.mpr fun h => hread ⟨j, hj, h⟩
    cases hw : s.waiting with
    | true =>
      obtain ⟨t', ht⟩ := hwrite s.world
      exact .inl ⟨_, .write hw hfree ht⟩
    | false =>
      by_contra hstuck
      rw [not_or] at hstuck
      refine hstuck.2 ⟨rfl, fun j hj => ?_⟩
      obtain ⟨i, hi⟩ := List.mem_iff_getElem?.mp hj
      obtain ⟨calls, stage⟩ := j
      cases stage with
      | returned results => exact ⟨results, rfl⟩
      | batch stamp next tasks results => cases hfree _ hj
      | begin => exact absurd ⟨_, .job hi (.begin hw)⟩ hstuck.1
      | check stamp results =>
        by_cases htip : W.tip s.world = stamp
        · subst htip
          exact absurd ⟨_, .job hi (.accept hw)⟩ hstuck.1
        · exact absurd ⟨_, .requeue hi hw htip⟩ hstuck.1

end Stuck

/-- With one executor at least, reads that are answered and do not move the tip, and write
phases that end: however its goroutines are scheduled, an engine that is left alone makes
finitely many steps, and when it makes no more the write phase that waited is over and every
batch has returned. -/
theorem batches_return (W : World T) (exec : X → C → Prog ViewQ ViewQ.Ans (R × X))
    (t : T) (first : Nat) (execs : List X) (hexecs : execs ≠ [])
    (hserve : ∀ i t q, ∃ a t', W.serve i t q a t')
    (htip : ∀ i t q a t', W.serve i t q a t' → W.tip t' = W.tip t)
    (hwrite : ∀ t, ∃ t', W.write t t') :
    WellFounded (fun s' s : Sys T X C R => Internal W exec execs.length s s') ∧
      ∀ s : Sys T X C R, Reaches W exec execs.length (Sys.new t first execs) s →
        (∀ s', ¬Internal W exec execs.length s s') →
          s.waiting = false ∧ ∀ j ∈ s.jobs, ∃ results, j.stage = .returned results := by
  refine ⟨internal_wf htip, fun s h hstuck => ?_⟩
  rcases h.moves hexecs hserve hwrite with ⟨s', hs⟩ | hdone
  · exact absurd hs (hstuck s')
  · exact hdone

theorem Internal.length_jobs (h : Internal W exec n s s') : s'.jobs.length = s.jobs.length := by
  cases h <;> simp

/-- Two batches are on their way and a write phase waits.  However it goes on, it comes to the
end of all three. -/
theorem batches_return_sample :
    ∃ s, Reaches Sample.world Sample.exec 2 (Sys.new Hash.zero 0 [(), ()]) s ∧
      s.jobs.length = 2 ∧ s.waiting = false ∧
      ∀ j ∈ s.jobs, ∃ results, j.stage = .returned results := by
  obtain ⟨hwf, hend⟩ := batches_return Sample.world Sample.exec Hash.zero 0 [(), ()] (by decide)
    (fun _ t q => ⟨Sample.reply t q, t, rfl, rfl⟩) (fun _ _ _ _ _ h => h.1)
    (fun t => ⟨t, trivial⟩)
  have hbusy := Sample.two_reached.tail (.inr (.lock rfl))
  obtain ⟨s, ⟨hreach, hlen⟩, hmin⟩ := hwf.has_min
    { s | Reaches Sample.world Sample.exec 2 (Sys.new Hash.zero 0 [(), ()]) s ∧ s.jobs.length = 2 }
    ⟨_, hbusy, rfl⟩
  refine ⟨s, hreach, hlen, hend s hreach fun s' hs => ?_⟩
  exact hmin s' ⟨hreach.tail (.inl hs), hs.length_jobs.trans hlen⟩ hs

end Progress

end Flatstate.Engine
