import Flatstate.Store.Rows

set_option autoImplicit false

/-!
# Store: one `Baseline` over failing transactions

The bulk loader buffers rows, and a flush commits them together with the resume cursor
that is pending.  A flush that fails drops the buffered rows and keeps the cursor, and the
loader may be used further.  Here is every sequence of calls on one loader, each with the
outcome of its transactions, and what the cursors and the watermark it commits stand for.

The rows added so far, and how many of them there were at the pending `SetProgress`, are
ghosts.
-/

namespace Flatstate.Store

open Foundation Schema

/-- A call on the loader; the flags say whether its transactions commit. -/
inductive BulkCall where
  | row (ok : Bool) (r : LoadRow)
  | setProgress (p : Bytes)
  | flush (ok : Bool)
  | finish (okFlush okMark : Bool)
  deriving DecidableEq

/-- A loader, its environment and its handle. -/
structure Bulk where
  bl : Baseline
  env : Env
  handle : Handle
  /-- ghost: all rows added -/
  added : List LoadRow
  /-- ghost: how many rows the pending cursor stands for -/
  mark : Nat

namespace Bulk

/-- The call. -/
def step (s : Bulk) : BulkCall → Bulk
  | .row ok r =>
    let res := s.bl.load ok s.env r
    { s with bl := res.2.1, env := res.2.2, added := s.added ++ [r] }
  | .setProgress p => { s with bl := s.bl.setProgress p, mark := s.added.length }
  | .flush ok =>
    let res := s.bl.flush ok s.env
    { s with bl := res.2.1, env := res.2.2 }
  | .finish okFlush okMark =>
    let res := s.bl.finish okFlush okMark s.env s.handle
    { s with bl := res.2.1, env := res.2.2.1, handle := res.2.2.2 }

/-- How many rows a marker that the call commits stands for: the cursor that goes with a
flush, or the watermark of a `Finish` that succeeds. -/
def commits (s : Bulk) : BulkCall → Option Nat
  | .row ok _ =>
    if s.bl.progress ≠ none ∧ ok ∧ baselineChunk ≤ s.bl.ops.length + 1 then some s.mark else none
  | .setProgress _ => none
  | .flush ok => if s.bl.progress ≠ none ∧ ok then some s.mark else none
  | .finish okFlush okMark =>
    match (s.bl.finish okFlush okMark s.env s.handle).1 with
    | .ok () => some s.added.length
    | .error _ => none

/-- What was added last under a row. -/
def lastValue (height : UInt64) (added : List LoadRow) (r : Row) : Option Bytes :=
  added.foldl (fun v l => if l.target height = r then l.value else v) none

/-- The first `n` rows are committed, each with its last added value or deletion. -/
def Committed (s : Bulk) (n : Nat) : Prop :=
  ∀ l ∈ s.added.take n,
    row s.env (l.target s.bl.s) = lastValue s.bl.s s.added (l.target s.bl.s)

/-- Calls on a new loader, each satisfying `Q`. -/
inductive Run (Q : Bulk → BulkCall → Prop) : Bulk → Prop where
  | new {h h' : Handle} {env env' : Env} {height : UInt64} {bl : Baseline}
      (hnew : newBaseline h env height = .ok (bl, env', h')) : Run Q ⟨bl, env', h', [], 0⟩
  | call {s : Bulk} (h : Run Q s) (c : BulkCall) (hQ : Q s c) : Run Q (s.step c)

/-- No flush that has rows to commit fails. -/
def Keeps (s : Bulk) : BulkCall → Prop
  | .row ok _ => s.bl.ops.length + 1 < baselineChunk ∨ ok = true
  | .setProgress _ => True
  | .flush ok => s.bl.ops = [] ∨ ok = true
  | .finish okFlush _ => s.bl.ops = [] ∨ okFlush = true

instance (s : Bulk) (c : BulkCall) : Decidable (s.Keeps c) := by
  cases c <;> unfold Keeps <;> infer_instance

/-! ## The buffered rows -/

/-- The environment with the buffered rows written. -/
def view (s : Bulk) : Env := s.bl.ops.foldl BlOp.run s.env

/-- Every row added is buffered or committed, the last one for a key winning. -/
def Holds (s : Bulk) : Prop :=
  ∀ l ∈ s.added, row s.view (l.target s.bl.s) = lastValue s.bl.s s.added (l.target s.bl.s)

theorem lastValue_concat (height : UInt64) (added : List LoadRow) (l : LoadRow) (r : Row) :
    lastValue height (added ++ [l]) r =
      if l.target height = r then l.value else lastValue height added r := by
  rw [lastValue, List.foldl_append]
  rfl

/-- A loader's rows are not meta rows. -/
theorem target_ne_progress (height : UInt64) (l : LoadRow) : l.target height ≠ .baselineProgress := by
  cases l <;> simp [LoadRow.target]

theorem target_ne_complete (height : UInt64) (l : LoadRow) : l.target height ≠ .baselineComplete := by
  cases l <;> simp [LoadRow.target]

/-- One more row in the buffer. -/
def push (s : Bulk) (l : LoadRow) : Bulk :=
  { s with bl := { s.bl with ops := s.bl.ops ++ [l.op s.bl.s] }, added := s.added ++ [l] }

theorem step_row (s : Bulk) (ok : Bool) (l : LoadRow) :
    s.step (.row ok l) =
      if baselineChunk ≤ s.bl.ops.length + 1 then (s.push l).step (.flush ok) else s.push l := by
  simp only [step, Baseline.load, Baseline.add, ge_iff_le, List.length_append, List.length_singleton]
  split <;> rfl

theorem Holds.push {s : Bulk} (h : s.Holds) (l : LoadRow) : (s.push l).Holds := by
  intro l' hl'
  have hview : row (s.push l).view (l'.target s.bl.s) =
      if l'.target s.bl.s = l.target s.bl.s then l.value else row s.view (l'.target s.bl.s) := by
    rw [view, Bulk.push, List.foldl_append]
    exact row_run s.view s.bl.s l (l'.target s.bl.s)
  refine Eq.trans hview ?_
  rw [Bulk.push, lastValue_concat]
  by_cases heq : l'.target s.bl.s = l.target s.bl.s
  · rw [if_pos heq, if_pos heq.symm]
  · rw [if_neg heq, if_neg (Ne.symm heq)]
    rcases List.mem_append.mp hl' with hmem | hmem
    · exact h l' hmem
    · exact absurd (congrArg (LoadRow.target s.bl.s) (List.mem_singleton.mp hmem)) heq

/-- A call that adds nothing and changes none of the loader's rows. -/
theorem Holds.of_rows {s s' : Bulk} (h : s.Holds) (hs : s'.bl.s = s.bl.s)
    (hadded : s'.added = s.added)
    (hrow : ∀ l : LoadRow, row s'.view (l.target s.bl.s) = row s.view (l.target s.bl.s)) :
    s'.Holds := by
  intro l hl
  rw [hadded] at hl ⊢
  rw [hs, hrow l]
  exact h l hl

/-- With nothing buffered, what holds is committed. -/
theorem Holds.committed {s : Bulk} (h : s.Holds) (hops : s.bl.ops = []) (n : Nat) :
    s.Committed n := by
  intro l hl
  have hl := h l (List.mem_of_mem_take hl)
  rwa [view, hops] at hl

end Bulk

/-! ## Flushes that lose nothing -/

/-- What a flush that loses nothing leaves: no buffered rows, and the loader's rows as they
were with them. -/
structure Flushed (bl : Baseline) (env : Env) (bl' : Baseline) (env' : Env) : Prop where
  height : bl'.s = bl.s
  ops : bl'.ops = []
  rows : ∀ l : LoadRow, row env' (l.target bl.s) = row (bl.ops.foldl BlOp.run env) (l.target bl.s)

theorem Baseline.flush_keeps {ok : Bool} {bl : Baseline} (env : Env) (h : bl.ops = [] ∨ ok = true) :
    Flushed bl env (bl.flush ok env).2.1 (bl.flush ok env).2.2 := by
  rw [Baseline.flush]
  split
  · rename_i hskip
    exact ⟨rfl, hskip.1, fun l => by rw [hskip.1]; rfl⟩
  · split
    · refine ⟨rfl, rfl, fun l => ?_⟩
      dsimp only
      rw [Baseline.flushed]
      cases bl.progress with
      | none => rfl
      | some p => exact row_put_of_ne _ p (Bulk.target_ne_progress bl.s l)
    · rename_i hok
      rcases h with h | h
      · exact ⟨rfl, rfl, fun l => by rw [h]; rfl⟩
      · exact absurd h hok

theorem Baseline.finish_keeps {okFlush okMark : Bool} {bl : Baseline} (env : Env) (h : Handle)
    (hk : bl.ops = [] ∨ okFlush = true) :
    Flushed bl env (bl.finish okFlush okMark env h).2.1 (bl.finish okFlush okMark env h).2.2.1 := by
  have hf : Flushed bl env (bl.clearProgress.flush okFlush env).2.1
      (bl.clearProgress.flush okFlush env).2.2 := by
    have hk' : bl.clearProgress.ops = [] ∨ okFlush = true := hk
    obtain ⟨hs, hops, hrows⟩ := Baseline.flush_keeps env hk'
    exact ⟨hs, hops, hrows⟩
  rw [Baseline.finish]
  split
  · rename_i heq
    rwa [heq] at hf
  · rename_i bl' env' heq
    rw [heq] at hf
    split
    · exact hf
    · split
      · refine ⟨hf.height, hf.ops, fun l => ?_⟩
        refine Eq.trans ?_ (hf.rows l)
        have hp := Bulk.target_ne_progress bl.s l
        have hc := Bulk.target_ne_complete bl.s l
        refine (row_put_of_ne (r := .baselineComplete) _ _ hc).trans ?_
        exact (row_del env' .baselineProgress _).trans (if_neg hp)
      · exact hf

namespace Bulk

/-- A flush, or a `Finish`, keeps what holds. -/
theorem Holds.flushed {s s' : Bulk} (h : s.Holds) (hf : Flushed s.bl s.env s'.bl s'.env)
    (hadded : s'.added = s.added) : s'.Holds := by
  refine h.of_rows hf.height hadded fun l => ?_
  rw [view, hf.ops]
  exact hf.rows l

/-- One call. -/
theorem Holds.step {s : Bulk} (h : s.Holds) {c : BulkCall} (hk : s.Keeps c) : (s.step c).Holds := by
  cases c with
  | row ok l =>
    rw [step_row]
    split
    · rename_i hfull
      have hok : ok = true := hk.resolve_left (by omega)
      exact (h.push l).flushed (Baseline.flush_keeps _ (.inr hok)) rfl
    · exact h.push l
  | setProgress p => exact h
  | flush ok => exact h.flushed (Baseline.flush_keeps _ hk) rfl
  | finish okFlush okMark => exact h.flushed (Baseline.finish_keeps _ _ hk) rfl

theorem Run.holds {s : Bulk} (h : Run Keeps s) : s.Holds := by
  induction h with
  | new hnew => intro l hl; simp at hl
  | call _ c hk ih => exact ih.step hk

/-- A call that commits a marker leaves nothing buffered. -/
theorem ops_of_commits {s : Bulk} {c : BulkCall} (hk : s.Keeps c) {n : Nat}
    (hc : s.commits c = some n) : (s.step c).bl.ops = [] := by
  cases c with
  | row ok l =>
    rw [commits] at hc
    split at hc
    · rename_i hfull
      rw [step_row, if_pos hfull.2.2]
      exact (Baseline.flush_keeps _ (.inr hfull.2.1)).ops
    · cases hc
  | setProgress p => cases hc
  | flush ok => exact (Baseline.flush_keeps _ hk).ops
  | finish okFlush okMark => exact (Baseline.finish_keeps _ _ hk).ops

/-! ## Which calls write a marker -/

/-- The rows that are markers. -/
def IsMarker (r : Row) : Prop := r = .baselineProgress ∨ r = .baselineComplete

theorem target_ne_marker (height : UInt64) (l : LoadRow) {r : Row} (hr : IsMarker r) :
    r ≠ l.target height := by
  rcases hr with rfl | rfl
  · exact (target_ne_progress height l).symm
  · exact (target_ne_complete height l).symm

/-- What is buffered are rows of the loader. -/
def Buffers (s : Bulk) : Prop := ∃ ls : List LoadRow, s.bl.ops = ls.map (LoadRow.op s.bl.s)

theorem Buffers.push {s : Bulk} (h : s.Buffers) (l : LoadRow) : (s.push l).Buffers := by
  obtain ⟨ls, hls⟩ := h
  exact ⟨ls ++ [l], by rw [Bulk.push, List.map_append, hls]; rfl⟩

theorem Buffers.of_nil {s : Bulk} (h : s.bl.ops = []) : s.Buffers := ⟨[], h⟩

theorem flush_ops (ok : Bool) (bl : Baseline) (env : Env) : (bl.flush ok env).2.1.ops = [] := by
  rw [Baseline.flush]
  split
  · rename_i h
    exact h.1
  · split <;> rfl

theorem finish_ops (okFlush okMark : Bool) (bl : Baseline) (env : Env) (h : Handle) :
    (bl.finish okFlush okMark env h).2.1.ops = [] := by
  have hf := flush_ops okFlush bl.clearProgress env
  rw [Baseline.finish]
  split
  · rename_i heq
    rwa [heq] at hf
  · rename_i heq
    rw [heq] at hf
    split
    · exact hf
    · split <;> exact hf

theorem Run.buffers {Q : Bulk → BulkCall → Prop} {s : Bulk} (h : Run Q s) : s.Buffers := by
  induction h with
  | new hnew =>
    obtain ⟨rfl, -⟩ := newBaseline_ok hnew
    exact .of_nil rfl
  | call _ c _ ih =>
    cases c with
    | row ok l =>
      rw [step_row]
      split
      · exact .of_nil (flush_ops _ _ _)
      · exact ih.push l
    | setProgress p => exact ih
    | flush ok => exact .of_nil (flush_ops _ _ _)
    | finish okFlush okMark => exact .of_nil (finish_ops _ _ _ _ _)

/-- The buffered rows leave the markers alone. -/
theorem Buffers.marker {s : Bulk} (h : s.Buffers) {r : Row} (hr : IsMarker r) :
    row s.view r = row s.env r := by
  obtain ⟨ls, hls⟩ := h
  rw [view, hls]
  clear hls
  generalize s.env = env
  induction ls generalizing env with
  | nil => rfl
  | cons l ls ih =>
    rw [List.map_cons, List.foldl_cons, ih]
    exact row_run_of_ne env (target_ne_marker s.bl.s l hr)

/-- A flush without a cursor, or one that fails, leaves the markers alone. -/
theorem Buffers.marker_flush {s : Bulk} (h : s.Buffers) {ok : Bool}
    (hno : s.bl.progress = none ∨ ok = false) {r : Row} (hr : IsMarker r) :
    row (s.bl.flush ok s.env).2.2 r = row s.env r := by
  rw [Baseline.flush]
  split
  · rfl
  · split
    · rename_i hok
      have hnone : s.bl.progress = none := hno.resolve_right (by simp [hok])
      dsimp only
      rw [Baseline.flushed, hnone]
      exact h.marker hr
    · rfl

/-- A call that commits no marker leaves the marker rows as they are. -/
theorem marker_unchanged {s : Bulk} (h : s.Buffers) {c : BulkCall} (hc : s.commits c = none)
    {r : Row} (hr : IsMarker r) : row (s.step c).env r = row s.env r := by
  cases c with
  | row ok l =>
    rw [commits, ite_eq_right_iff] at hc
    rw [step_row]
    split
    · rename_i hfull
      refine (h.push l).marker_flush ?_ hr
      by_contra hno
      obtain ⟨hp, hok⟩ := not_or.mp hno
      exact absurd (hc ⟨hp, by simpa using hok, hfull⟩) (by simp)
    · rfl
  | setProgress p => rfl
  | flush ok =>
    rw [commits, ite_eq_right_iff] at hc
    refine h.marker_flush ?_ hr
    by_contra hno
    obtain ⟨hp, hok⟩ := not_or.mp hno
    exact absurd (hc ⟨hp, by simpa using hok⟩) (by simp)
  | finish okFlush okMark =>
    -- the cursor is cleared before the flush, and a `Finish` that fails sets no watermark
    have hf : row (s.bl.clearProgress.flush okFlush s.env).2.2 r = row s.env r :=
      Buffers.marker_flush (s := { s with bl := s.bl.clearProgress }) h (.inl rfl) hr
    simp only [commits] at hc
    simp only [step]
    rw [Baseline.finish] at hc ⊢
    split
    · rename_i heq
      rwa [heq] at hf
    · rename_i heq
      rw [heq] at hf
      simp only [heq] at hc
      split
      · exact hf
      · rename_i hq
        simp only [hq] at hc
        split
        · rename_i hok
          simp [hok] at hc
        · exact hf

/-- Progress and completion never run ahead of the rows, in every run in which no flush that
has rows to commit fails: a call that commits a cursor or the watermark has committed the
rows it stands for, and no other call writes either. -/
theorem markers_behind_rows {s : Bulk} (h : Run Keeps s) {c : BulkCall} (hk : s.Keeps c) :
    (∀ n, s.commits c = some n → (s.step c).Committed n) ∧
    (s.commits c = none → ∀ r, IsMarker r → row (s.step c).env r = row s.env r) :=
  ⟨fun n hc => (h.holds.step hk).committed (ops_of_commits hk hc) n,
    fun hc _ hr => marker_unchanged h.buffers hc hr⟩

/-! ### One account -/

namespace Sample

/-- A new loader at height 5 on an empty store. -/
def new : Bulk := ⟨⟨5, [], none⟩, putMeta OrdMap.empty metaGenesis (beBytes 5), ⟨6, false⟩, [], 0⟩

theorem new_run (Q : Bulk → BulkCall → Prop) : Run Q new := by
  have hnew : newBaseline {} OrdMap.empty 5 = .ok (new.bl, new.env, new.handle) := rfl
  exact .new hnew

/-- An account of the baseline. -/
def acct : LoadRow := .baseAccount (FixedBytes.ofNat 32 1) ⟨10, 0, Hash.zero⟩

/-- The account is added and a cursor set. -/
def pending : Bulk := (new.step (.row true acct)).step (.setProgress [1])

/-- The flush of both fails. -/
def failed : Bulk := pending.step (.flush false)

end Sample

open Sample in
/-- A flush that fails drops the account and keeps the cursor: the next flush commits the
cursor, or `Finish` the watermark, without the account. -/
theorem markers_run_ahead :
    Run (fun _ _ => True) failed ∧
    (failed.commits (.flush true) = some 1 ∧ ¬ (failed.step (.flush true)).Committed 1 ∧
      row (failed.step (.flush true)).env .baselineProgress = some [1]) ∧
    (failed.commits (.finish true true) = some 1 ∧
      ¬ (failed.step (.finish true true)).Committed 1 ∧
      row (failed.step (.finish true true)).env .baselineComplete = some [1]) := by
  have hrun : Run (fun _ _ => True) failed :=
    (((new_run _).call _ trivial).call _ trivial).call _ trivial
  have hnot : ∀ c, row (failed.step c).env (acct.target 5) = none → (failed.step c).bl.s = 5 →
      (failed.step c).added = [acct] → ¬ (failed.step c).Committed 1 := by
    intro c hrow hs hadded hcom
    have h := hcom acct (by rw [hadded]; exact List.mem_cons_self)
    rw [hs, hrow, hadded] at h
    exact absurd h (by decide +kernel)
  refine ⟨hrun, ⟨by decide +kernel, hnot _ ?_ rfl rfl, by decide +kernel⟩, by decide +kernel,
    hnot _ ?_ rfl rfl, by decide +kernel⟩ <;> decide +kernel

open Sample in
/-- The account and the cursor in one flush that succeeds. -/
theorem markers_behind_rows_sample :
    (pending.step (.flush true)).Committed 1 ∧
    row (pending.step (.flush true)).env (acct.target 5) = acct.value := by
  have hrun : Run Keeps pending := ((new_run _).call _ (by decide)).call _ trivial
  have hcom := (markers_behind_rows hrun (c := .flush true) (.inr rfl)).1 1 (by decide +kernel)
  exact ⟨hcom, hcom acct List.mem_cons_self⟩

end Bulk

end Flatstate.Store
