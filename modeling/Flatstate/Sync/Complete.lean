import Flatstate.Sync.Storage

set_option autoImplicit false

/-!
# Sync: a fresh load is complete

In one run the queue is scanned upwards, so each account has at most one task and each giant at
most one split: watermarks are sound, and a run that returns has every slot.  The code sweep
reads the committed accounts, so it closes every gap the claims of phase 1 have left.
-/

namespace Flatstate.Sync

open Foundation Schema Store

variable {c : Config} {x : Chain} {es : List Event} {s s' : Load} {ev : Option Event}

/-! ## One task for each account -/

def TaskState.split : TaskState → Bool
  | .warming _ => false
  | _ => true

/-- The tasks of a run are below the cursor of the queue scan, in the order of the queue, and a
split belongs to a task that is past its warm-up. -/
structure ScanInv (es : List Event) (s : Load) : Prop where
  fresh : s.phase.past = false ∨ s.phase = .scanning none → s.tasks = []
  sorted : s.tasks.Pairwise (fun t t' => t.addrHash.1 < t'.addrHash.1)
  scanning : ∀ a, s.phase = .scanning (some a) → ∀ t ∈ s.tasks, t.addrHash.1 ≤ a.1
  spawning : ∀ rows last, s.phase = .spawning rows last →
    rows.Pairwise (fun r r' => r.1.1 < r'.1.1) ∧
      (∀ t ∈ s.tasks, t.addrHash.1 ≤ last.1 ∧ ∀ r ∈ rows, t.addrHash.1 < r.1.1) ∧
      ∀ r ∈ rows, r.1.1 ≤ last.1
  fans : ∀ a k, Event.fan a k ∈ es → ∃ t ∈ s.tasks, t.addrHash = a ∧ t.state.split = true
  agreed : Agreed es

namespace ScanInv

/-- Neither the cursor nor a task moves. -/
theorem same (h : ScanInv es s) (hphase : s'.phase = s.phase) (htasks : s'.tasks = s.tasks) :
    ScanInv es s' where
  fresh hp := htasks.trans (h.fresh (hphase ▸ hp))
  sorted := htasks ▸ h.sorted
  scanning a hp := htasks ▸ h.scanning a (hphase ▸ hp)
  spawning rows last hp := htasks ▸ h.spawning rows last (hphase ▸ hp)
  fans a k hf := htasks ▸ h.fans a k hf
  agreed := h.agreed

/-- No new task comes. -/
theorem ahead (h : ScanInv es s) (htasks : s'.tasks = s.tasks)
    (hfresh : s'.phase.past = false ∨ s'.phase = .scanning none → s.tasks = [])
    (hscan : ∀ a, s'.phase ≠ .scanning (some a)) (hspawn : ∀ rows last, s'.phase ≠ .spawning rows last) :
    ScanInv es s' where
  fresh hp := htasks.trans (hfresh hp)
  sorted := htasks ▸ h.sorted
  scanning a hp := absurd hp (hscan a)
  spawning rows last hp := absurd hp (hspawn rows last)
  fans a k hf := htasks ▸ h.fans a k hf
  agreed := h.agreed

/-- A step of a task leaves its address alone; a split is its first. -/
theorem work (h : ScanInv es s) {before after : List Task} {t : Task} {out : Option Bundle}
    {st : TaskState} {db : Env} (htasks : s.tasks = before ++ t :: after)
    (hphase : s'.phase = s.phase) (htasks' : s'.tasks = before ++ { t with state := st } :: after)
    (hstep : TaskStep c x db t.addrHash t.root t.state out ev st) :
    ScanInv (es ++ ev.toList) s' := by
  have haddr : s'.tasks.map Task.addrHash = s.tasks.map Task.addrHash := by
    rw [htasks, htasks']
    simp
  have hmem : ∀ t' ∈ s'.tasks, ∃ t₀ ∈ s.tasks, t₀.addrHash = t'.addrHash := by
    intro t' ht'
    have hin : t'.addrHash ∈ s.tasks.map Task.addrHash := haddr ▸ List.mem_map_of_mem ht'
    exact List.mem_map.mp hin
  have hsplit : t.state.split = true → st.split = true := by
    intro ht
    generalize t.state = st₀ at hstep ht
    cases hstep <;> first | rfl | cases ht
  have hold : ∀ a k, Event.fan a k ∈ es → ∃ t' ∈ s'.tasks, t'.addrHash = a ∧ t'.state.split = true := by
    intro a k hfan
    obtain ⟨t', ht', rfl, hst⟩ := h.fans a k hfan
    rw [htasks] at ht'
    rw [htasks']
    rcases List.mem_append.mp ht' with hin | hin
    · exact ⟨t', by simp [hin], rfl, hst⟩
    · rcases List.mem_cons.mp hin with rfl | hin
      · exact ⟨{ t' with state := st }, by simp, rfl, hsplit hst⟩
      · exact ⟨t', by simp [hin], rfl, hst⟩
  refine ⟨fun hp => ?_, ?_, fun a hp t' ht' => ?_, fun rows last hp => ?_, ?_, ?_⟩
  · have hnil := h.fresh (hphase ▸ hp)
    rw [hnil] at htasks
    simp at htasks
  · have hsorted := h.sorted
    rw [htasks] at hsorted
    rw [htasks']
    simpa only [List.pairwise_append, List.pairwise_cons, List.forall_mem_cons] using hsorted
  · obtain ⟨t₀, ht₀, heq⟩ := hmem t' ht'
    exact heq ▸ h.scanning a (hphase ▸ hp) t₀ ht₀
  · obtain ⟨hrows, hbelow, hlast⟩ := h.spawning rows last (hphase ▸ hp)
    refine ⟨hrows, fun t' ht' => ?_, hlast⟩
    obtain ⟨t₀, ht₀, heq⟩ := hmem t' ht'
    exact heq ▸ hbelow t₀ ht₀
  · intro a k hfan
    rcases List.mem_append.mp hfan with hfan | hfan
    · exact hold a k hfan
    · obtain rfl : ev = some (.fan a k) := by simpa using hfan
      generalize t.state = st₀ at hstep
      cases hstep with
      | fan _ =>
        rw [htasks']
        exact ⟨_, List.mem_append_right _ List.mem_cons_self, rfl, rfl⟩
  · cases ev with
    | none =>
      rw [Option.toList_none, List.append_nil]
      exact h.agreed
    | some ev =>
      -- a task that splits is at its warm-up, so no split of its account came before
      have hfirst : ∀ a k, ev = .fan a k → ∀ k', Event.fan a k' ∉ es := by
        rintro a k rfl k' hfan
        obtain ⟨t', ht', heq, hst⟩ := h.fans a k' hfan
        generalize hst₀ : t.state = st₀ at hstep
        cases hstep with
        | fan _ =>
          have hnodup : (s.tasks.map Task.addrHash).Nodup := by
            refine List.pairwise_map.mpr (h.sorted.imp fun hlt => ?_)
            intro heq
            rw [heq] at hlt
            exact lt_irrefl _ hlt
          have ht : t ∈ s.tasks := by simp [htasks]
          obtain rfl := List.inj_on_of_nodup_map hnodup ht' ht heq
          rw [hst₀] at hst
          cases hst
      intro a k k' hk hk'
      rw [Option.toList_some, List.mem_append, List.mem_singleton] at hk hk'
      rcases hk with hk | hk
      · rcases hk' with hk' | hk'
        · exact h.agreed a k k' hk hk'
        · exact absurd hk (hfirst a k' hk'.symm k)
      · rcases hk' with hk' | hk'
        · exact absurd hk' (hfirst a k hk.symm k')
        · exact (Event.fan.inj (hk.trans hk'.symm)).2

theorem step (h : ScanInv es s) (hstep : Step c x s ev s') : ScanInv (es ++ ev.toList) s' := by
  cases hstep with
  | @applied b hcur hrows hbarrier =>
    rw [Option.toList_none, List.append_nil]
    exact h.same (by cases b.final <;> rfl) (by cases b.final <;> rfl)
  | @fenced b hphase hcur hrows hbarrier =>
    have hnil : s.tasks = [] := h.fresh (Or.inl (by rw [hphase]; rfl))
    have htasks : ((s.mark b.final).flush).tasks = [] := by
      rw [← hnil]
      cases b.final <;> rfl
    refine ⟨fun _ => htasks, ?_, fun a hp => (by cases hp), fun rows last hp => (by cases hp), ?_, ?_⟩
    · dsimp only
      rw [htasks]
      exact List.Pairwise.nil
    · intro a k hfan
      obtain ⟨t, ht, -⟩ := h.fans a k (by simpa using hfan)
      rw [hnil] at ht
      simp at ht
    · intro a k k' hk hk'
      exact h.agreed a k k' (by simpa using hk) (by simpa using hk')
  | walked hphase _ | fence hphase _ =>
    rw [Option.toList_none, List.append_nil]
    exact h.ahead rfl (fun _ => h.fresh (Or.inl (by rw [hphase]; rfl))) (by simp) (by simp)
  | scanned _ _ | drained _ _ | sweep _ _ _ _ _ | swept _ _ _ | finish _ _ =>
    rw [Option.toList_none, List.append_nil]
    exact h.ahead rfl (fun hp => by rcases hp with hp | hp <;> cases hp) (by simp) (by simp)
  | @scan after rows hne hphase hscan =>
    rw [Option.toList_none, List.append_nil]
    obtain ⟨hsorted, hafter⟩ := storageQueueAfter_sorted hscan
    have hlast : ∀ r ∈ rows, r.1.1 ≤ (rows.getLast hne).1.1 := by
      intro r hr
      rw [← List.dropLast_append_getLast hne, List.pairwise_append] at hsorted
      rw [← List.dropLast_append_getLast hne] at hr
      rcases List.mem_append.mp hr with hin | hin
      · exact (hsorted.2.2 r hin _ (by simp)).le
      · rw [List.mem_singleton.mp hin]
    have hbelow : ∀ t ∈ s.tasks, ∀ r ∈ rows, t.addrHash.1 < r.1.1 := by
      intro t ht r hr
      cases after with
      | none =>
        rw [h.fresh (Or.inr hphase)] at ht
        simp at ht
      | some a => exact (h.scanning a hphase t ht).trans_lt (hafter a rfl r hr)
    refine ⟨fun hp => (by rcases hp with hp | hp <;> cases hp), h.sorted,
      fun a hp => (by cases hp), fun rows' last hp => ?_, h.fans, h.agreed⟩
    obtain ⟨rfl, rfl⟩ := Phase.spawning.inj hp
    refine ⟨hsorted, fun t ht => ⟨?_, hbelow t ht⟩, hlast⟩
    exact (hbelow t ht _ (List.getLast_mem hne)).le
  | @task row left last hphase hlimit =>
    rw [Option.toList_none, List.append_nil]
    obtain ⟨hrows, hbelow, hlast⟩ := h.spawning _ _ hphase
    rw [List.pairwise_cons] at hrows
    refine ⟨fun hp => (by rcases hp with hp | hp <;> cases hp), ?_, fun a hp => (by cases hp),
      fun rows' last' hp => ?_, fun a k hfan => ?_, h.agreed⟩
    · refine List.pairwise_append.mpr ⟨h.sorted, List.pairwise_singleton _ _, fun t ht t' ht' => ?_⟩
      rw [List.mem_singleton.mp ht']
      exact (hbelow t ht).2 row (by simp)
    · obtain ⟨rfl, rfl⟩ := Phase.spawning.inj hp
      refine ⟨hrows.2, fun t ht => ?_, fun r hr => hlast r (by simp [hr])⟩
      rcases List.mem_append.mp ht with ht | ht
      · exact ⟨(hbelow t ht).1, fun r hr => (hbelow t ht).2 r (by simp [hr])⟩
      · rw [List.mem_singleton.mp ht]
        exact ⟨hlast row (by simp), hrows.1⟩
    · obtain ⟨t, ht, hta, hst⟩ := h.fans a k hfan
      exact ⟨t, by simp [ht], hta, hst⟩
  | @batch last hphase =>
    rw [Option.toList_none, List.append_nil]
    obtain ⟨-, hbelow, -⟩ := h.spawning _ _ hphase
    refine ⟨fun hp => (by rcases hp with hp | hp <;> cases hp), h.sorted, fun a hp t ht => ?_,
      fun rows last hp => (by cases hp), h.fans, h.agreed⟩
    obtain rfl := Option.some.inj (Phase.scanning.inj hp)
    exact (hbelow t ht).1
  | work hphase htasks hroom hstep => exact h.work htasks rfl rfl hstep
  | _ =>
    rw [Option.toList_none, List.append_nil]
    exact h.same rfl rfl

end ScanInv

/-- One run, from its first worker on. -/
theorem Path.scan {db : Env} {h : Handle} {s₀ : Load} (hbegin : beginRun c h db = .ok s₀)
    (hp : Path c x s₀ es s) : ScanInv es s := by
  obtain ⟨-, -, htasks⟩ := beginRun_idle hbegin
  have hphase := (beginRun_parked hbegin).1
  induction hp with
  | refl =>
    refine ⟨fun _ => htasks, ?_, fun a hp => ?_, fun rows last hp => ?_, fun a k hfan => ?_, ?_⟩
    · rw [htasks]
      exact List.Pairwise.nil
    · rw [hphase] at hp
      cases hp
    · rw [hphase] at hp
      cases hp
    · simp at hfan
    · intro a k k' hk
      simp at hk
  | tail _ hstep ih => exact ih.step hstep

/-! ## The sweep and the end -/

/-- Whether the code sweep has been through the accounts. -/
def Phase.late : Phase → Bool
  | .sweeping _ | .returned => true
  | _ => false

/-- Every code an account refers to is in the store. -/
def Coded (c : Config) (x : Chain) (e : Env) : Prop :=
  ∀ a acc, IsAccount c x a acc → x.hasCode (bytesToHash acc.codeHash) = true →
    ∃ blob, x.code (bytesToHash acc.codeHash) = some blob ∧
      Has c e (.code (bytesToHash acc.codeHash) blob)

/-- From the sweep on the writer waits and no code is missing; a run that has returned has
everything committed and the mark set. -/
structure EndInv (c : Config) (x : Chain) (s : Load) : Prop where
  still : s.phase.late = true → s.Still
  coded : s.phase.late = true → Coded c x s.view
  done : s.phase = .returned → s.ops = [] ∧ (∀ a, row s.db (.storageQueue a) = none) ∧
    row s.db .baselineComplete = some [1]

theorem Coded.keep {rows : List LoadRow} (hfl : Flows c x s s' rows)
    (hgen : ∀ r ∈ rows, Genuine c x r) (h : Coded c x s.view) : Coded c x s'.view := by
  intro a acc hacc hcode
  obtain ⟨blob, hblob, hhas⟩ := h a acc hacc hcode
  have hr : Genuine c x (.code (bytesToHash acc.codeHash) blob) := hblob
  refine ⟨blob, hblob, (hhas.foldl hr rfl fun op hop => ?_).agree hr hfl.view⟩
  obtain ⟨r, hr, rfl⟩ := List.mem_map.mp hop
  exact ⟨r, hgen r hr, rfl⟩

/-- The sweep reports every code that is not committed. -/
theorem Coded.sweep (hacc : AccInv c x es s) (hwalked : Event.walked ∈ es) (hstill : s.Still)
    {missing : List Hash} {rows : List LoadRow} (hphase : s.phase = .closed)
    (hmissing : missingCodeHashes x.keccak s.flush.db = .ok missing)
    (hrows : sweepRows x missing = .ok rows) :
    Coded c x ({ s.flush with phase := .sweeping rows } : Load).view := by
  have hflow := hacc.flow.flush (Ordered.unmeta es)
  have hfl : Flows c x s { s.flush with phase := .sweeping rows } rows := by
    refine (Flows.flush s).trans (.emit ?_ rfl rfl ?_)
    · rw [Load.flush_eq]
      exact hacc.flow.height
    · rw [Load.flush_eq]
      simp [Load.rows, Load.queue, hstill.1, hstill.2, hphase, Phase.rows]
  have hemit : Emits c x s none rows := .sweep hrows
  have hgen := (hacc.emits hemit).1
  have hview : s.flush.view = s.flush.db := by
    rw [Load.flush_eq]
    simp [Load.view, Load.ops, Load.rows, Load.queue, hstill.1, hstill.2, hphase, Phase.rows]
  rintro a acc ⟨l, hl, rfl, hdec⟩ hcode
  have hne : bytesToHash acc.codeHash ≠ Hash.zero ∧ bytesToHash acc.codeHash ≠ x.keccak [] :=
    of_decide_eq_true hcode
  -- the account row is committed, so the sweep reads it
  obtain ⟨acc', hdec', hhas⟩ := hacc.phase.walked hwalked l hl
  obtain rfl := Option.some.inj (hdec.symm.trans hdec')
  have hrow := (Flows.flush (c := c) (x := x) s).grows hacc.flow.genuine _
    (genuine_account hl hdec) rfl hhas
  rcases missingCodeHashes_reports hflow.laid hmissing hrow (decodeAccount_encodeAccount _)
    hne.1 hne.2 with hin | hin
  · obtain ⟨v, hv⟩ := Option.ne_none_iff_exists'.mp hin
    obtain ⟨r, hr, ht, hval⟩ := hflow.exact (.code _) v (by rw [Row.space]; decide) hv
    cases r with
    | code hash blob =>
      obtain rfl := Row.code.inj ht
      refine ⟨blob, hr, ?_⟩
      have hhas : Has c s.view (.code (bytesToHash acc.codeHash) blob) := by
        refine Has.agree hr (s.view_flush).symm ?_
        rw [hview]
        exact hv.trans hval.symm
      refine (hhas.foldl hr rfl fun op hop => ?_).agree hr hfl.view
      obtain ⟨r, hr, rfl⟩ := List.mem_map.mp hop
      exact ⟨r, hgen r hr, rfl⟩
    | _ => cases ht
  · obtain ⟨r, hr, hslot⟩ := exists_of_mem_right (forall₂_of_mapM hrows).flip hin
    cases hblob : x.code (bytesToHash acc.codeHash) with
    | none =>
      dsimp only [StateAccount.row] at hslot
      rw [hblob] at hslot
      cases hslot
    | some blob =>
      dsimp only [StateAccount.row] at hslot
      rw [hblob] at hslot
      obtain rfl := Except.ok.inj hslot
      exact ⟨blob, rfl, (has_of_mem_rows hgen hr rfl).agree (hgen _ hr) hfl.view⟩

theorem EndInv.step (h : EndInv c x s) (hacc : AccInv c x es s) (hstep : Step c x s ev s') :
    EndInv c x s' := by
  obtain ⟨rows, hem, hfl⟩ := hstep.flows hacc.flow.height
  have hkeep : Coded c x s.view → Coded c x s'.view := Coded.keep hfl (hacc.emits hem).1
  -- steps that do not end in a late phase
  have hearly : s'.phase.late = false → EndInv c x s' := by
    intro hlate
    refine ⟨fun hp => ?_, fun hp => ?_, fun hp => ?_⟩
    · rw [hlate] at hp
      cases hp
    · rw [hlate] at hp
      cases hp
    · rw [hp] at hlate
      cases hlate
  -- steps of the writer, which has nothing to do in a late phase
  have hwriter : s'.phase = s.phase → ¬ s.Still → EndInv c x s' := by
    intro hphase hbusy
    refine hearly ?_
    cases hlate : s.phase.late with
    | true => exact absurd (h.still hlate) hbusy
    | false => rw [hphase, hlate]
  cases hstep with
  | spawn hphase _ _ | segment hphase _ _ => exact hearly (by rw [hphase]; rfl)
  | take hcur hwrites => exact hwriter rfl fun hs => by rw [hs.2] at hwrites; cases hwrites
  | add hcur hrows => exact hwriter rfl fun hs => by rw [hs.1] at hcur; cases hcur
  | @applied b hcur hrows hbarrier =>
    exact hwriter (by cases b.final <;> rfl) fun hs => by rw [hs.1] at hcur; cases hcur
  | work hphase htasks hroom hstep =>
    refine hearly ?_
    cases hp : s.phase <;> rw [hp] at hphase <;> first | rfl | cases hphase
  | sweep hphase hcur hwrites hmissing hrows =>
    have hwalked := hacc.phase.past (by rw [hphase]; rfl)
    refine ⟨fun _ => ⟨hcur, hwrites⟩, fun _ => ?_, fun hp => (by cases hp)⟩
    exact Coded.sweep hacc hwalked ⟨hcur, hwrites⟩ hphase hmissing hrows
  | swept hphase hcur hwrites =>
    exact ⟨fun _ => ⟨hcur, hwrites⟩, fun _ => hkeep (h.coded (by rw [hphase]; rfl)),
      fun hp => (by cases hp)⟩
  | finish hphase hfinish =>
    have hstill := h.still (by rw [hphase]; rfl)
    refine ⟨fun _ => hstill, fun _ => hkeep (h.coded (by rw [hphase]; rfl)), fun _ => ?_⟩
    obtain ⟨rfl, hqueue, rfl⟩ := Baseline.finish_ok hfinish
    refine ⟨?_, fun a => ?_, OrdMap.get_put_self _ _ _⟩
    · simp [Load.ops, Load.rows, Load.queue, hstill.1, hstill.2, Phase.rows]
    · refine (row_put_of_ne (r := .baselineComplete) _ [1] (by simp)).trans ?_
      refine (row_del _ .baselineProgress (.storageQueue a)).trans ((if_neg (by simp)).trans ?_)
      exact firstQueued_eq_none hqueue a
  | _ => exact hearly rfl

/-- One run over the empty store, from its first worker on. -/
theorem Path.ends {h : Handle} {s₀ : Load} (hbegin : beginRun c h OrdMap.empty = .ok s₀)
    (hp : Path c x s₀ es s) : Reached c x es (.running s) ∧ EndInv c x s := by
  have hreach : Reached c x [] (.running s₀) := .begin_ .fresh h hbegin
  induction hp with
  | refl =>
    have hphase := (beginRun_parked hbegin).1
    refine ⟨hreach, fun hp => ?_, fun hp => ?_, fun hp => ?_⟩
    · rw [hphase] at hp
      cases hp
    · rw [hphase] at hp
      cases hp
    · rw [hphase] at hp
      cases hp
  | tail _ hstep ih => exact ⟨ih.1.step hstep, ih.2.step ih.1.inv hstep⟩

/-! ## Walks end -/

/-- A page that is not the last one leaves less to ask for. -/
theorem since_lt_of_go {t : Leaves} {start : Bytes} {hi : Option Bytes} {r : LeafsResponse}
    (hs : Serves t start r) {k : Bytes}
    (hgo : verdict (truncateAt r hi).2 (truncateAt r hi).1 = .go k) :
    (t.since k).length < (t.since start).length := by
  unfold verdict at hgo
  split at hgo
  · cases hgo
  · rename_i hcond
    rw [Bool.or_eq_true, not_or] at hcond
    have hkept := truncateAt_kept (Bool.eq_false_iff.mpr hcond.1)
    rw [hkept] at hgo
    split at hgo
    · cases hgo
    · rename_i l hl
      split at hgo
      · cases hgo
      · rename_i k' hinc
        obtain rfl := Verdict.go.inj hgo
        have hmem := hs.initial.subset (List.mem_of_getLast? hl)
        have hlt := lt_incKey hinc
        -- the last leaf of the page is asked for at `start` and no longer at its successor
        have hsub : t.since k' = (t.since start).filter (fun m => decide (k' ≤ m.1)) := by
          rw [Leaves.since, Leaves.since, List.filter_filter]
          refine List.filter_congr fun m _ => ?_
          rw [← Bool.decide_and, decide_eq_decide]
          refine ⟨fun hle => ⟨hle, ?_⟩, fun hle => hle.1⟩
          exact (Leaves.mem_since.mp hmem).2.trans (hlt.le.trans hle)
        rw [hsub]
        refine lt_of_le_of_ne (List.length_filter_le _ _) fun heq => ?_
        have hall := List.length_filter_eq_length_iff.mp heq l hmem
        exact absurd (of_decide_eq_true hall) (not_le.mpr hlt)

/-- How much a walk has to ask for after a page, and one more. -/
def Verdict.left (t : Leaves) : Verdict → Nat
  | .go k => 2 * (t.since k).length + 3
  | .stop | .empty => 1

/-- How far a storage walk is from its end. -/
def Walker.left (t : Leaves) : Walker → Nat
  | .opening _ _ => 2 * t.list.length + 3
  | .asking start _ _ => 2 * (t.since start).length + 2
  | .sending _ v _ _ => v.left t
  | .ended _ | .failed => 0

theorem Verdict.left_lt {t : Leaves} {start : Bytes} {hi : Option Bytes} {r : LeafsResponse}
    (hs : Serves t start r) :
    (verdict (truncateAt r hi).2 (truncateAt r hi).1).left t < 2 * (t.since start).length + 2 := by
  cases hv : verdict (truncateAt r hi).2 (truncateAt r hi).1 with
  | stop | empty =>
    rw [Verdict.left]
    omega
  | go k =>
    have := since_lt_of_go hs hv
    rw [Verdict.left]
    omega

theorem WalkStep.left_lt {db : Env} {a root : Hash} {cap : Nat} {w w' : Walker}
    {out : Option Bundle} (h : WalkStep c x db a root cap w out w') :
    w'.left (x.trie root a) < w.left (x.trie root a) := by
  cases h with
  | @resume start end_ =>
    have hask : ∀ k : Bytes, (Walker.asking k end_ 0).left (x.trie root a) <
        (Walker.opening start end_).left (x.trie root a) := by
      intro k
      have := List.length_filter_le (fun l : Leaf => decide (k ≤ l.1)) (x.trie root a).list
      rw [Walker.left, Walker.left, Leaves.since]
      omega
    have hend : (Walker.ended none).left (x.trie root a) <
        (Walker.opening start end_).left (x.trie root a) := Nat.succ_pos _
    unfold resumeAt
    split
    · split
      · exact hask _
      · split
        · exact hend
        · split
          · exact hend
          · split
            · exact hask _
            · exact hask _
    · exact hask _
  | capped hcap => exact Nat.succ_pos _
  | page hcap hserve hrows => exact Verdict.left_lt hserve
  | @send rows v end_ n =>
    cases v with
    | stop => exact Nat.zero_lt_one
    | empty => exact Nat.zero_lt_one
    | go k => exact Nat.lt_succ_self _

/-- How far a segment worker is from its end: what it has to ask for, and then what it has to
do with the page at hand. -/
def SegWorker.left (t : Leaves) : SegWorker → Nat × Nat
  | .queued _ => (2 * t.list.length + 3, 0)
  | .asking start => (2 * (t.since start).length + 2, 0)
  | .handling slots v =>
    (v.left t, slots.length + 2 + slots.countP (fun | .leaf _ => true | .rows _ => false))
  | .sending rows v => (v.left t, rows.length + 1)
  | .closing => (0, 1)
  | .ended => (0, 0)

theorem SegStep.left_lt {i : UInt8} {w w' : SegWorker × List Hash} {out : Option Bundle}
    (h : SegStep c x i w out w') :
    Prod.Lex (· < ·) (· < ·) (w'.1.left (x.accounts c)) (w.1.left (x.accounts c)) := by
  cases h with
  | page hserve => exact Prod.Lex.left _ _ (Verdict.left_lt hserve)
  | @handle before after l v claims claims' rows hrows =>
    refine Prod.Lex.right _ ?_
    simp only [List.length_append, List.length_cons, List.countP_append, List.countP_cons]
    simp
  | handled =>
    refine Prod.Lex.right _ ?_
    rw [List.length_map]
    omega
  | send => exact Prod.Lex.right _ (Nat.lt_succ_self _)
  | again => exact Prod.Lex.left _ _ (Nat.lt_succ_self _)
  | last => exact Prod.Lex.left _ _ Nat.zero_lt_one
  | close => exact Prod.Lex.right _ Nat.zero_lt_one

/-! ## A fresh load -/

theorem Path.slots {h : Handle} {s₀ : Load} (hbegin : beginRun c h OrdMap.empty = .ok s₀)
    (hp : Path c x s₀ es s) : Slots c x es s.db :=
  ((Path.ends hbegin hp).1.slots (Or.inr (Path.scan hbegin hp).agreed)).1

section

variable {e : Env}

/-- The account rows are the account leaves. -/
def AccountsExact (c : Config) (x : Chain) (e : Env) : Prop :=
  ∀ a v, row e (.baseAccount a) = some v ↔ ∃ acc, IsAccount c x a acc ∧ v = encodeAccount [] acc.row

/-- The slot rows are the storage leaves of the accounts. -/
def SlotsExact (c : Config) (x : Chain) (e : Env) : Prop :=
  ∀ a k v, row e (.baseSlot a k) = some v ↔
    ∃ acc m content, IsAccount c x a acc ∧ x.hasStorage acc = true ∧
      m ∈ (x.trie acc.root a).list ∧ k = bytesToHash m.1 ∧ x.rlpSplit m.2 = some content ∧
      v = (bytesToHash content).1

theorem accountsExact (hexact : Exact c x e)
    (hstored : ∀ l ∈ (x.accounts c).list, Stored c x e l) : AccountsExact c x e := by
  intro a v
  constructor
  · intro hv
    obtain ⟨r, hr, ht, hval⟩ := hexact (.baseAccount a) v (by rw [Row.space]; decide) hv
    cases r with
    | baseAccount a' acct =>
      obtain rfl := Row.baseAccount.inj ht
      obtain ⟨acc, hacc, rfl⟩ := hr
      exact ⟨acc, hacc, (Option.some.inj hval).symm⟩
    | _ => cases ht
  · rintro ⟨acc, ⟨l, hl, ha, hdec⟩, hv⟩
    obtain ⟨acc', hdec', hhas⟩ := hstored l hl
    rw [← Option.some.inj (hdec.symm.trans hdec'), ha] at hhas
    rw [hv]
    exact hhas

theorem slotsExact (hexact : Exact c x e)
    (hall : ∀ a root, QueueRow c x a root → Complete c x e a root) : SlotsExact c x e := by
  intro a k v
  constructor
  · intro hv
    obtain ⟨r, hr, ht, hval⟩ := hexact (.baseSlot a k) v (by rw [Row.space]; decide) hv
    cases r with
    | baseSlot a' k' v' =>
      obtain ⟨rfl, rfl⟩ := Row.baseSlot.inj ht
      obtain ⟨acc, hacc, hst, m, hm, hslot⟩ := hr
      obtain ⟨-, hk, content, hcontent, rfl⟩ := slotLeafRow_ok hslot
      exact ⟨acc, m, content, hacc, hst, hm, hk, hcontent, (Option.some.inj hval).symm⟩
    | _ => cases ht
  · rintro ⟨acc, m, content, hacc, hst, hm, hk, hcontent, hv⟩
    obtain ⟨r, hr, hhas⟩ := hall a acc.root ⟨acc, hacc, hst, rfl⟩ m hm
    obtain ⟨content', hcontent', rfl⟩ := slotLeafRow_shape hr
    rw [Option.some.inj (hcontent.symm.trans hcontent')] at hv
    rw [hk, hv]
    exact hhas

end

end Flatstate.Sync
