import Flatstate.Sync.Log

set_option autoImplicit false

/-!
# Sync: a run can be driven through phase 1

With a client that answers every request in full, and with every account leaf decoding and
every code served, a run has a schedule that ends phase 1: one segment after the other, each
bundle written before the next is sent.
-/

namespace Flatstate.Sync

open Foundation Schema Store

variable {c : Config} {x : Chain} {es : List Event}

/-- Steps that leave no event. -/
abbrev Steps (c : Config) (x : Chain) : Load → Load → Prop :=
  Relation.ReflTransGen (fun s s' => Step c x s none s')

theorem Path.trans {s s' s'' : Load} {es' : List Event} (h : Path c x s es s')
    (h' : Path c x s' es' s'') : Path c x s (es ++ es') s'' := by
  induction h' with
  | refl =>
    rw [List.append_nil]
    exact h
  | tail _ hstep ih =>
    rw [← List.append_assoc]
    exact ih.tail hstep

theorem Path.steps {s s' s'' : Load} (h : Path c x s es s') (hs : Steps c x s' s'') :
    Path c x s es s'' := by
  induction hs with
  | refl => exact h
  | tail _ hstep ih =>
    have := ih.tail hstep
    rwa [Option.toList_none, List.append_nil] at this

theorem Reached.path {s s' : Load} {es' : List Event} (h : Reached c x es (.running s))
    (hp : Path c x s es' s') : Reached c x (es ++ es') (.running s') := by
  induction hp with
  | refl =>
    rw [List.append_nil]
    exact h
  | tail _ hstep ih =>
    rw [← List.append_assoc]
    exact ih.step hstep

theorem Config.width_pos (c : Config) : 0 < c.width := by
  rw [Config.width]
  split
  · decide
  · omega

/-! ## The writer -/

/-- What the writer leaves alone. -/
structure Aside (s s' : Load) : Prop where
  claims : s'.claims = s.claims
  segs : s'.segs = s.segs
  phase : s'.phase = s.phase
  tasks : s'.tasks = s.tasks

theorem Aside.mark (s : Load) (final : Option UInt8) : Aside s (s.mark final) := by
  cases final <;> exact ⟨rfl, rfl, rfl, rfl⟩

/-- The writer gets through a bundle. -/
theorem steps_bundle {s : Load} {b : Bundle} (hcur : s.cur = some b) (hb : b.barrier = false) :
    ∃ s', Steps c x s s' ∧ Aside s s' ∧ s'.cur = none ∧ s'.writes = s.writes ∧
      Agree s.view s'.view := by
  induction hrows : b.apply generalizing s b with
  | nil =>
    refine ⟨_, .single (.applied hcur hrows hb), ?_, rfl, ?_, ?_⟩
    · exact ⟨(Aside.mark s b.final).claims, (Aside.mark s b.final).segs,
        (Aside.mark s b.final).phase, (Aside.mark s b.final).tasks⟩
    · cases b.final <;> rfl
    · exact (Flows.applied (c := c) (x := x) hcur hrows).view
  | cons r rs ih =>
    obtain ⟨s', hs, ha, hc, hw, hv⟩ :=
      ih (s := { s.load r with cur := some { b with apply := rs } }) rfl hb rfl
    have hload : Flows c x s { s.load r with cur := some { b with apply := rs } } [] :=
      @Flows.load c x s _ _ s.phase (by simp [Load.rows, Load.queue, hcur, hrows])
    exact ⟨s', .head (.add hcur hrows) hs, ⟨ha.claims, ha.segs, ha.phase, ha.tasks⟩, hc, hw,
      hload.view.trans hv⟩

/-- The channel is empty and the writer waits. -/
def Load.Still (s : Load) : Prop := s.cur = none ∧ s.writes = []

/-- The writer gets through the only bundle in the channel. -/
theorem steps_write {s : Load} {b : Bundle} (hcur : s.cur = none) (hw : s.writes = [b])
    (hb : b.barrier = false) :
    ∃ s', Steps c x s s' ∧ Aside s s' ∧ s'.Still ∧ Agree s.view s'.view := by
  obtain ⟨s', hs, ha, hc, hw', hv⟩ :=
    steps_bundle (c := c) (x := x) (s := { s with cur := some b, writes := [] }) rfl hb
  have htake : Flows c x s { s with cur := some b, writes := [] } [] :=
    .idle rfl rfl (by simp [Load.queue, hcur, hw]) rfl
  exact ⟨s', .head (.take hcur hw) hs, ⟨ha.claims, ha.segs, ha.phase, ha.tasks⟩, ⟨hc, hw'⟩,
    htake.view.trans hv⟩

/-! ## One segment -/

/-- Segment `i` is at `w`, the others are where they were, and the writer waits. -/
structure Moved (i : UInt8) (w : SegWorker) (s s' : Load) : Prop where
  phase : s'.phase = .walking
  still : s'.Still
  segs : s'.segs = Function.update s.segs i w

/-- A step of a worker that sends nothing. -/
theorem steps_quiet {s : Load} {i : UInt8} {w w' : SegWorker} {claims : List Hash}
    (hphase : s.phase = .walking) (hs : s.Still) (hseg : s.segs i = w)
    (hstep : SegStep c x i (w, s.claims) none (w', claims)) :
    ∃ s', Steps c x s s' ∧ Moved i w' s s' := by
  refine ⟨_, .single (.segment hphase (by simp) (hseg ▸ hstep)), hphase, ⟨hs.1, ?_⟩, rfl⟩
  simp [hs.2]

/-- A worker sends a bundle, and the writer gets through it. -/
theorem steps_send {s : Load} {i : UInt8} {w w' : SegWorker} {claims : List Hash} {b : Bundle}
    (hphase : s.phase = .walking) (hs : s.Still) (hseg : s.segs i = w) (hb : b.barrier = false)
    (hstep : SegStep c x i (w, s.claims) (some b) (w', claims)) :
    ∃ s', Steps c x s s' ∧ Moved i w' s s' := by
  have hroom : s.writes.length < c.width * 2 := by
    have := c.width_pos
    rw [hs.2, List.length_nil]
    omega
  obtain ⟨s', hsteps, ha, hstill, -⟩ := steps_write (c := c) (x := x) (b := b)
    (s := { s with segs := Function.update s.segs i w', claims, writes := s.writes ++ [b] })
    hs.1 (by simp [hs.2]) hb
  have hfirst : Step c x s none
      { s with segs := Function.update s.segs i w', claims, writes := s.writes ++ [b] } :=
    @Step.segment c x s i (some b) w' claims hphase (fun _ => hroom) (hseg ▸ hstep)
  exact ⟨s', .head hfirst hsteps,
    ha.phase.trans hphase, hstill, ha.segs⟩

theorem Moved.trans {i : UInt8} {w w' : SegWorker} {s s' s'' : Load} (h : Moved i w s s')
    (h' : Moved i w' s' s'') : Moved i w' s s'' :=
  ⟨h'.phase, h'.still, by rw [h'.segs, h.segs, Function.update_idem]⟩

theorem Moved.at_ {i : UInt8} {w : SegWorker} {s s' : Load} (h : Moved i w s s') :
    s'.segs i = w := by rw [h.segs, Function.update_self]

/-- The leaves of a page are handled one after the other. -/
theorem steps_handle {i : UInt8} {v : Verdict} {leaves : List Leaf}
    (hx : ∀ l ∈ leaves, ∀ claims, ∃ r, handleAccount x claims l = .ok r)
    (done : List (List LoadRow)) {s : Load} (hphase : s.phase = .walking) (hs : s.Still)
    (hseg : s.segs i = .handling (done.map .rows ++ leaves.map .leaf) v) :
    ∃ rows s', Steps c x s s' ∧ Moved i (.sending rows v) s s' := by
  induction leaves generalizing done s with
  | nil =>
    rw [List.map_nil, List.append_nil] at hseg
    obtain ⟨s', hsteps, hm⟩ := steps_quiet (c := c) (x := x) hphase hs hseg .handled
    exact ⟨done, s', hsteps, hm⟩
  | cons l leaves ih =>
    rw [List.forall_mem_cons] at hx
    obtain ⟨⟨rows, claims⟩, hrows⟩ := hx.1 s.claims
    rw [List.map_cons] at hseg
    obtain ⟨s', hsteps, hm⟩ := steps_quiet (c := c) hphase hs hseg (.handle hrows)
    obtain ⟨rows', s'', hsteps', hm'⟩ := ih hx.2 (done ++ [rows]) hm.phase hm.still
      (by rw [hm.at_]; simp)
    exact ⟨rows', s'', hsteps.trans hsteps', hm.trans hm'⟩

/-- The rows of a page are sent one after the other. -/
theorem steps_rows {i : UInt8} {v : Verdict} {rows : List (List LoadRow)} {s : Load}
    (hphase : s.phase = .walking) (hs : s.Still) (hseg : s.segs i = .sending rows v) :
    ∃ s', Steps c x s s' ∧ Moved i (.sending [] v) s s' := by
  induction rows generalizing s with
  | nil =>
    exact ⟨s, .refl, hphase, hs, by rw [← hseg, Function.update_eq_self]⟩
  | cons rs rows ih =>
    obtain ⟨s', hsteps, hm⟩ := steps_send (c := c) (x := x) hphase hs hseg rfl .send
    obtain ⟨s'', hsteps', hm'⟩ := ih hm.phase hm.still hm.at_
    exact ⟨s'', hsteps.trans hsteps', hm.trans hm'⟩

theorem serves_all {t : Leaves} (ht : t.list.length ≤ leafLimit) (start : Bytes) :
    Serves t start ⟨t.since start, false⟩ where
  initial := List.prefix_rfl
  limit := (List.length_filter_le _ _).trans ht
  nonempty h := h
  more := by simp

theorem verdict_last {r : LeafsResponse} {hi : Option Bytes} (h : r.more = false) :
    verdict (truncateAt r hi).2 (truncateAt r hi).1 = .stop := by
  have hmore : (truncateAt r hi).1.more = false := by
    cases hi with
    | none => exact h
    | some e =>
      rw [truncateAt]
      split <;> exact h
  rw [verdict, hmore]
  simp

/-- No segment is started and not ended. -/
def Load.Parked (s : Load) : Prop := ∀ i, (s.segs i).busy = false

theorem beginRun_parked {db : Env} {h : Handle} {s : Load} (hbegin : beginRun c h db = .ok s) :
    s.phase = .walking ∧ s.Still ∧ s.Parked := by
  have hbusy : ∀ (bitmap : Bytes) (start : UInt8 → Option Bytes) (i : UInt8),
      (if segDone bitmap i then SegWorker.ended else .queued (start i)).busy = false := by
    intro bitmap start i
    split <;> rfl
  rw [beginRun] at hbegin
  split at hbegin
  · cases hbegin
  · dsimp only at hbegin
    split at hbegin
    · obtain rfl := Except.ok.inj hbegin
      exact ⟨rfl, ⟨rfl, rfl⟩, hbusy _ _⟩
    · split at hbegin
      · cases hbegin
      · obtain rfl := Except.ok.inj hbegin
        exact ⟨rfl, ⟨rfl, rfl⟩, hbusy _ _⟩

section Phase1

variable (hx : ∀ l ∈ (x.accounts c).list, ∀ claims, ∃ r, handleAccount x claims l = .ok r)
  (ht : (x.accounts c).list.length ≤ leafLimit)
include hx ht

/-- A started segment gets to its end. -/
theorem steps_segment {s : Load} {i : UInt8} {start : Bytes} (hphase : s.phase = .walking)
    (hs : s.Still) (hseg : s.segs i = .asking start) :
    ∃ s', Steps c x s s' ∧ Moved i .ended s s' := by
  obtain ⟨s₁, h₁, m₁⟩ := steps_quiet hphase hs hseg (.page (serves_all ht start))
  have hleaves : ∀ l ∈ (truncateAt ⟨(x.accounts c).since start, false⟩ (some (segEnd i))).1.leaves,
      ∀ claims, ∃ r, handleAccount x claims l = .ok r :=
    fun l hl => hx l (Leaves.mem_since.mp (truncateAt_subset hl)).1
  obtain ⟨rows, s₂, h₂, m₂⟩ := steps_handle hleaves [] m₁.phase m₁.still m₁.at_
  obtain ⟨s₃, h₃, m₃⟩ := steps_rows (c := c) (x := x) m₂.phase m₂.still m₂.at_
  have hseg₃ := m₃.at_
  rw [verdict_last rfl] at hseg₃
  obtain ⟨s₄, h₄, m₄⟩ := steps_quiet (c := c) (x := x) m₃.phase m₃.still hseg₃ .last
  obtain ⟨s₅, h₅, m₅⟩ := steps_send (c := c) (x := x) m₄.phase m₄.still m₄.at_ rfl .close
  exact ⟨s₅, h₁.trans (h₂.trans (h₃.trans (h₄.trans h₅))),
    m₁.trans (m₂.trans (m₃.trans (m₄.trans m₅)))⟩

theorem steps_segments (is : List UInt8) {s : Load} (hphase : s.phase = .walking) (hs : s.Still)
    (hp : s.Parked) :
    ∃ s', Steps c x s s' ∧ s'.phase = .walking ∧ s'.Still ∧ s'.Parked ∧
      (∀ i, s.segs i = .ended → s'.segs i = .ended) ∧ ∀ i ∈ is, s'.segs i = .ended := by
  induction is generalizing s with
  | nil => exact ⟨s, .refl, hphase, hs, hp, fun _ h => h, fun i hi => by simp at hi⟩
  | cons i is ih =>
    -- the segment is brought to its end, if it is not there
    obtain ⟨s₁, h₁, m₁⟩ : ∃ s₁, Steps c x s s₁ ∧ Moved i .ended s s₁ := by
      cases hseg : s.segs i with
      | ended => exact ⟨s, .refl, hphase, hs, by rw [← hseg, Function.update_eq_self]⟩
      | queued start =>
        have hbusy : s.busySegs < c.width := by
          have hzero : s.busySegs = 0 := List.countP_eq_zero.mpr fun j _ => by simp [hp j]
          rw [hzero]
          exact c.width_pos
        obtain ⟨s₁, h₁, m₁⟩ := steps_segment hx ht
          (s := { s with segs := Function.update s.segs i (.asking (start.getD (segStart i))) })
          hphase hs (Function.update_self i _ _)
        exact ⟨s₁, .head (.spawn hphase hseg hbusy) h₁, m₁.phase, m₁.still, by
          rw [m₁.segs, Function.update_idem]⟩
      | _ =>
        have := hp i
        rw [hseg] at this
        cases this
    have hp₁ : s₁.Parked := by
      intro j
      rw [m₁.segs]
      by_cases hj : j = i
      · subst hj
        rw [Function.update_self]
        rfl
      · rw [Function.update_of_ne hj]
        exact hp j
    have hkeep : ∀ j, s.segs j = .ended → s₁.segs j = .ended := by
      intro j hj
      rw [m₁.segs]
      by_cases hji : j = i
      · rw [hji, Function.update_self]
      · rw [Function.update_of_ne hji, hj]
    obtain ⟨s₂, h₂, hphase₂, hs₂, hp₂, hkeep₂, hall⟩ := ih m₁.phase m₁.still hp₁
    refine ⟨s₂, h₁.trans h₂, hphase₂, hs₂, hp₂, fun j hj => hkeep₂ j (hkeep j hj), ?_⟩
    rw [List.forall_mem_cons]
    exact ⟨hkeep₂ i m₁.at_, hall⟩

/-- A run that begins has a schedule that ends phase 1. -/
theorem beginRun_walk {db : Env} {h : Handle} {s : Load} (hbegin : beginRun c h db = .ok s) :
    ∃ s', Path c x s [.walked] s' ∧ s'.phase = .scanning none ∧ s'.Still ∧ s'.bl.ops = [] := by
  have hstart := beginRun_parked hbegin
  obtain ⟨s₁, h₁, hphase, hs, -, -, hall⟩ :=
    steps_segments hx ht segments hstart.1 hstart.2.1 hstart.2.2
  have hended : ∀ i, s₁.segs i = .ended := fun i =>
    hall i (List.mem_map.mpr ⟨i.toNat, List.mem_range.mpr i.toNat_lt, by simp⟩)
  have hroom : s₁.writes.length < c.width * 2 := by
    have := c.width_pos
    rw [hs.2, List.length_nil]
    omega
  have hsteps : Steps c x s { s₁ with
      phase := .fencing, cur := some { apply := [], barrier := true }, writes := [] } :=
    ((h₁.tail (.walked hphase hended)).tail (.fence rfl hroom)).tail (.take hs.1 (by simp [hs.2]))
  refine ⟨_, (Path.refl.steps hsteps).tail (.fenced rfl rfl rfl rfl), rfl, ⟨rfl, rfl⟩, ?_⟩
  rw [Load.flush_eq]

end Phase1

end Flatstate.Sync
