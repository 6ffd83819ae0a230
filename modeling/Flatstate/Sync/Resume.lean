import Flatstate.Sync.Accounts
import Flatstate.Sync.Drive

set_option autoImplicit false

/-!
# Sync: resuming the account phase

The invariant of a run, from its first worker to the last commit, and what is left of it in
the store when the run is cut off.
-/

namespace Flatstate.Sync

open Foundation Schema Store

/-- The account trie is walked and committed. -/
def Phase.past : Phase → Bool
  | .walking | .fence | .fencing => false
  | _ => true

section

variable (c : Config) (x : Chain)

/-- Phase 2 starts behind a barrier, which is the last bundle of phase 1. -/
structure PhaseInv (es : List Event) (s : Load) : Prop where
  ended : s.phase ≠ .walking → ∀ i, s.segs i = .ended
  calm : s.phase ≠ .fencing → ∀ b ∈ s.queue, b.barrier = false
  fence : s.phase = .fencing → ∃ q b, s.queue = q ++ [b] ∧ b.apply = [] ∧ b.barrier = true ∧
    ∀ b' ∈ q, b'.barrier = false
  past : s.phase.past = true → Event.walked ∈ es
  walked : Event.walked ∈ es → ∀ l ∈ (x.accounts c).list, Stored c x s.db l

/-- The invariant of a run. -/
structure AccInv (es : List Event) (s : Load) : Prop where
  flow : Flow c x (Ordered c x es) s
  segs : ∀ i, SegInv c x i s.view (s.segs i)
  bits : BitInv c x s
  phase : PhaseInv c x es s
  queue : QueueInv c x s

/-- What a run leaves behind wherever it is cut off. -/
structure IdleInv (es : List Event) (db : Env) : Prop where
  laid : Laid db
  exact : Exact c x db
  ordered : Ordered c x es db
  stored : ∀ p, row db .baselineProgress = some p →
    p.length = 32 ∧ ∀ i, segDone p i = true → Covers c x i db
  walked : Event.walked ∈ es → ∀ l ∈ (x.accounts c).list, Stored c x db l

end

variable {c : Config} {x : Chain} {es : List Event} {s s' : Load} {ev : Option Event}

theorem AccInv.idle (h : AccInv c x es s) : IdleInv c x es s.db :=
  ⟨h.flow.laid, h.flow.exact, h.flow.now, h.bits.stored, h.phase.walked⟩

/-! ## What a step emits -/

theorem mem_sweepRows {missing : List Hash} {rows : List LoadRow}
    (h : sweepRows x missing = .ok rows) {r : LoadRow} (hr : r ∈ rows) :
    ∃ hash blob, r = .code hash blob ∧ x.code hash = some blob := by
  obtain ⟨hash, -, hrow⟩ := exists_of_mem_right (forall₂_of_mapM h) hr
  cases hblob : x.code hash with
  | none => rw [hblob] at hrow; cases hrow
  | some blob =>
    rw [hblob] at hrow
    exact ⟨hash, blob, (Except.ok.inj hrow).symm, hblob⟩

/-- Rows that the order of accounts does not depend on. -/
theorem Ordered.along_quiet {e : Env} {rows : List LoadRow} (h : Ordered c x es e)
    (hrows : ∀ r ∈ rows, (∃ hash blob, r = .code hash blob) ∨ ∃ a k v, r = .baseSlot a k v) :
    Along BlOp.run (Ordered c x es) e (rows.map (LoadRow.op c.height)) := by
  refine Along.of_keeps (G := fun op => ∃ r : LoadRow, op = r.op c.height ∧
    ((∃ hash blob, r = .code hash blob) ∨ ∃ a k v, r = .baseSlot a k v)) h ?_ ?_
  · intro op hop
    obtain ⟨r, hr, rfl⟩ := List.mem_map.mp hop
    exact ⟨r, rfl, hrows r hr⟩
  · rintro e op ⟨r, rfl, ⟨hash, blob, rfl⟩ | ⟨a, k, v, rfl⟩⟩ he
    · exact he.quiet (by simp [LoadRow.target]) (by simp [LoadRow.target])
    · exact he.quiet (by simp [LoadRow.target]) (by simp [LoadRow.target])

/-- Every appended row is genuine, and the order of accounts holds along all of them. -/
theorem AccInv.emits (h : AccInv c x es s) {rows : List LoadRow} (hem : Emits c x s ev rows) :
    (∀ r ∈ rows, Genuine c x r) ∧
      Along BlOp.run (Ordered c x (es ++ ev.toList)) s.view (rows.map (LoadRow.op c.height)) := by
  have hview : Ordered c x (es ++ ev.toList) s.view :=
    h.flow.at_view.mono (fun ev' hev => by simp [hev])
  cases hem with
  | nothing => exact ⟨fun r hr => by simp at hr, hview⟩
  | @segment i b w claims hphase hstep =>
    obtain ⟨-, ⟨-, rows, v, hw⟩ | ⟨-, hnil, -⟩⟩ := hstep.sends
    · have hseg := h.segs i
      rw [hw] at hseg
      obtain ⟨l, hrows, hl, hbelow⟩ := hseg.sends
      refine ⟨hrows.genuine hl.1, hrows.along hl.1 hview ?_ ?_ ?_⟩
      · exact fun e hash blob _ he => he.quiet (by simp [LoadRow.target]) (by simp [LoadRow.target])
      · exact fun e a root hgen he => he.queue hgen
      · intro e acc hacc hkeep hqueue he
        refine he.account hl.1 hacc (fun j l' hl₁ hl' hlt => hkeep l' hl'.1 ?_) hqueue
        obtain rfl : j = i := Option.some.inj (hl₁.2.symm.trans hl.2)
        exact hbelow l' hl' hlt
    · rw [hnil]
      exact ⟨fun r hr => by simp at hr, hview⟩
  | @work t b st ht hstep =>
    obtain ⟨hq, htask⟩ := h.queue.tasks t ht
    obtain ⟨-, -, hslots | ⟨hdeq, rfl⟩⟩ := htask.sends hstep
    · refine ⟨fun r hr => (hslots r hr).1, hview.along_quiet fun r hr => ?_⟩
      obtain ⟨k, v, rfl⟩ := (hslots r hr).2
      exact Or.inr ⟨_, k, v, rfl⟩
    · rw [hdeq]
      obtain ⟨acc, hacc, hst, -⟩ := hq
      refine ⟨fun r hr => ?_, hview, hview.dequeue (by simp)⟩
      obtain rfl : r = _ := by simpa using hr
      exact ⟨acc, hacc, hst⟩
  | sweep hrows =>
    refine ⟨fun r hr => ?_, hview.along_quiet fun r hr => ?_⟩
    · obtain ⟨hash, blob, rfl, hblob⟩ := mem_sweepRows hrows hr
      exact hblob
    · obtain ⟨hash, blob, rfl, -⟩ := mem_sweepRows hrows hr
      exact Or.inl ⟨hash, blob, rfl⟩

/-! ## One step -/

section Step

variable {rows : List LoadRow}

/-- What is in the view stays there. -/
theorem AccInv.keep (hfl : Flows c x s s' rows) (hgen : ∀ r ∈ rows, Genuine c x r) {l : Leaf}
    (hl : l ∈ (x.accounts c).list) (hs : Stored c x s.view l) : Stored c x s'.view l := by
  refine (hs.foldl hl fun op hop => ?_).agree hl hfl.view
  obtain ⟨r, hr, rfl⟩ := List.mem_map.mp hop
  exact ⟨r, hgen r hr, rfl⟩

/-- What is committed stays committed. -/
theorem AccInv.keep_db (h : AccInv c x es s) (hfl : Flows c x s s' rows) {l : Leaf}
    (hl : l ∈ (x.accounts c).list) (hs : Stored c x s.db l) : Stored c x s'.db l := by
  obtain ⟨acc, hacc, hhas⟩ := hs
  exact ⟨acc, hacc, hfl.grows h.flow.genuine _ (genuine_account hl hacc) rfl hhas⟩

theorem AccInv.segs_step (h : AccInv c x es s) (hstep : Step c x s ev s')
    (hkeep : ∀ l ∈ (x.accounts c).list, Stored c x s.view l → Stored c x s'.view l) :
    ∀ i, SegInv c x i s'.view (s'.segs i) := by
  have hold : ∀ i, SegInv c x i s'.view (s.segs i) :=
    fun i => (h.segs i).mono (fun l hl => hkeep l hl.1)
  cases hstep with
  | @spawn i start hphase hseg hlimit =>
    have hi := hold i
    rw [hseg] at hi
    exact (Function.forall_update_iff s.segs _).mpr ⟨hi, fun j _ => hold j⟩
  | @segment i out w claims hphase hroom hstep =>
    refine (Function.forall_update_iff s.segs _).mpr ⟨?_, fun j _ => hold j⟩
    refine (h.segs i).step hstep ?_ (fun l hl => hkeep l hl.1)
    rintro b l rfl hl hrows
    have hfl : Flows c x s { s with
        segs := Function.update s.segs i w
        claims := claims
        writes := s.writes ++ [b] } b.apply :=
      .emit h.flow.height rfl rfl (s.rows_send b (by rw [hphase]; rfl))
    exact hrows.stored.agree hl.1 hfl.view
  | @applied b _ _ _ =>
    have hsegs : (s.mark b.final).segs = s.segs := by cases b.final <;> rfl
    rw [hsegs]
    exact hold
  | @fenced b _ _ _ _ =>
    have hsegs : ((s.mark b.final).flush).segs = s.segs := by cases b.final <;> rfl
    rw [hsegs]
    exact hold
  | _ => exact hold

theorem Load.view_eq (s : Load) (hs : s.bl.s = c.height) (hphase : s.phase.rows = []) :
    s.view = ((s.queue.flatMap Bundle.apply).map (LoadRow.op c.height)).foldl BlOp.run s.buffered := by
  rw [Load.view, Load.ops, Load.rows, hphase, List.append_nil, List.foldl_append, hs]
  rfl

theorem AccInv.bits_step (h : AccInv c x es s) (hstep : Step c x s ev s') : BitInv c x s' := by
  have hidle : ∀ {t : Load}, t.bl = s.bl → t.db = s.db → t.bitmap = s.bitmap →
      t.queue = s.queue → BitInv c x t :=
    fun hbl hdb hmap hq => h.bits.of_queue hbl hdb hmap (hq ▸ h.bits.finals)
  -- a bundle that is not final
  have hsend : ∀ {t : Load} {b : Bundle}, b.final = none → t.bl = s.bl → t.db = s.db →
      t.bitmap = s.bitmap → t.queue = s.queue ++ [b] → BitInv c x t := by
    intro t b hb hbl hdb hmap hq
    refine h.bits.of_queue hbl hdb hmap (hq ▸ finals_send h.bits.finals fun i hi => ?_)
    rw [hb] at hi
    cases hi
  cases hstep with
  | @segment i out w claims hphase hroom hstep =>
    cases out with
    | none => exact hidle rfl rfl rfl (by simp [Load.queue])
    | some b =>
      obtain ⟨-, ⟨hb, -⟩ | ⟨hb, hnil, hw⟩⟩ := hstep.sends
      · exact hsend hb rfl rfl rfl (by simp [Load.queue])
      · have hcov := h.segs i
        rw [hw] at hcov
        refine h.bits.of_queue rfl rfl rfl ?_
        have hq : s.cur.toList ++ (s.writes ++ [b]) = s.queue ++ [b] := by simp [Load.queue]
        rw [Load.queue, Option.toList_some, hq]
        refine finals_send h.bits.finals fun j hj => ?_
        obtain rfl : i = j := Option.some.inj (hb.symm.trans hj)
        rw [hnil, List.append_nil,
          ← Load.view_eq s h.flow.height (by rw [hphase]; rfl)]
        exact hcov
  | take hcur hwrites => exact hidle rfl rfl rfl (by simp [Load.queue, hcur, hwrites])
  | @add b r rs hcur hrows =>
    refine @BitInv.load c x s h.bits h.flow.height h.flow.genuine r _ s.phase
      (by simp [Load.rows, Load.queue, hcur, hrows]) ?_
    have hfin := h.bits.finals
    rw [Load.queue, hcur, Option.toList_some, List.singleton_append, Finals, hrows] at hfin
    exact hfin
  | applied hcur hrows hbarrier => exact h.bits.applied hcur hrows
  | @fenced b hphase hcur hrows hbarrier =>
    have hfl := Flows.applied (c := c) (x := x) hcur hrows
    have hbits := (h.bits.applied hcur hrows).flush
      (hfl.keeps h.flow.genuine (fun r hr => by simp at hr))
    exact hbits.of_queue rfl rfl rfl hbits.finals
  | fence hphase hroom =>
    exact hsend (b := { apply := [], barrier := true }) rfl rfl rfl rfl (by simp [Load.queue])
  | @work before after t out ev st hphase htasks hroom hstep =>
    cases out with
    | none => exact hidle rfl rfl rfl (by simp [Load.queue])
    | some b =>
      obtain ⟨hb, -, -⟩ := (h.queue.tasks t (by simp [htasks])).2.sends hstep
      exact hsend hb rfl rfl rfl (by simp [Load.queue])
  | sweep hphase hcur hwrites hmissing hrows =>
    have hbits := h.bits.flush h.flow.genuine
    exact hbits.of_queue rfl rfl rfl hbits.finals
  | swept hphase hcur hwrites =>
    refine @BitInv.load c x s h.bits h.flow.height h.flow.genuine _ s.cur _
      (by simp [Load.rows, Load.queue, hcur, hwrites, hphase, Phase.rows]) ?_
    rw [hcur, hwrites]
    trivial
  | finish hphase hfinish =>
    obtain ⟨rfl, -, rfl⟩ := Baseline.finish_ok hfinish
    have hag : Agree s.buffered
        ((s.buffered.del metaBaselineProgress).put metaBaselineComplete [1]) :=
      (Agree.del_meta _ (r := .baselineProgress) rfl).trans
        (Agree.put_meta _ (r := .baselineComplete) rfl [1])
    refine ⟨h.bits.width, h.bits.finals.agree hag, fun i hi => (h.bits.bits i hi).agree hag,
      fun p hp => (by cases hp), fun p hp => ?_⟩
    have hnone : row ((s.buffered.del metaBaselineProgress).put metaBaselineComplete [1])
        .baselineProgress = none :=
      (row_put_of_ne (r := .baselineComplete) _ [1] (by simp)).trans
        ((row_del s.buffered .baselineProgress .baselineProgress).trans (if_pos rfl))
    exact absurd (hnone.symm.trans hp) (by simp)
  | _ => exact hidle rfl rfl rfl rfl

theorem AccInv.queue_step (h : AccInv c x es s) (hstep : Step c x s ev s') : QueueInv c x s' := by
  cases hstep with
  | @applied b _ _ _ =>
    have hmark : (s.mark b.final).tasks = s.tasks ∧ (s.mark b.final).phase = s.phase := by
      cases b.final <;> exact ⟨rfl, rfl⟩
    refine ⟨fun rows last hp => h.queue.left rows last (hmark.2 ▸ hp), fun t ht => ?_⟩
    exact h.queue.tasks t (hmark.1 ▸ ht)
  | @fenced b _ _ _ _ =>
    have hmark : (s.mark b.final).tasks = s.tasks := by cases b.final <;> rfl
    exact ⟨fun rows last hp => (by cases hp), fun t ht => h.queue.tasks t (hmark ▸ ht)⟩
  | @scan after rows hne hphase hscan =>
    refine ⟨fun rows' last hp => ?_, h.queue.tasks⟩
    obtain ⟨rfl, -⟩ := Phase.spawning.inj hp
    rintro ⟨a, root⟩ hrow
    -- a queue row of an exact store is that of an account with storage
    obtain ⟨r, hr, ht, hval⟩ := h.flow.exact (.storageQueue a) root.1 (by rw [Row.space]; decide)
      (storageQueueAfter_mem hscan hrow)
    cases r with
    | queueStorage a' root' =>
      obtain rfl := Row.storageQueue.inj ht
      obtain ⟨acc, hacc, hst, rfl⟩ := hr
      exact ⟨acc, hacc, hst, (Subtype.ext (Option.some.inj hval)).symm⟩
    | dequeueStorage a' => cases hval
    | _ => cases ht
  | @task row left last hphase hlimit =>
    have hleft := h.queue.left _ _ hphase
    refine ⟨fun rows last' hp => ?_, fun t ht => ?_⟩
    · obtain ⟨rfl, -⟩ := Phase.spawning.inj hp
      exact fun row' hrow => hleft row' (by simp [hrow])
    · rcases List.mem_append.mp ht with ht | ht
      · exact h.queue.tasks t ht
      · obtain rfl : t = _ := by simpa using ht
        exact ⟨hleft row (by simp), trivial⟩
  | @work before after t out ev st hphase htasks hroom hstep =>
    refine ⟨h.queue.left, fun t' ht' => ?_⟩
    have ht := h.queue.tasks t (by simp [htasks])
    rcases List.mem_append.mp ht' with hin | hin
    · exact h.queue.tasks t' (by simp [htasks, hin])
    · rcases List.mem_cons.mp hin with rfl | hin
      · exact ⟨ht.1, ht.2.step ht.1 hstep⟩
      · exact h.queue.tasks t' (by simp [htasks, hin])
  | add hcur hrows => exact ⟨h.queue.left, h.queue.tasks⟩
  | _ =>
    refine ⟨fun rows last hp => ?_, h.queue.tasks⟩
    first
      | exact h.queue.left rows last hp
      | cases hp

/-- The barrier is alone when the writer gets to it. -/
theorem PhaseInv.alone (h : PhaseInv c x es s) (hphase : s.phase = .fencing) {b : Bundle}
    (hcur : s.cur = some b) (hbarrier : b.barrier = true) : s.writes = [] := by
  obtain ⟨q, b', hq, -, -, hcalm⟩ := h.fence hphase
  rw [Load.queue, hcur, Option.toList_some, List.singleton_append] at hq
  cases q with
  | nil => exact (List.cons.inj hq).2
  | cons b'' q =>
    obtain rfl := (List.cons.inj hq).1
    rw [hcalm b (by simp)] at hbarrier
    cases hbarrier

/-- Once phase 1 is over it stays over. -/
theorem PhaseInv.settled {es' : List Event} (h : PhaseInv c x es s) (hp : s.phase.past = true)
    (hp' : s'.phase.past = true) (hsegs : s'.segs = s.segs)
    (hq : ∀ b ∈ s'.queue, b.barrier = false) (hes : ∀ ev ∈ es, ev ∈ es')
    (hdb : ∀ l ∈ (x.accounts c).list, Stored c x s.db l → Stored c x s'.db l) :
    PhaseInv c x es' s' where
  ended _ i := by
    rw [hsegs]
    refine h.ended (fun hw => ?_) i
    rw [hw] at hp
    cases hp
  calm _ := hq
  fence hf := by
    rw [hf] at hp'
    cases hp'
  past _ := hes _ (h.past hp)
  walked _ l hl := hdb l hl (h.walked (h.past hp) l hl)

/-- The writer, in any phase: what it has done with a bundle does not make it a barrier. -/
theorem PhaseInv.queue_step (h : PhaseInv c x es s) (hphase : s'.phase = s.phase)
    (hsegs : s'.segs = s.segs)
    (hcalm : (∀ b ∈ s.queue, b.barrier = false) → ∀ b ∈ s'.queue, b.barrier = false)
    (hfence : ∀ q b, s.queue = q ++ [b] → b.apply = [] → b.barrier = true →
      (∀ b' ∈ q, b'.barrier = false) →
      ∃ q', s'.queue = q' ++ [b] ∧ ∀ b' ∈ q', b'.barrier = false)
    (hdb : ∀ l ∈ (x.accounts c).list, Stored c x s.db l → Stored c x s'.db l) :
    PhaseInv c x es s' where
  ended hp := by
    rw [hsegs]
    exact h.ended (hphase ▸ hp)
  calm hp := hcalm (h.calm (hphase ▸ hp))
  fence hp := by
    obtain ⟨q, b, hq, hnil, hb, hall⟩ := h.fence (hphase ▸ hp)
    obtain ⟨q', hq', hall'⟩ := hfence q b hq hnil hb hall
    exact ⟨q', b, hq', hnil, hb, hall'⟩
  past hp := h.past (hphase ▸ hp)
  walked hw l hl := hdb l hl (h.walked hw l hl)

/-- When the writer flushes at the barrier, the whole account trie is committed. -/
theorem AccInv.fenced (h : AccInv c x es s) (hphase : s.phase = .fencing) {b : Bundle}
    (hcur : s.cur = some b) (hrows : b.apply = []) (hbarrier : b.barrier = true) :
    ∀ l ∈ (x.accounts c).list, Stored c x (s.mark b.final).flush.db l := by
  intro l hl
  have hwrites := h.phase.alone hphase hcur hbarrier
  obtain ⟨i, hi⟩ : ∃ i, l.1.head? = some i := by
    have hlen := (x.accounts c).width l hl
    cases hk : l.1 with
    | nil => rw [hk] at hlen; cases hlen
    | cons i k => exact ⟨i, rfl⟩
  have hcov := h.segs i
  rw [h.phase.ended (by rw [hphase]; simp) i] at hcov
  have hview : s.view = s.buffered := by
    rw [Load.view_eq s h.flow.height (by rw [hphase]; rfl)]
    simp [Load.queue, hcur, hwrites, hrows]
  have hdb : Agree s.buffered (s.mark b.final).flush.db := by
    rw [Load.db_flush]
    cases b.final with
    | none => exact Agree.flushed s.bl s.db
    | some j => exact Agree.flushed (s.bl.setProgress (markSeg s.bitmap j)) s.db
  exact (hview ▸ hcov l ⟨hl, hi⟩).agree hl hdb

theorem AccInv.phase_step (h : AccInv c x es s) (hstep : Step c x s ev s')
    (hdb : ∀ l ∈ (x.accounts c).list, Stored c x s.db l → Stored c x s'.db l) :
    PhaseInv c x (es ++ ev.toList) s' := by
  have hes : ∀ ev' ∈ es, ev' ∈ es ++ ev.toList := fun ev' hev => by simp [hev]
  have hph := h.phase
  cases hstep with
  | spawn hphase hseg hlimit =>
    rw [Option.toList_none, List.append_nil]
    exact ⟨fun hp => absurd hphase hp, hph.calm, hph.fence, hph.past, fun hw l hl => hph.walked hw l hl⟩
  | @segment i out w claims hphase hroom hstep =>
    rw [Option.toList_none, List.append_nil]
    refine ⟨fun hp => absurd hphase hp, fun hp b hb => ?_, fun hp => ?_, hph.past, hph.walked⟩
    · rw [Load.queue, ← List.append_assoc, List.mem_append] at hb
      rcases hb with hb | hb
      · exact hph.calm (by rw [hphase]; simp) b hb
      · cases out with
        | none => simp at hb
        | some b' =>
          obtain rfl : b = b' := by simpa using hb
          exact hstep.sends.1
    · cases hphase.symm.trans hp
  | @take b rest hcur hwrites =>
    rw [Option.toList_none, List.append_nil]
    have hq : s.queue = b :: rest := by simp [Load.queue, hcur, hwrites]
    refine hph.queue_step rfl rfl (fun hall => ?_) (fun q b' hqb _ _ hall => ⟨q, ?_, hall⟩) hdb
    · rw [hq] at hall
      exact hall
    · rw [hq] at hqb
      exact hqb
  | @add b r rs hcur hrows =>
    rw [Option.toList_none, List.append_nil]
    have hq : s.queue = b :: s.writes := by rw [Load.queue, hcur]; rfl
    refine hph.queue_step rfl rfl (fun hall => ?_) (fun q b' hqb hnil _ hall => ?_) hdb
    · rw [hq, List.forall_mem_cons] at hall
      exact List.forall_mem_cons.mpr hall
    · rw [hq] at hqb
      cases q with
      | nil =>
        obtain rfl := (List.cons.inj hqb).1
        rw [hrows] at hnil
        cases hnil
      | cons b'' q =>
        obtain ⟨rfl, hrest⟩ := List.cons.inj hqb
        rw [List.forall_mem_cons] at hall
        exact ⟨{ b with apply := rs } :: q, congrArg (List.cons _) hrest, List.forall_mem_cons.mpr hall⟩
  | @applied b hcur hrows hbarrier =>
    rw [Option.toList_none, List.append_nil]
    have hq : s.queue = b :: s.writes := by rw [Load.queue, hcur]; rfl
    have hmark : (s.mark b.final).phase = s.phase ∧ (s.mark b.final).segs = s.segs ∧
        (s.mark b.final).writes = s.writes := by cases b.final <;> exact ⟨rfl, rfl, rfl⟩
    refine hph.queue_step hmark.1 hmark.2.1 (fun hall => ?_) (fun q b' hqb _ hb hall => ?_) hdb
    · rw [hq, List.forall_mem_cons] at hall
      rw [Load.queue]
      dsimp only
      rw [hmark.2.2]
      exact hall.2
    · rw [hq] at hqb
      rw [Load.queue]
      dsimp only
      rw [hmark.2.2]
      cases q with
      | nil =>
        obtain rfl := (List.cons.inj hqb).1
        rw [hbarrier] at hb
        cases hb
      | cons b'' q => exact ⟨q, (List.cons.inj hqb).2, fun b₁ hb₁ => hall b₁ (by simp [hb₁])⟩
  | @fenced b hphase hcur hrows hbarrier =>
    have hsegs : ((s.mark b.final).flush).segs = s.segs := by cases b.final <;> rfl
    have hwrites : ((s.mark b.final).flush).writes = [] := by
      rw [← hph.alone hphase hcur hbarrier]
      cases b.final <;> rfl
    refine ⟨fun _ i => ?_, fun _ b' hb' => ?_, fun hp => (by cases hp), fun _ => by simp,
      fun _ l hl => h.fenced hphase hcur hrows hbarrier l hl⟩
    · rw [hsegs]
      exact hph.ended (by rw [hphase]; simp) i
    · rw [Load.queue] at hb'
      dsimp only at hb'
      rw [hwrites] at hb'
      simp at hb'
  | walked hphase hall =>
    rw [Option.toList_none, List.append_nil]
    exact ⟨fun _ => hall, fun _ => hph.calm (by rw [hphase]; simp), fun hp => (by cases hp),
      fun hp => (by cases hp), hph.walked⟩
  | fence hphase hroom =>
    rw [Option.toList_none, List.append_nil]
    refine ⟨fun _ => hph.ended (by rw [hphase]; simp), fun hp => absurd rfl hp, fun _ => ?_,
      fun hp => (by cases hp), hph.walked⟩
    exact ⟨s.queue, { apply := [], barrier := true }, by simp [Load.queue], rfl, rfl,
      hph.calm (by rw [hphase]; simp)⟩
  | scanned hphase _ | scan _ hphase _ | task hphase _ | batch hphase | drained hphase _
  | sweep hphase _ _ _ _ | swept hphase _ _ | finish hphase _ =>
    exact hph.settled (by rw [hphase]; rfl) rfl rfl (hph.calm (by rw [hphase]; simp)) hes hdb
  | @work before after t out ev st hphase htasks hroom hstep =>
    have hpast : s.phase.past = true ∧ s.phase ≠ .fencing := by
      cases hp : s.phase <;> rw [hp] at hphase <;> first | exact ⟨rfl, by simp⟩ | cases hphase
    refine hph.settled hpast.1 hpast.1 rfl (fun b hb => ?_) hes hdb
    rw [Load.queue, ← List.append_assoc, List.mem_append] at hb
    rcases hb with hb | hb
    · exact hph.calm hpast.2 b hb
    · cases out with
      | none => simp at hb
      | some b' =>
        obtain rfl : b = b' := by simpa using hb
        exact ((h.queue.tasks t (by simp [htasks])).2.sends hstep).2.1

theorem AccInv.step (h : AccInv c x es s) (hstep : Step c x s ev s') :
    AccInv c x (es ++ ev.toList) s' := by
  obtain ⟨rows, hem, hfl⟩ := hstep.flows h.flow.height
  obtain ⟨hgen, halong⟩ := h.emits hem
  exact {
    flow := hfl.flow _ (Ordered.unmeta _)
      (h.flow.imp fun e he => he.mono fun ev' hev => by simp [hev]) hgen halong
    segs := h.segs_step hstep fun l hl hs => AccInv.keep hfl hgen hl hs
    bits := h.bits_step hstep
    phase := h.phase_step hstep fun l hl hs => h.keep_db hfl hl hs
    queue := h.queue_step hstep }

end Step

/-! ## Beginning a run -/

/-- Setting the genesis height changes nothing else. -/
theorem IdleInv.genesis {db : Env} (h : IdleInv c x es db) (v : Bytes) :
    IdleInv c x es (db.put (Row.key .genesis) v) := by
  have hag : Agree db (db.put (Row.key .genesis) v) := Agree.put_meta db (r := .genesis) rfl v
  refine ⟨h.laid.put .genesis v, h.exact.agree hag, Ordered.unmeta es _ _ hag h.ordered,
    fun p hp => ?_, fun hw l hl => (h.walked hw l hl).agree hl hag⟩
  obtain ⟨hlen, hcov⟩ := h.stored p ((row_put_of_ne (r := .genesis) db v (by simp)).symm.trans hp)
  exact ⟨hlen, fun i hi => (hcov i hi).agree hag⟩

/-- The greatest committed account of a segment is a safe place to resume after. -/
theorem IdleInv.resume {db : Env} (h : IdleInv c x es db) (i : UInt8) :
    SegInv c x i db (.queued ((maxBaseAccountWithPrefix db i).bind fun a => incKey a.1)) := by
  have hlow : ∀ l, InSeg c x i l → segStart i ≤ l.1 :=
    fun l hl => ((segStart_le_iff ((x.accounts c).width l hl.1)).mpr hl.2).1
  have hnone : SegInv c x i db (.queued none) :=
    ⟨le_refl _, .resume fun l hl hlt => absurd hlt (not_lt.mpr (hlow l hl))⟩
  cases hmax : maxBaseAccountWithPrefix db i with
  | none => exact hnone
  | some a =>
    rw [Option.bind_some]
    cases hinc : incKey a.1 with
    | none => exact hnone
    | some k =>
      obtain ⟨hrow, hhead⟩ := maxBaseAccountWithPrefix_eq_some hmax
      obtain ⟨v, hv⟩ := Option.ne_none_iff_exists'.mp hrow
      -- the row is that of a leaf of the segment
      obtain ⟨r, hr, ht, -⟩ := h.exact (.baseAccount a) v (by rw [Row.space]; decide) hv
      obtain ⟨l₀, hl₀, rfl⟩ : ∃ l ∈ (x.accounts c).list, bytesToHash l.1 = a := by
        cases r with
        | baseAccount a' row =>
          obtain rfl := Row.baseAccount.inj ht
          obtain ⟨acc, ⟨l, hl, ha, -⟩, -⟩ := hr
          exact ⟨l, hl, ha⟩
        | _ => cases ht
      have hwidth := (x.accounts c).width l₀ hl₀
      rw [bytesToHash_of_length hwidth] at hinc hhead
      have hstored := h.exact.stored hl₀ hrow
      refine ⟨(hlow l₀ ⟨hl₀, hhead⟩).trans (lt_incKey hinc).le, .resume fun l hl hlt => ?_⟩
      rcases lt_trichotomy l.1 l₀.1 with hlt' | heq | hgt
      · exact h.ordered.closed i l l₀ hl ⟨hl₀, hhead⟩ hlt' hstored
      · rw [(x.accounts c).eq_of_key hl.1 hl₀ heq]
        exact hstored
      · exact absurd hlt (not_lt.mpr (incKey_le hinc
          (((x.accounts c).width l hl.1).trans hwidth.symm) hgt))

theorem segDone_zeros (i : UInt8) : segDone (List.replicate 32 0) i = false := by
  rw [segDone, decide_eq_false_iff_not, not_not, List.getD_eq_getElem?_getD]
  have hzero : (List.replicate 32 (0 : UInt8))[i.toNat / 8]?.getD 0 = 0 := by
    rw [List.getElem?_replicate]
    split <;> rfl
  rw [hzero]
  exact UInt8.zero_and

/-- A run begins where the last one was cut off. -/
theorem IdleInv.begin_ {db : Env} {h : Handle} (hi : IdleInv c x es db)
    (hbegin : beginRun c h db = .ok s) : AccInv c x es s := by
  rw [beginRun] at hbegin
  cases hnew : newBaseline h db c.height with
  | error e => rw [hnew] at hbegin; cases hbegin
  | ok r =>
    obtain ⟨bl, db', h'⟩ := r
    obtain ⟨rfl, hdb, -⟩ := newBaseline_ok hnew
    have hi' : IdleInv c x es db' := by
      rcases hdb with rfl | rfl
      · exact hi
      · exact hi.genesis _
    rw [hnew] at hbegin
    dsimp only at hbegin
    -- both cases, for a bitmap that says the truth
    have hgo : ∀ bitmap : Bytes, bitmap.length = 32 →
        (∀ i, segDone bitmap i = true → Covers c x i db') →
        AccInv c x es
          { db := db', bl := ⟨c.height, [], none⟩, bitmap, cur := none, writes := [], claims := []
            segs := fun i =>
              if segDone bitmap i then .ended
              else .queued ((maxBaseAccountWithPrefix db' i).bind fun h => incKey h.1)
            phase := .walking, tasks := [] } := by
      intro bitmap hlen hcov
      refine ⟨⟨rfl, hi'.laid, hi'.exact, fun op hop => (by cases hop), hi'.ordered⟩, fun i => ?_,
        ⟨hlen, trivial, hcov, fun p hp => (by cases hp), hi'.stored⟩,
        ⟨fun hp => absurd rfl hp, fun _ b hb => (by cases hb), fun hp => (by cases hp),
          fun hp => (by cases hp), hi'.walked⟩,
        ⟨fun rows last hp => (by cases hp), fun t ht => (by cases ht)⟩⟩
      dsimp only
      split
      · rename_i hdone
        exact hcov i hdone
      · exact hi'.resume i
    cases hprog : db'.get metaBaselineProgress with
    | none =>
      rw [hprog] at hbegin
      rw [← Except.ok.inj hbegin]
      exact hgo _ List.length_replicate fun i hi => by rw [segDone_zeros] at hi; cases hi
    | some prog =>
      rw [hprog] at hbegin
      dsimp only at hbegin
      split at hbegin
      · cases hbegin
      · rw [← Except.ok.inj hbegin]
        exact hgo prog (hi'.stored prog hprog).1 (hi'.stored prog hprog).2

theorem IdleInv.fresh : IdleInv c x [] OrdMap.empty :=
  ⟨Laid.empty, Exact.empty, Ordered.empty, fun p hp => (by rw [row_empty] at hp; cases hp),
    fun hw => (by cases hw)⟩

/-! ## Any number of runs -/

/-- The invariant, under a run or between two. -/
theorem Reached.inv {site : Site} (h : Reached c x es site) :
    match site with
    | .idle db => IdleInv c x es db
    | .running s => AccInv c x es s := by
  induction h with
  | fresh => exact IdleInv.fresh
  | begin_ _ h hbegin ih => exact IdleInv.begin_ ih hbegin
  | step _ hstep ih => exact AccInv.step ih hstep
  | cut _ ih => exact AccInv.idle ih

theorem Reached.idle {site : Site} (h : Reached c x es site) : IdleInv c x es site.db := by
  cases site with
  | idle db => exact h.inv
  | running s => exact AccInv.idle h.inv

/-- Phase 2 does not give up a queue row before phase 1 is done. -/
theorem Reached.walked_of_dequeue {site : Site} (h : Reached c x es site) {a : Hash}
    (ha : Event.dequeue a ∈ es) : Event.walked ∈ es := by
  induction h with
  | fresh => cases ha
  | begin_ _ h hbegin ih => exact ih ha
  | @step es s s' ev hreach hstep ih =>
    rcases List.mem_append.mp ha with ha | ha
    · exact List.mem_append_left _ (ih ha)
    · obtain rfl : ev = some (.dequeue a) := by simpa using ha
      cases hstep with
      | work hphase htasks hroom hstep =>
        have hpast : s.phase.past = true := by
          cases hp : s.phase <;> rw [hp] at hphase <;> first | rfl | cases hphase
        exact List.mem_append_left _ ((hreach.inv : AccInv c x es s).phase.past hpast)
  | cut _ ih => exact ih ha

/-- A run can begin on what earlier runs have left. -/
theorem Reached.begins {db : Env} {h h' : Handle} {bl : Baseline}
    (hreach : Reached c x es (.idle db)) (hnew : newBaseline h db c.height = .ok (bl, db, h')) :
    ∃ s, beginRun c h db = .ok s := by
  unfold beginRun
  rw [hnew]
  dsimp only
  cases hprog : db.get metaBaselineProgress with
  | none => exact ⟨_, rfl⟩
  | some prog =>
    dsimp only
    rw [if_neg (not_not.mpr (hreach.idle.stored prog hprog).1)]
    exact ⟨_, rfl⟩

/-- Any number of runs, each cut off anywhere, over any interleaving and any responses: once
phase 1 is done every account is committed; at all times every account row is that of a leaf,
the accounts of a segment are committed in key order, each behind its queue row until phase 2
has given that up, and a segment whose bit is set is committed. -/
theorem account_phase_loses_nothing {site : Site} (h : Reached c x es site) :
    (Event.walked ∈ es → ∀ l ∈ (x.accounts c).list, Stored c x site.db l) ∧
      (∀ a v, row site.db (.baseAccount a) = some v →
        ∃ l ∈ (x.accounts c).list, bytesToHash l.1 = a ∧ Stored c x site.db l) ∧
      Ordered c x es site.db ∧
      (∀ a, Event.dequeue a ∈ es → Event.walked ∈ es) ∧
      ∀ p, row site.db .baselineProgress = some p →
        ∀ i, segDone p i = true → Covers c x i site.db := by
  have hi := h.idle
  refine ⟨hi.walked, fun a v hv => ?_, hi.ordered, fun a => h.walked_of_dequeue,
    fun p hp => (hi.stored p hp).2⟩
  obtain ⟨r, hr, ht, -⟩ := hi.exact (.baseAccount a) v (by rw [Row.space]; decide) hv
  cases r with
  | baseAccount a' row =>
    obtain rfl := Row.baseAccount.inj ht
    obtain ⟨acc, ⟨l, hl, rfl, hacc⟩, -⟩ := hr
    exact ⟨l, hl, rfl, hi.exact.stored hl (by rw [hv]; simp)⟩
  | _ => cases ht

namespace Sample

/-- Two accounts of the first segment, and the last of the key space. -/
def accounts : Leaves where
  list := [(List.replicate 32 0, [1]), (List.replicate 31 0 ++ [1], [2]),
    (List.replicate 32 0xff, [3])]
  sorted := by decide +kernel
  width := by decide +kernel

/-- Accounts with the same storage and no code. -/
def chain : Chain where
  trie root _ := if root = Hash.zero then accounts else ⟨[], .nil, by simp⟩
  code _ := none
  rlpAccount b := some ⟨1, some (BitVec.ofNat 256 b.length), FixedBytes.ofNat 32 7, []⟩
  rlpSplit _ := none
  keccak _ := Hash.zero
  emptyRoot := FixedBytes.ofNat 32 1

def config : Config := { height := 5, root := Hash.zero, workers := 1 }

theorem handles : ∀ l ∈ (chain.accounts config).list, ∀ claims,
    ∃ r, handleAccount chain claims l = .ok r := by
  intro l hl claims
  rw [handleAccount, if_neg (by simp [(chain.accounts config).width l hl])]
  exact ⟨_, rfl⟩

end Sample

open Sample in
/-- A run over the empty store is cut off when the first segment is walked.  The next run, over
what it left, ends phase 1 and is cut off, and one more run ends phase 1 again. -/
theorem account_phase_loses_nothing_resumed :
    ∃ s₁ s₂ s₃ s₄ s₅, Reached config chain [] (.running s₁) ∧ s₁.segs 0 = .ended ∧
      beginRun config ⟨6, false⟩ s₁.db = .ok s₂ ∧ Path config chain s₂ [.walked] s₃ ∧
      beginRun config ⟨6, false⟩ s₃.db = .ok s₄ ∧ Path config chain s₄ [.walked] s₅ ∧
      ∀ l ∈ (chain.accounts config).list,
        Stored config chain s₃.db l ∧ Stored config chain s₅.db l := by
  obtain ⟨s₀, hbegin⟩ : ∃ s, beginRun config ⟨0, false⟩ OrdMap.empty = .ok s := ⟨_, rfl⟩
  obtain ⟨hphase, hstill, hparked⟩ := beginRun_parked hbegin
  have hfew : (chain.accounts config).list.length ≤ leafLimit := by decide +kernel
  obtain ⟨s₁, hsteps, -, -, -, -, hended⟩ := steps_segments handles hfew [0] hphase hstill hparked
  have h₁ : Reached config chain [] (.running s₁) :=
    (Reached.fresh.begin_ _ hbegin).path (Path.refl.steps hsteps)
  obtain ⟨s₂, h₂⟩ := h₁.cut.begins (h := ⟨6, false⟩) rfl
  obtain ⟨s₃, hpath, -⟩ := beginRun_walk handles hfew h₂
  have h₃ := (h₁.cut.begin_ _ h₂).path hpath
  obtain ⟨s₄, h₄⟩ := h₃.cut.begins (h := ⟨6, false⟩) rfl
  obtain ⟨s₅, hpath', -⟩ := beginRun_walk handles hfew h₄
  have h₅ := (h₃.cut.begin_ _ h₄).path hpath'
  refine ⟨s₁, s₂, s₃, s₄, s₅, h₁, hended 0 (by simp), h₂, hpath, h₄, hpath', fun l hl => ⟨?_, ?_⟩⟩
  · exact (account_phase_loses_nothing h₃).1 (by simp) l hl
  · exact (account_phase_loses_nothing h₅).1 (by simp) l hl

end Flatstate.Sync
