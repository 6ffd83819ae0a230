import Flatstate.Sync.Complete

set_option autoImplicit false

/-!
# Sync: a run can be driven through phase 2

For a chain with a single account, whose storage the loader splits: schedules that take the
task of the account through its warm-up, its split and its sub-ranges to the end of the run,
each bundle being written before the next is sent.  With each of them goes what it does not
write.
-/

namespace Flatstate.Sync

open Foundation Schema Store

variable {c : Config} {x : Chain} {es : List Event} {s s' : Load} {a root : Hash} {p : Phase}

/-! ## What steps keep -/

theorem AccInv.path {es' : List Event} (h : AccInv c x es s) (hp : Path c x s es' s') :
    AccInv c x (es ++ es') s' := by
  induction hp with
  | refl =>
    rw [List.append_nil]
    exact h
  | tail _ hstep ih =>
    rw [← List.append_assoc]
    exact ih.step hstep

/-- What is committed stays committed. -/
theorem Path.grows {es' : List Event} (hp : Path c x s es' s') (h : AccInv c x es s) {r : LoadRow}
    (hr : Genuine c x r) (hfix : fixedRow r = true) (hhas : Has c s.db r) : Has c s'.db r := by
  induction hp with
  | refl => exact hhas
  | tail hpath hstep ih =>
    have hacc := h.path hpath
    obtain ⟨rows, -, hfl⟩ := hstep.flows hacc.flow.height
    exact hfl.grows hacc.flow.genuine r hr hfix ih

/-- A row that none of the written ones is about. -/
theorem row_foldl_of_ne {height : UInt64} {rows : List LoadRow} {r : Row} (e : Env)
    (h : ∀ r' ∈ rows, r ≠ r'.target height) :
    row ((rows.map (LoadRow.op height)).foldl BlOp.run e) r = row e r := by
  induction rows generalizing e with
  | nil => rfl
  | cons r' rows ih =>
    rw [List.forall_mem_cons] at h
    rw [List.map_cons, List.foldl_cons, ih _ h.2, row_run_of_ne e h.1]

/-- Before there is a task no slot is written. -/
theorem Path.slot_rows {es' : List Event} (hp : Path c x s es' s') (h : AccInv c x es s)
    (ht : s'.tasks = []) (a k : Hash) :
    row s'.view (.baseSlot a k) = row s.view (.baseSlot a k) := by
  induction hp with
  | refl => rfl
  | @tail s₁ s₂ es₁ ev hpath hstep ih =>
    have hacc := h.path hpath
    have ht₁ : s₁.tasks = [] := by
      cases hstep with
      | task hphase hlimit => simp at ht
      | work hphase htasks hroom hstep => simp at ht
      | @applied b _ _ _ => cases hb : b.final <;> rw [hb] at ht <;> exact ht
      | @fenced b _ _ _ _ => cases hb : b.final <;> rw [hb] at ht <;> exact ht
      | _ => exact ht
    obtain ⟨rows, hem, hfl⟩ := hstep.flows hacc.flow.height
    have hrows : ∀ r ∈ rows, Row.baseSlot a k ≠ r.target c.height := by
      intro r hr
      cases hem with
      | nothing => simp at hr
      | @segment i b w claims hphase hstep =>
        obtain ⟨-, ⟨-, rows, v, hw⟩ | ⟨-, hnil, -⟩⟩ := hstep.sends
        · have hseg := hacc.segs i
          rw [hw] at hseg
          obtain ⟨l, ⟨claims, claims', hl⟩, -⟩ := hseg.sends
          obtain ⟨acc, -, code, hb, hcode⟩ := handleAccount_ok hl
          rw [hb, accountRows] at hr
          rcases List.mem_append.mp hr with hr | hr
          · obtain ⟨hash, blob, rfl, -⟩ := hcode r hr
            simp [LoadRow.target]
          · split at hr
            · rcases List.mem_append.mp hr with hr | hr
              · rw [List.mem_singleton.mp hr]
                simp [LoadRow.target]
              · rw [List.mem_singleton.mp hr]
                simp [LoadRow.target]
            · rw [List.mem_singleton.mp hr]
              simp [LoadRow.target]
        · rw [hnil] at hr
          simp at hr
      | work ht hstep =>
        rw [ht₁] at ht
        simp at ht
      | sweep hrows =>
        obtain ⟨hash, blob, rfl, -⟩ := mem_sweepRows hrows hr
        simp [LoadRow.target]
    rw [← hfl.view.row (by rw [Row.space]; decide), row_foldl_of_ne _ hrows]
    exact ih ht₁

/-! ## The only task -/

/-- The run is in phase `p` with one task, and the writer waits. -/
structure At (c : Config) (x : Chain) (es : List Event) (p : Phase) (a root : Hash)
    (st : TaskState) (s : Load) : Prop where
  acc : AccInv c x es s
  phase : s.phase = p
  still : s.Still
  tasks : s.tasks = [⟨a, root, st⟩]

/-- The slots of the account that `outside` names are as they were. -/
def Spares (a : Hash) (outside : Hash → Prop) (s s' : Load) : Prop :=
  ∀ k, outside k → row s'.view (.baseSlot a k) = row s.view (.baseSlot a k)

theorem Spares.trans {outside outside' : Hash → Prop} {s'' : Load} (h : Spares a outside s s')
    (h' : Spares a outside' s' s'') : Spares a (fun k => outside k ∧ outside' k) s s'' :=
  fun k hk => (h' k hk.2).trans (h k hk.1)

theorem Spares.mono {outside outside' : Hash → Prop} (h : Spares a outside s s')
    (hsub : ∀ k, outside' k → outside k) : Spares a outside' s s' := fun k hk => h k (hsub k hk)

section Task

variable (hp : p.storage = true)
include hp

/-- A step of the task that sends nothing. -/
theorem At.quiet {st st' : TaskState} {ev : Option Event} (h : At c x es p a root st s)
    (hstep : TaskStep c x s.db a root st none ev st') :
    ∃ s', Path c x s ev.toList s' ∧ At c x (es ++ ev.toList) p a root st' s' ∧
      s'.view = s.view ∧ s'.db = s.db := by
  have hwork : Step c x s ev { s with
      tasks := [] ++ { (⟨a, root, st⟩ : Task) with state := st' } :: []
      writes := s.writes ++ (none : Option Bundle).toList } :=
    .work (by rw [h.phase]; exact hp) h.tasks (by simp) hstep
  have hpath := Path.refl.tail hwork
  rw [List.nil_append] at hpath
  refine ⟨_, hpath, ⟨h.acc.path hpath, h.phase, ⟨h.still.1, ?_⟩, rfl⟩, ?_, rfl⟩
  · simp [h.still.2]
  · simp [Load.view, Load.ops, Load.rows, Load.queue]

/-- The task sends a bundle, and the writer gets through it. -/
theorem At.send {st st' : TaskState} {ev : Option Event} {b : Bundle} (h : At c x es p a root st s)
    (hb : b.barrier = false) (hstep : TaskStep c x s.db a root st (some b) ev st') :
    ∃ s', Path c x s ev.toList s' ∧ At c x (es ++ ev.toList) p a root st' s' ∧
      Agree ((b.apply.map (LoadRow.op c.height)).foldl BlOp.run s.view) s'.view := by
  have hroom : s.writes.length < c.width * 2 := by
    have := c.width_pos
    rw [h.still.2, List.length_nil]
    omega
  have hwork : Step c x s ev { s with
      tasks := [] ++ { (⟨a, root, st⟩ : Task) with state := st' } :: []
      writes := s.writes ++ (some b).toList } :=
    .work (by rw [h.phase]; exact hp) h.tasks (fun _ => hroom) hstep
  have hfl : Flows c x s { s with
      tasks := [] ++ { (⟨a, root, st⟩ : Task) with state := st' } :: []
      writes := s.writes ++ (some b).toList } b.apply := by
    refine .emit h.acc.flow.height rfl rfl (s.rows_send b ?_)
    rw [h.phase]
    cases p <;> first | rfl | cases hp
  obtain ⟨s', hs, ha, hstill, hv⟩ := steps_write (c := c) (x := x) (b := b) (s := { s with
      tasks := [] ++ { (⟨a, root, st⟩ : Task) with state := st' } :: []
      writes := s.writes ++ (some b).toList }) h.still.1 (by simp [h.still.2]) hb
  have hpath := (Path.refl.tail hwork).steps hs
  rw [List.nil_append] at hpath
  exact ⟨s', hpath, ⟨h.acc.path hpath, ha.phase.trans h.phase, hstill, ha.tasks⟩, hfl.view.trans hv⟩

end Task

/-! ## Walks -/

/-- The client serves the first `n` leaves. -/
theorem serves_take (t : Leaves) (start : Bytes) {n : Nat} (hn : 0 < n) (hlimit : n ≤ leafLimit) :
    Serves t start ⟨(t.since start).take n, decide (n < (t.since start).length)⟩ where
  initial := List.take_prefix _ _
  limit := (List.length_take_le _ _).trans hlimit
  nonempty h := by
    rcases List.take_eq_nil_iff.mp h with h | h
    · omega
    · exact h
  more := by
    rw [List.length_take, decide_eq_decide]
    omega

/-- Where a walk resumes: at its end, or from a key at or after its start and past the
watermark. -/
theorem resumeAt_cases (c : Config) (db : Env) (a : Hash) (cap : Nat) (lo : Bytes)
    (hi : Option Bytes) :
    resumeAt c db a cap lo hi = .ended none ∨
      ∃ start, resumeAt c db a cap lo hi = .asking start hi 0 ∧ lo ≤ start ∧
        (cap = 0 → c.noStorageResume = false → ∀ wm, maxBaseSlot db a lo hi = some wm →
          wm.1 < start) := by
  unfold resumeAt
  split
  · split
    · rename_i hnone
      refine Or.inr ⟨lo, rfl, le_rfl, fun _ _ wm hwm => ?_⟩
      rw [hnone] at hwm
      cases hwm
    · rename_i wm hsome
      have hpast : ∀ {start next : Bytes}, incKey wm.1 = some next → next ≤ start →
          cap = 0 → c.noStorageResume = false → ∀ wm', maxBaseSlot db a lo hi = some wm' →
            wm'.1 < start := by
        intro start next hinc hle _ _ wm' hwm'
        obtain rfl := Option.some.inj (hsome.symm.trans hwm')
        exact (lt_incKey hinc).trans_le hle
      split
      · exact Or.inl rfl
      · rename_i next hinc
        split
        · exact Or.inl rfl
        · split
          · rename_i hlt
            exact Or.inr ⟨next, rfl, hlt.le, hpast hinc le_rfl⟩
          · rename_i hge
            exact Or.inr ⟨lo, rfl, le_rfl, hpast hinc (not_lt.mp hge)⟩
  · rename_i hcond
    exact Or.inr ⟨lo, rfl, le_rfl, fun hcap hresume => absurd ⟨hcap, hresume⟩ hcond⟩

section Walk

variable {C : Walker → TaskState} {cap : Nat}
  (hC : ∀ db w out w', WalkStep c x db a root cap w out w' →
    TaskStep c x db a root (C w) out none (C w'))
  (hp : p.storage = true) (hslots : ∀ m ∈ (x.trie root a).list, ∃ r, slotLeafRow x a m = .ok r)
include hC hp hslots

/-- One page of a walk: asked for, enqueued and written. -/
theorem At.page {start : Bytes} {hi : Option Bytes} {n : Nat} {r : LeafsResponse}
    (h : At c x es p a root (C (.asking start hi n)) s) (hcap : ¬ (0 < cap ∧ cap ≤ n))
    (hserve : Serves (x.trie root a) start r) :
    ∃ s', Path c x s [] s' ∧
      At c x es p a root
        (C (.after hi n (verdict (truncateAt r hi).2 (truncateAt r hi).1))) s' ∧
      Spares a (fun k => ∀ m ∈ (truncateAt r hi).1.leaves, m.1 ≠ k.1) s s' := by
  have hmem : ∀ m ∈ (truncateAt r hi).1.leaves, m ∈ (x.trie root a).list := fun m hm =>
    (Leaves.mem_since.mp (hserve.initial.subset (truncateAt_subset hm))).1
  obtain ⟨rows, hrows⟩ := exists_mapM_ok fun m hm => hslots m (hmem m hm)
  obtain ⟨s₁, h₁, at₁, hview₁, -⟩ := h.quiet hp (hC _ _ _ _ (.page hcap hserve hrows))
  rw [Option.toList_none, List.append_nil] at at₁
  obtain ⟨s₂, h₂, at₂, hview₂⟩ := at₁.send hp (b := { apply := rows }) rfl (hC _ _ _ _ .send)
  rw [Option.toList_none, List.append_nil] at at₂
  refine ⟨s₂, h₁.trans h₂, at₂, fun k hk => ?_⟩
  rw [← hview₂.row (by rw [Row.space]; decide), row_foldl_of_ne _ fun r hr => ?_, hview₁]
  obtain ⟨m, hm, hslot⟩ := exists_of_mem_right (forall₂_of_mapM hrows) hr
  rw [slotLeafRow_target hslot]
  intro heq
  refine hk m hm ?_
  rw [(Row.baseSlot.inj heq).2, bytesToHash_of_length (Leaves.width _ m (hmem m hm))]

/-- A walk without a cap gets to its end, and writes nothing outside of its range. -/
theorem At.walk (hcap : cap = 0) {hi : Option Bytes} (hhi : hi ≠ some []) {start : Bytes} {n : Nat}
    (h : At c x es p a root (C (.asking start hi n)) s) :
    ∃ s', Path c x s [] s' ∧ At c x es p a root (C (.ended none)) s' ∧
      Spares a (fun k => k.1 < start ∨ ∃ b, hi = some b ∧ b < k.1) s s' := by
  induction hlen : ((x.trie root a).since start).length using Nat.strong_induction_on
    generalizing s start n with
  | _ len ih =>
    have hserve := serves_take (x.trie root a) start (n := 1) Nat.zero_lt_one (by decide)
    obtain ⟨s₁, h₁, at₁, hspare₁⟩ := h.page hC hp hslots (by omega) hserve
    have hout : ∀ k : Hash, (k.1 < start ∨ ∃ b, hi = some b ∧ b < k.1) →
        ∀ m ∈ (truncateAt ⟨((x.trie root a).since start).take 1,
          decide (1 < ((x.trie root a).since start).length)⟩ hi).1.leaves, m.1 ≠ k.1 := by
      intro k hk m hm heq
      obtain ⟨hin, hle⟩ := (truncateAt_mem hserve hhi).mp hm
      have hge := (Leaves.mem_since.mp (hserve.initial.subset hin)).2
      rcases hk with hlt | ⟨b, hb, hlt⟩
      · exact absurd hge (not_le.mpr (heq ▸ hlt))
      · exact absurd (hle b hb) (not_le.mpr (heq ▸ hlt))
    -- no page is empty with more to come, and the next one starts further up
    have htodo : Todo Prod.fst (InRange (x.trie root a) start hi) (fun _ => True) [] (some start) :=
      .resume fun _ _ _ => trivial
    obtain ⟨next, hv, -, hnext⟩ := paged hserve le_rfl hhi htodo
    rw [hv] at at₁
    cases next with
    | none => exact ⟨s₁, h₁, at₁, hspare₁.mono hout⟩
    | some k =>
      have hless := since_lt_of_go hserve hv
      obtain ⟨s₂, h₂, at₂, hspare₂⟩ := ih _ (hlen ▸ hless) at₁ rfl
      refine ⟨s₂, h₁.trans h₂, at₂, (hspare₁.trans hspare₂).mono fun q hq => ⟨hout q hq, ?_⟩⟩
      exact hq.imp_left fun hlt => hlt.trans (hnext k rfl).2

/-- A sub-range walk gets to its end.  It writes nothing outside of its range, and nothing up to
the watermark it takes. -/
theorem At.open_ (hcap : cap = 0) {lo : Bytes} {hi : Option Bytes} (hhi : hi ≠ some [])
    (h : At c x es p a root (C (.opening lo hi)) s) :
    ∃ s', Path c x s [] s' ∧ At c x es p a root (C (.ended none)) s' ∧
      Spares a (fun k => k.1 < lo ∨ (∃ b, hi = some b ∧ b < k.1) ∨
        (c.noStorageResume = false ∧ ∃ wm, maxBaseSlot s.db a lo hi = some wm ∧ k.1 ≤ wm.1)) s s' := by
  obtain ⟨s₁, h₁, at₁, hview₁, -⟩ := h.quiet hp (hC _ _ _ _ .resume)
  rw [Option.toList_none, List.append_nil] at at₁
  rcases resumeAt_cases c s.db a cap lo hi with hend | ⟨start, hask, hlo, hpast⟩
  · rw [hend] at at₁
    exact ⟨s₁, h₁, at₁, fun k _ => by rw [hview₁]⟩
  · rw [hask] at at₁
    obtain ⟨s₂, h₂, at₂, hspare⟩ := at₁.walk hC hp hslots hcap hhi
    refine ⟨s₂, h₁.trans h₂, at₂, fun k hk => ?_⟩
    rw [hspare k ?_, hview₁]
    rcases hk with hlt | hlt | ⟨hresume, wm, hwm, hle⟩
    · exact Or.inl (hlt.trans_le hlo)
    · exact Or.inr hlt
    · exact Or.inl (hle.trans_lt (hpast hcap hresume wm hwm))

end Walk

/-! ## A chain with one account -/

/-- The chain has one account, with storage and without code, and everything decodes. -/
structure Solo (c : Config) (x : Chain) (a root : Hash) : Prop where
  account : ∃ acc, IsAccount c x a acc
  only : ∀ a' acc, IsAccount c x a' acc → a' = a ∧ acc.root = root ∧ x.hasStorage acc = true ∧
    bytesToHash acc.codeHash = Hash.zero
  handled : ∀ l ∈ (x.accounts c).list, ∀ claims, ∃ r, handleAccount x claims l = .ok r
  few : (x.accounts c).list.length ≤ leafLimit
  slots : ∀ m ∈ (x.trie root a).list, ∃ r, slotLeafRow x a m = .ok r

theorem Row.storageQueue_of_space {r : Row} (h : r.space = prefStorageQueue) :
    ∃ a, r = .storageQueue a := by
  cases r with
  | storageQueue a => exact ⟨a, rfl⟩
  | history t b => cases t <;> exact absurd h (by simp only [Row.space, Track.space]; decide)
  | _ => exact absurd h (by simp only [Row.space]; decide)

theorem Row.baseAccount_of_space {r : Row} (h : r.space = prefBaseAccount) :
    ∃ a, r = .baseAccount a := by
  cases r with
  | baseAccount a => exact ⟨a, rfl⟩
  | history t b => cases t <;> exact absurd h (by simp only [Row.space, Track.space]; decide)
  | _ => exact absurd h (by simp only [Row.space]; decide)

namespace Solo

variable {e : Env} (h : Solo c x a root)
include h

/-- The queue has at most the row of the account. -/
theorem queue_entry (hl : Laid e) (hex : Exact c x e) {seek k v : Bytes}
    (hmem : (k, v) ∈ keyspaceFrom e prefStorageQueue seek) :
    k = (Row.storageQueue a).key ∧ v = root.1 := by
  obtain ⟨hget, -, -, hhead⟩ := mem_keyspaceFrom hmem
  obtain ⟨r, rfl⟩ := hl k v hget
  rw [Row.key_eq] at hhead
  obtain ⟨a', rfl⟩ := Row.storageQueue_of_space (Option.some.inj hhead)
  obtain ⟨r, hr, ht, hval⟩ := hex (.storageQueue a') v (by rw [Row.space]; decide) hget
  cases r with
  | queueStorage a₁ root₁ =>
    obtain rfl := Row.storageQueue.inj ht
    obtain ⟨acc, hacc, -, rfl⟩ := hr
    obtain ⟨rfl, hroot, -⟩ := h.only a₁ acc hacc
    exact ⟨rfl, by rw [← hroot]; exact (Option.some.inj hval).symm⟩
  | dequeueStorage a₁ => cases hval
  | _ => cases ht

theorem scan (hl : Laid e) (hex : Exact c x e) {v : Bytes}
    (hrow : row e (.storageQueue a) = some v) :
    storageQueueAfter e none scanBatch = .ok [(a, root)] := by
  have hin : ((Row.storageQueue a).key, v) ∈ keyspaceFrom e prefStorageQueue [prefStorageQueue] :=
    mem_keyspaceFrom_of_row hl rfl hrow
  obtain rfl := (h.queue_entry hl hex hin).2
  have hall : keyspaceFrom e prefStorageQueue [prefStorageQueue] =
      [((Row.storageQueue a).key, root.1)] := by
    have hsorted : (keyspaceFrom e prefStorageQueue [prefStorageQueue]).Pairwise
        (fun e e' => e.1 < e'.1) :=
      (OrdMap.scan_sorted _ _).sublist (List.takeWhile_prefix _).sublist
    have hsame : ∀ b ∈ keyspaceFrom e prefStorageQueue [prefStorageQueue],
        b = ((Row.storageQueue a).key, root.1) := by
      rintro ⟨k, w⟩ hb
      obtain ⟨rfl, rfl⟩ := h.queue_entry hl hex hb
      rfl
    generalize keyspaceFrom e prefStorageQueue [prefStorageQueue] = l at hin hsorted hsame
    cases l with
    | nil => simp at hin
    | cons b l =>
      cases l with
      | nil => rw [hsame b (by simp)]
      | cons b' l =>
        have hlt := (List.pairwise_cons.mp hsorted).1 b' (by simp)
        rw [hsame b (by simp), hsame b' (by simp)] at hlt
        exact absurd hlt (lt_irrefl _)
  unfold storageQueueAfter
  dsimp only
  rw [hall]
  have htake : [((Row.storageQueue a).key, root.1)].take (Nat.max 1 scanBatch) =
      [((Row.storageQueue a).key, root.1)] := rfl
  have hrow : queueRow ((Row.storageQueue a).key, root.1) = .ok (a, root) := by
    unfold queueRow
    have hform : (Row.storageQueue a).key.length = 33 ∧ root.1.length = 32 :=
      ⟨(Row.storageQueue a).length_key, root.2⟩
    rw [dif_pos hform]
    rfl
  rw [htake, List.mapM_cons, hrow]
  rfl

theorem scan_rest (hl : Laid e) (hex : Exact c x e) :
    storageQueueAfter e (some a) scanBatch = .ok [] := by
  have hnil : keyspaceFrom e prefStorageQueue (appendStorageQueueKey [] a ++ [0]) = [] := by
    refine List.eq_nil_iff_forall_not_mem.mpr ?_
    rintro ⟨k, v⟩ hmem
    obtain ⟨rfl, -⟩ := h.queue_entry hl hex hmem
    obtain ⟨-, hle, -⟩ := mem_keyspaceFrom hmem
    have hlt : (Row.storageQueue a).key ++ [] < (Row.storageQueue a).key ++ [0] :=
      (append_lt_append_left _ _ _).mpr List.Lex.nil
    rw [List.append_nil] at hlt
    exact absurd hle (not_le.mpr hlt)
  unfold storageQueueAfter
  dsimp only
  rw [hnil]
  rfl

/-- There is no code to sweep. -/
theorem sweep (hl : Laid e) (hex : Exact c x e) : missingCodeHashes x.keccak e = .ok [] := by
  have hloop : ∀ (rows : List (Bytes × Bytes)) (seen : List Hash),
      (∀ b ∈ rows, ∃ acct, decodeAccount b.2 = .ok acct ∧ acct.codeHash = Hash.zero) →
      missingLoop e (x.keccak []) rows seen = .ok [] := by
    intro rows seen hrows
    induction rows with
    | nil => rfl
    | cons b rows ih =>
      rw [List.forall_mem_cons] at hrows
      obtain ⟨acct, hdec, hzero⟩ := hrows.1
      unfold missingLoop
      rw [hdec]
      dsimp only
      rw [if_pos (Or.inl hzero)]
      exact ih hrows.2
  refine hloop _ _ ?_
  rintro ⟨k, v⟩ hmem
  obtain ⟨hget, -, -, hhead⟩ := mem_keyspaceFrom hmem
  obtain ⟨r, rfl⟩ := hl k v hget
  rw [Row.key_eq] at hhead
  obtain ⟨a', rfl⟩ := Row.baseAccount_of_space (Option.some.inj hhead)
  obtain ⟨r, hr, ht, hval⟩ := hex (.baseAccount a') v (by rw [Row.space]; decide) hget
  cases r with
  | baseAccount a₁ acct =>
    obtain ⟨acc, hacc, rfl⟩ := hr
    obtain rfl := Option.some.inj hval
    exact ⟨acc.row, decodeAccount_encodeAccount _, (h.only a₁ acc hacc).2.2.2⟩
  | _ => cases ht

theorem firstQueued_none (hl : Laid e) (hex : Exact c x e)
    (hrow : row e (.storageQueue a) = none) : firstQueued e = none := by
  unfold firstQueued
  split
  · rename_i k v hs
    obtain ⟨hget, -⟩ := OrdMap.setRange_eq_some hs
    obtain ⟨r, rfl⟩ := hl k v hget
    refine if_neg fun hhead => ?_
    rw [Row.key_eq] at hhead
    obtain ⟨a', rfl⟩ := Row.storageQueue_of_space (Option.some.inj hhead)
    obtain ⟨r, hr, ht, hval⟩ := hex (.storageQueue a') v (by rw [Row.space]; decide) hget
    cases r with
    | queueStorage a₁ root₁ =>
      obtain rfl := Row.storageQueue.inj ht
      obtain ⟨acc, hacc, -⟩ := hr
      obtain ⟨rfl, -⟩ := h.only a₁ acc hacc
      cases hrow.symm.trans hget
    | dequeueStorage a₁ => cases hval
    | _ => cases ht
  · rfl

/-! ## The schedule of a run -/

/-- A run that begins with the account not given up gets to its task. -/
theorem task {db : Env} {hd : Handle} {s : Load} (hacc : AccInv c x es s)
    (hbegin : beginRun c hd db = .ok s) (hkept : Event.dequeue a ∉ es) :
    ∃ s', Path c x s [.walked] s' ∧
      At c x (es ++ [.walked]) (.spawning [] a) a root (.warming (.opening [] none)) s' ∧
      Spares a (fun _ => True) s s' := by
  obtain ⟨s₁, h₁, hphase, hstill, hops⟩ := beginRun_walk h.handled h.few hbegin
  have hacc₁ := hacc.path h₁
  have htasks : s₁.tasks = [] := (Path.scan hbegin h₁).fresh (Or.inr hphase)
  obtain ⟨v, hv⟩ : ∃ v, row s₁.db (.storageQueue a) = some v := by
    obtain ⟨acc, l, hl, ha, hdec⟩ := h.account
    have hstored := hacc₁.phase.walked (by simp) l hl
    rcases hacc₁.flow.now.queued l hl acc hdec (h.only a acc ⟨l, hl, ha, hdec⟩).2.2.1 hstored
      with hrow | hin
    · exact ⟨_, ha ▸ hrow⟩
    · rw [ha] at hin
      simp [hkept] at hin
  have hscan := h.scan hacc₁.flow.laid hacc₁.flow.exact hv
  have hbusy : s₁.busyTasks < c.width := by
    rw [Load.busyTasks, htasks]
    exact c.width_pos
  have hsteps : Steps c x s₁ { s₁ with
      phase := .spawning [] a
      tasks := s₁.tasks ++ [⟨a, root, .warming (.opening [] none)⟩] } := by
    refine .tail (.single (.scan (by simp) hphase hscan)) ?_
    exact @Step.task c x { s₁ with phase := .spawning [(a, root)] a } (a, root) [] a rfl hbusy
  have hpath := h₁.steps hsteps
  refine ⟨_, hpath, ⟨hacc.path hpath, rfl, hstill, by rw [htasks]; rfl⟩, fun k _ => ?_⟩
  rw [← h₁.slot_rows hacc htasks a k]
  simp [Load.view, Load.ops, Load.rows, Load.queue, hphase, Phase.rows]

/-- The warm-up stops at its cap after one page, and the giant is split. -/
theorem split {r : LeafsResponse} {k : Bytes} {ranges : List (Bytes × Option Bytes)}
    (hcap : c.splitAfter = 1) (hp : p.storage = true) (hserve : Serves (x.trie root a) [] r)
    (hgo : verdict false r = .go k) (hsplit : splitRange k c.splitWays = some ranges)
    (hat : At c x es p a root (.warming (.opening [] none)) s) :
    ∃ s', Path c x s [.fan a k] s' ∧
      At c x (es ++ [.fan a k]) p a root (.fanned (ranges.map (fun r => .opening r.1 r.2))) s' ∧
      Spares a (fun q => ∀ m ∈ r.leaves, m.1 ≠ q.1) s s' := by
  have hC : ∀ db w out w', WalkStep c x db a root c.splitAfter w out w' →
      TaskStep c x db a root (.warming w) out none (.warming w') := fun _ _ _ _ => .warm
  obtain ⟨s₁, h₁, at₁, hview₁, -⟩ := hat.quiet hp (hC _ _ _ _ .resume)
  rw [Option.toList_none, List.append_nil] at at₁
  have hask : resumeAt c s.db a c.splitAfter [] none = .asking [] none 0 := by
    unfold resumeAt
    rw [if_neg (by omega)]
  rw [hask] at at₁
  obtain ⟨s₂, h₂, at₂, hspare₂⟩ := at₁.page hC hp h.slots (by omega) hserve
  have hafter : Walker.after none 0 (verdict (truncateAt r none).2 (truncateAt r none).1) =
      .asking k none 1 := by
    rw [truncateAt, hgo]
    rfl
  rw [hafter] at at₂
  obtain ⟨s₃, h₃, at₃, hview₃, -⟩ := at₂.quiet hp (hC _ _ _ _ (.capped (by omega)))
  rw [Option.toList_none, List.append_nil] at at₃
  obtain ⟨s₄, h₄, at₄, hview₄, -⟩ := at₃.quiet hp (.fan hsplit)
  refine ⟨s₄, h₁.trans (h₂.trans (h₃.trans h₄)), at₄, fun q hq => ?_⟩
  rw [hview₄, hview₃, hspare₂ q hq, hview₁]

/-- The sub-ranges are done: the queue row is given up, and the run returns. -/
theorem finish {ws : List Walker} (hall : ∀ w ∈ ws, w = .ended none)
    (hat : At c x es (.spawning [] a) a root (.fanned ws) s) :
    ∃ s', Path c x s [.dequeue a] s' ∧ s'.phase = .returned ∧
      row s'.db (.storageQueue a) = none ∧
      ∀ k, row s'.db (.baseSlot a k) = row s.view (.baseSlot a k) := by
  obtain ⟨s₁, h₁, at₁, hview₁, -⟩ := hat.quiet rfl (.joined hall)
  rw [Option.toList_none, List.append_nil] at at₁
  obtain ⟨s₂, h₂, at₂, hview₂⟩ := at₁.send rfl rfl .dequeue
  have hscan := h.scan_rest at₂.acc.flow.laid at₂.acc.flow.exact
  have hended : ∀ t ∈ s₂.tasks, t.state = .ended := by
    intro t ht
    rw [at₂.tasks] at ht
    rw [List.mem_singleton.mp ht]
  -- the queue scan ends, the channel is closed and flushed
  have hflush := at₂.acc.flow.flush (Ordered.unmeta _)
  have hsweep := h.sweep hflush.laid hflush.exact
  have hscanned : Step c x { s₂ with phase := .scanning (some a) } none
      { s₂ with phase := .draining } := .scanned rfl hscan
  have hdrained : Step c x { s₂ with phase := .draining } none { s₂ with phase := .closed } :=
    .drained rfl hended
  have hswept : Step c x { s₂ with phase := .closed } none
      { s₂.flush with phase := .sweeping [] } :=
    @Step.sweep c x { s₂ with phase := .closed } [] [] rfl at₂.still.1 at₂.still.2 hsweep rfl
  have hsteps : Steps c x s₂ { s₂.flush with phase := .sweeping [] } :=
    (((Relation.ReflTransGen.single (.batch at₂.phase)).tail hscanned).tail hdrained).tail hswept
  have hview : Agree s₂.view s₂.flush.db := by
    have hall : s₂.view = s₂.bl.ops.foldl BlOp.run s₂.db := by
      simp [Load.view, Load.ops, Load.rows, Load.queue, at₂.still.1, at₂.still.2, at₂.phase, Phase.rows]
    rw [hall, Load.db_flush]
    exact Agree.flushed s₂.bl s₂.db
  have hqueue : row s₂.flush.db (.storageQueue a) = none := by
    rw [← hview.row (by rw [Row.space]; decide), ← hview₂.row (by rw [Row.space]; decide)]
    exact has_run_self (c := c) s₁.view (.dequeueStorage a)
  have hnone := h.firstQueued_none hflush.laid hflush.exact hqueue
  have hops : s₂.flush.bl.ops = [] := by rw [Load.flush_eq]
  have hfinish : s₂.flush.bl.finish true true s₂.flush.db ⟨0, false⟩ =
      (.ok (), { s₂.flush.bl with ops := [], progress := none },
        (s₂.flush.db.del metaBaselineProgress).put metaBaselineComplete [1], ⟨0, true⟩) := by
    have hflushed : s₂.flush.bl.clearProgress.flush true s₂.flush.db =
        (.ok (), { s₂.flush.bl with ops := [], progress := none }, s₂.flush.db) := by
      rw [Baseline.flush_true, Baseline.flushed, Baseline.clearProgress, hops]
      rfl
    rw [Baseline.finish, hflushed]
    dsimp only
    rw [hnone]
    rfl
  have hlast : Step c x { s₂.flush with phase := .sweeping [] } none _ := .finish rfl hfinish
  have hmeta : Agree s₂.flush.db
      ((s₂.flush.db.del metaBaselineProgress).put metaBaselineComplete [1]) :=
    (Agree.del_meta _ (r := .baselineProgress) rfl).trans
      (Agree.put_meta _ (r := .baselineComplete) rfl [1])
  refine ⟨_, (h₁.trans h₂).steps (hsteps.tail hlast), rfl, ?_, fun k => ?_⟩
  · rw [← hmeta.row (by rw [Row.space]; decide)]
    exact hqueue
  rw [← hmeta.row (by rw [Row.space]; decide), ← hview.row (by rw [Row.space]; decide),
    ← hview₂.row (by rw [Row.space]; decide), row_foldl_of_ne _ (by simp [LoadRow.target]), hview₁]

/-- A whole run that splits the account in two.  It leaves a slot as it is that the warm-up does
not get and that lies past the end of the first sub-range, and in the second below a slot that
is already committed. -/
theorem run {db : Env} {hd : Handle} {r : LeafsResponse} {k lo hi : Bytes}
    (hcap : c.splitAfter = 1) (hserve : Serves (x.trie root a) [] r)
    (hgo : verdict false r = .go k)
    (hsplit : splitRange k c.splitWays = some [(k, some hi), (lo, none)]) (hhi : hi ≠ [])
    (hacc : AccInv c x es s) (hbegin : beginRun c hd db = .ok s) (hkept : Event.dequeue a ∉ es) :
    ∃ s', Path c x s [.walked, .fan a k, .dequeue a] s' ∧ s'.phase = .returned ∧
      row s'.db (.storageQueue a) = none ∧
      ∀ q : Hash, (∀ m ∈ r.leaves, m.1 ≠ q.1) → hi < q.1 → c.noStorageResume = false →
        (∃ y : Hash, lo ≤ y.1 ∧ q.1 ≤ y.1 ∧ row s.db (.baseSlot a y) ≠ none) →
        row s'.db (.baseSlot a q) = row s.view (.baseSlot a q) := by
  obtain ⟨s₁, h₁, at₁, hspare₁⟩ := h.task hacc hbegin hkept
  obtain ⟨s₂, h₂, at₂, hspare₂⟩ := h.split hcap rfl hserve hgo hsplit at₁
  obtain ⟨s₃, h₃, at₃, hspare₃⟩ := At.open_
    (C := fun w => .fanned ([] ++ w :: [.opening lo none])) (fun _ _ _ _ => .sub) rfl h.slots rfl
    (fun heq : some hi = some [] => hhi (Option.some.inj heq)) at₂
  obtain ⟨s₄, h₄, at₄, hspare₄⟩ := At.open_
    (C := fun w => .fanned ([.ended none] ++ w :: [])) (fun _ _ _ _ => .sub) rfl h.slots rfl
    (by simp : (none : Option Bytes) ≠ some []) at₃
  obtain ⟨s₅, h₅, hret, hqueue, hrows⟩ := h.finish (by simp) at₄
  have hpath : Path c x s [.walked, .fan a k] s₃ := h₁.trans (h₂.trans h₃)
  refine ⟨s₅, hpath.trans (h₄.trans h₅), hret, hqueue, fun q hwarm hpast hresume hy => ?_⟩
  obtain ⟨y, hlo, hle, hrow⟩ := hy
  -- the committed slot is still there, and the watermark is at or above it
  obtain ⟨acc, hacct⟩ := h.account
  have hq : QueueRow c x a root := by
    obtain ⟨-, hroot, hst, -⟩ := h.only a acc hacct
    exact ⟨acc, hacct, hst, hroot.symm⟩
  obtain ⟨m, hm, hkey, r', hr', hhas⟩ := hacc.flow.exact.slotStored hq hrow
  have hrow₃ : row s₃.db (.baseSlot a y) ≠ none := by
    obtain ⟨hgen, hfix⟩ := genuine_slot hq hm hr'
    have hhas₃ := hpath.grows hacc hgen hfix hhas
    have htarget : r'.target c.height = .baseSlot a y := by
      rw [slotLeafRow_target hr']
      exact congrArg _ (Subtype.ext ((bytesToHash_of_length (Leaves.width _ m hm)).trans hkey))
    obtain ⟨content, -, rfl⟩ := slotLeafRow_shape hr'
    rw [Has, htarget] at hhas₃
    rw [hhas₃]
    simp [LoadRow.value]
  have hopen : ∀ e, (none : Option Bytes) = some e → y.1 ≤ sliceKey e := fun e he => by cases he
  obtain ⟨wm, hwm, hyw⟩ := le_maxBaseSlot at₃.acc.flow.laid hrow₃ hlo hopen
  rw [hrows q, hspare₄ q (Or.inr (Or.inr ⟨hresume, wm, hwm, hle.trans hyw⟩)),
    hspare₃ q (Or.inr (Or.inl ⟨hi, rfl, hpast⟩)), hspare₂ q hwarm, hspare₁ q trivial]

end Solo

end Flatstate.Sync
