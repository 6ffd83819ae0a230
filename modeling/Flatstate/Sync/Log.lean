import Flatstate.Foundation.Pending
import Flatstate.Sync.Loader

set_option autoImplicit false

/-!
# Sync: what is committed and what is on its way

Between the workers and the store are the channel, the bundle the writer is at and the buffer
of the `Baseline`.  `Load.ops` are the writes in there, in the order they will be committed,
and `Load.view` is the store as it will be when they are.  The writer moves rows along and
commits initial parts of `Load.ops`, without a change of the view; workers append.  A property
that holds after every prefix of `Load.ops` is kept by the writer whatever the chunks are
(`Flow`).

All rows are genuine: they say what the leaves say.  So a row that is there has the one value
it can have, and nothing that was written is ever changed.
-/

namespace Flatstate.Sync

open Foundation Schema Store

/-! ## Stores that differ in meta rows -/

/-- The two stores differ at most in their meta rows. -/
def Agree (e e' : Env) : Prop := ∀ k : Bytes, k.head? ≠ some prefMeta → e.get k = e'.get k

namespace Agree

variable {e e' e'' : Env}

theorem refl (e : Env) : Agree e e := fun _ _ => rfl

theorem symm (h : Agree e e') : Agree e' e := fun k hk => (h k hk).symm

theorem trans (h : Agree e e') (h' : Agree e' e'') : Agree e e'' :=
  fun k hk => (h k hk).trans (h' k hk)

theorem row (h : Agree e e') {r : Row} (hr : r.space ≠ prefMeta) : row e r = row e' r := by
  refine h r.key ?_
  rw [Row.key_eq]
  simpa using hr

theorem run (h : Agree e e') (op : BlOp) : Agree (op.run e) (op.run e') := by
  intro k hk
  rw [BlOp.run, BlOp.run]
  cases op.val with
  | none => exact (OrdMap.get_del ..).trans ((OrdMap.get_del ..).trans (by rw [h k hk])).symm
  | some v => exact (OrdMap.get_put ..).trans ((OrdMap.get_put ..).trans (by rw [h k hk])).symm

theorem foldl (h : Agree e e') (ops : List BlOp) :
    Agree (ops.foldl BlOp.run e) (ops.foldl BlOp.run e') :=
  foldl_congr_rel h (fun _ _ op h => h.run op)

theorem put_meta (e : Env) {r : Row} (hr : r.space = prefMeta) (v : Bytes) :
    Agree e (e.put r.key v) := by
  intro k hk
  rw [OrdMap.get_put_of_ne]
  rintro rfl
  rw [Row.key_eq, hr] at hk
  exact hk rfl

theorem del_meta (e : Env) {r : Row} (hr : r.space = prefMeta) : Agree e (e.del r.key) := by
  intro k hk
  rw [OrdMap.get_del_of_ne]
  rintro rfl
  rw [Row.key_eq, hr] at hk
  exact hk rfl

theorem flushed (bl : Baseline) (e : Env) :
    Agree (bl.ops.foldl BlOp.run e) (bl.flushed e) := by
  rw [Baseline.flushed]
  cases bl.progress with
  | none => exact refl _
  | some p => exact put_meta _ (r := .baselineProgress) rfl p

end Agree

/-! ## The writes on their way -/

/-- The rows `codeSweep` still has to add. -/
def Phase.rows : Phase → List LoadRow
  | .sweeping rows => rows
  | _ => []

/-- The bundles the writer has to apply, the one it is at first. -/
def Load.queue (s : Load) : List Bundle := s.cur.toList ++ s.writes

/-- The rows the `Baseline` has not been given yet. -/
def Load.rows (s : Load) : List LoadRow := s.queue.flatMap Bundle.apply ++ s.phase.rows

/-- All writes that are not committed, in order. -/
def Load.ops (s : Load) : List BlOp := s.bl.ops ++ s.rows.map (LoadRow.op s.bl.s)

/-- The store with everything committed. -/
def Load.view (s : Load) : Env := s.ops.foldl BlOp.run s.db

/-- A row in the buffer. -/
def Load.push (s : Load) (r : LoadRow) : Load :=
  { s with bl := { s.bl with ops := s.bl.ops ++ [r.op s.bl.s] } }

theorem Baseline.flush_true (bl : Baseline) (db : Env) :
    bl.flush true db = (.ok (), { bl with ops := [], progress := none }, bl.flushed db) := by
  rw [Baseline.flush]
  split
  · rename_i h
    obtain ⟨s, ops, progress⟩ := bl
    obtain ⟨rfl, rfl⟩ : ops = [] ∧ progress = none := h
    rfl
  · rfl

theorem Load.flush_eq (s : Load) :
    s.flush = { s with bl := { s.bl with ops := [], progress := none }, db := s.bl.flushed s.db } := by
  rw [Load.flush, Baseline.flush_true]

/-- Adding a row puts it into the buffer and flushes a full one. -/
theorem Load.load_cases (s : Load) (r : LoadRow) :
    s.load r = s.push r ∨ s.load r = (s.push r).flush := by
  rw [Load.load, Baseline.load, Baseline.add]
  by_cases h : (s.bl.ops ++ [r.op s.bl.s]).length ≥ baselineChunk
  · right
    dsimp only
    rw [if_pos h, Baseline.flush_true, Load.flush_eq]
    rfl
  · left
    dsimp only
    rw [if_neg h]
    rfl

theorem Load.ops_flush (s : Load) : s.ops = s.bl.ops ++ s.flush.ops := by
  rw [Load.flush_eq]
  rfl

theorem Load.db_flush (s : Load) : s.flush.db = s.bl.flushed s.db := by
  rw [Load.flush_eq]

theorem Load.view_flush (s : Load) : Agree s.view s.flush.view := by
  rw [Load.view, Load.ops_flush, List.foldl_append]
  refine Agree.foldl ?_ _
  rw [Load.db_flush]
  exact Agree.flushed s.bl s.db

/-! ## Genuine rows -/

section Genuine

variable (c : Config) (x : Chain)

/-- The account trie has an account under the hash. -/
def IsAccount (a : Hash) (acc : StateAccount) : Prop :=
  ∃ l ∈ (x.accounts c).list, bytesToHash l.1 = a ∧ x.rlpAccount l.2 = some acc

/-- The row says what the leaves say. -/
def Genuine : LoadRow → Prop
  | .account _ _ | .slot _ _ _ => False
  | .code hash blob => x.code hash = some blob
  | .baseAccount a row => ∃ acc, IsAccount c x a acc ∧ row = acc.row
  | .queueStorage a root => ∃ acc, IsAccount c x a acc ∧ x.hasStorage acc = true ∧ root = acc.root
  | .dequeueStorage a => ∃ acc, IsAccount c x a acc ∧ x.hasStorage acc = true
  | .baseSlot a k v => ∃ acc, IsAccount c x a acc ∧ x.hasStorage acc = true ∧
      ∃ m ∈ (x.trie acc.root a).list, slotLeafRow x a m = .ok (.baseSlot a k v)

/-- The write is that of a genuine row. -/
def GenuineOp (op : BlOp) : Prop := ∃ r, Genuine c x r ∧ op = r.op c.height

/-- Every row of the store that is not a meta row is genuine. -/
def Exact (e : Env) : Prop :=
  ∀ r v, r.space ≠ prefMeta → row e r = some v →
    ∃ r', Genuine c x r' ∧ r'.target c.height = r ∧ r'.value = some v

/-- The row is in the store. -/
def Has (e : Env) (r : LoadRow) : Prop := row e (r.target c.height) = r.value

end Genuine

section Rows

variable {c : Config} {x : Chain} {e e' : Env}

theorem key_of_bytesToHash {t t' : Leaves} {l l' : Leaf} (h : l ∈ t.list) (h' : l' ∈ t'.list)
    (heq : bytesToHash l.1 = bytesToHash l'.1) : l.1 = l'.1 := by
  have := congrArg Subtype.val heq
  rwa [bytesToHash_of_length (t.width l h), bytesToHash_of_length (t'.width l' h')] at this

theorem IsAccount.unique {a : Hash} {acc acc' : StateAccount} (h : IsAccount c x a acc)
    (h' : IsAccount c x a acc') : acc = acc' := by
  obtain ⟨l, hl, ha, hacc⟩ := h
  obtain ⟨l', hl', ha', hacc'⟩ := h'
  obtain rfl := (x.accounts c).eq_of_key hl hl' (key_of_bytesToHash hl hl' (ha.trans ha'.symm))
  exact Option.some.inj (hacc.symm.trans hacc')

/-- The row of a storage leaf. -/
theorem slotLeafRow_shape {a : Hash} {m : Leaf} {r : LoadRow} (h : slotLeafRow x a m = .ok r) :
    ∃ content, x.rlpSplit m.2 = some content ∧
      r = .baseSlot a (bytesToHash m.1) (bytesToHash content) := by
  rw [slotLeafRow] at h
  split at h
  · cases h
  · cases hs : x.rlpSplit m.2 with
    | none => rw [hs] at h; cases h
    | some content =>
      rw [hs] at h
      dsimp only at h
      split at h
      · cases h
      · exact ⟨content, rfl, (Except.ok.inj h).symm⟩

theorem slotLeafRow_ok {a a' k v : Hash} {m : Leaf} (h : slotLeafRow x a m = .ok (.baseSlot a' k v)) :
    a' = a ∧ k = bytesToHash m.1 ∧ ∃ content, x.rlpSplit m.2 = some content ∧ v = bytesToHash content := by
  obtain ⟨content, hsplit, hrow⟩ := slotLeafRow_shape h
  obtain ⟨rfl, rfl, rfl⟩ := LoadRow.baseSlot.inj hrow
  exact ⟨rfl, rfl, content, hsplit, rfl⟩

/-- Rows whose value the leaves determine; queue rows come and go. -/
def fixedRow : LoadRow → Bool
  | .queueStorage _ _ | .dequeueStorage _ => false
  | _ => true

/-- Genuine rows in one place say the same. -/
theorem Genuine.value_eq {r r' : LoadRow} (h : Genuine c x r) (h' : Genuine c x r')
    (hfix : fixedRow r = true) (ht : r.target c.height = r'.target c.height) :
    r'.value = r.value := by
  cases r with
  | account _ _ => exact h.elim
  | slot _ _ _ => exact h.elim
  | queueStorage _ _ => cases hfix
  | dequeueStorage _ => cases hfix
  | code hash blob =>
    cases r' with
    | code hash' blob' =>
      obtain rfl := Row.code.inj ht
      obtain rfl : blob = blob' := Option.some.inj (Eq.trans (Eq.symm h) h')
      rfl
    | _ => cases ht
  | baseAccount a acct =>
    cases r' with
    | baseAccount a' acct' =>
      obtain rfl := Row.baseAccount.inj ht
      obtain ⟨acc, hacc, rfl⟩ := h
      obtain ⟨acc', hacc', rfl⟩ := h'
      rw [hacc.unique hacc']
    | _ => cases ht
  | baseSlot a k v =>
    cases r' with
    | baseSlot a' k' v' =>
      obtain ⟨rfl, rfl⟩ := Row.baseSlot.inj ht
      obtain ⟨acc, hacc, -, m, hm, hrow⟩ := h
      obtain ⟨acc', hacc', -, m', hm', hrow'⟩ := h'
      obtain rfl := hacc.unique hacc'
      have hkey : bytesToHash m.1 = bytesToHash m'.1 :=
        (slotLeafRow_ok hrow).2.1.symm.trans (slotLeafRow_ok hrow').2.1
      obtain rfl := Leaves.eq_of_key _ hm hm' (key_of_bytesToHash hm hm' hkey)
      rw [LoadRow.value, (LoadRow.baseSlot.inj (Except.ok.inj (hrow.symm.trans hrow'))).2.2]
      rfl
    | _ => cases ht

/-- What is in the store stays there. -/
theorem Has.run {r r' : LoadRow} (hr : Genuine c x r) (hfix : fixedRow r = true)
    (hr' : Genuine c x r') (h : Has c e r) : Has c ((r'.op c.height).run e) r := by
  rw [Has, row_run]
  split
  · rename_i ht
    exact hr.value_eq hr' hfix ht
  · exact h

theorem has_run_self (e : Env) (r : LoadRow) : Has c ((r.op c.height).run e) r := by
  rw [Has, row_run, if_pos rfl]

theorem Has.foldl {r : LoadRow} (hr : Genuine c x r) (hfix : fixedRow r = true) {ops : List BlOp}
    (hops : ∀ op ∈ ops, GenuineOp c x op) (h : Has c e r) : Has c (ops.foldl BlOp.run e) r := by
  refine foldl_keeps (P := fun e => Has c e r) h hops ?_
  rintro e op ⟨r', hr', rfl⟩ hhas
  exact hhas.run hr hfix hr'

theorem Genuine.target_space {r : LoadRow} (hr : Genuine c x r) (h : UInt64) :
    (r.target h).space ≠ prefMeta := by
  cases r with
  | account _ _ => exact hr.elim
  | slot _ _ _ => exact hr.elim
  | _ =>
    rw [LoadRow.target, Row.space]
    decide

theorem Has.agree {r : LoadRow} (hr : Genuine c x r) (hag : Agree e e') (h : Has c e r) :
    Has c e' r := by
  rw [Has, ← hag.row (hr.target_space c.height)]
  exact h

theorem Exact.agree (h : Exact c x e) (hag : Agree e e') : Exact c x e' := by
  intro r v hr hrow
  exact h r v hr ((hag.row hr).trans hrow)

theorem Exact.run (h : Exact c x e) {r : LoadRow} (hr : Genuine c x r) :
    Exact c x ((r.op c.height).run e) := by
  intro r' v hspace hrow
  rw [row_run] at hrow
  split at hrow
  · rename_i ht
    exact ⟨r, hr, ht.symm, hrow⟩
  · exact h r' v hspace hrow

theorem Exact.foldl (h : Exact c x e) {ops : List BlOp} (hops : ∀ op ∈ ops, GenuineOp c x op) :
    Exact c x (ops.foldl BlOp.run e) := by
  refine foldl_keeps h hops ?_
  rintro e op ⟨r, hr, rfl⟩ hex
  exact hex.run hr

theorem Exact.empty : Exact c x OrdMap.empty := by
  intro r v _ h
  rw [row_empty] at h
  cases h

theorem laid_foldl {ops : List BlOp} (h : Laid e) (hops : ∀ op ∈ ops, GenuineOp c x op) :
    Laid (ops.foldl BlOp.run e) := by
  refine foldl_keeps h hops ?_
  rintro e op ⟨r, -, rfl⟩ hl
  exact hl.run c.height r

end Rows

/-! ## The flow of rows -/

/-- Nothing but genuine rows is on its way, and `P` holds after each of them. -/
structure Flow (c : Config) (x : Chain) (P : Env → Prop) (s : Load) : Prop where
  height : s.bl.s = c.height
  laid : Laid s.db
  exact : Exact c x s.db
  genuine : ∀ op ∈ s.ops, GenuineOp c x op
  along : Along BlOp.run P s.db s.ops

/-- The property does not look at meta rows. -/
def Unmeta (P : Env → Prop) : Prop := ∀ e e', Agree e e' → P e → P e'

namespace Flow

variable {c : Config} {x : Chain} {P Q : Env → Prop} {s s' : Load}

theorem now (h : Flow c x P s) : P s.db := h.along.now

theorem at_view (h : Flow c x P s) : P s.view := h.along.done

theorem imp (h : Flow c x P s) (hPQ : ∀ e, P e → Q e) : Flow c x Q s :=
  { h with along := h.along.imp hPQ }

/-- Moving rows along changes nothing. -/
theorem same (h : Flow c x P s) (hs : s'.bl.s = s.bl.s) (hdb : s'.db = s.db)
    (hops : s'.ops = s.ops) : Flow c x P s' where
  height := hs.trans h.height
  laid := hdb ▸ h.laid
  exact := hdb ▸ h.exact
  genuine := hops ▸ h.genuine
  along := by rw [hdb, hops]; exact h.along

/-- Committing a prefix. -/
theorem commit (hP : Unmeta P) (h : Flow c x P s) (hs : s'.bl.s = s.bl.s) {ws : List BlOp}
    (hops : s.ops = ws ++ s'.ops) (hdb : Agree (ws.foldl BlOp.run s.db) s'.db)
    (hlaid : Laid (ws.foldl BlOp.run s.db) → Laid s'.db) : Flow c x P s' := by
  have hgen := h.genuine
  have halong := h.along
  rw [hops] at hgen halong
  have hws : ∀ op ∈ ws, GenuineOp c x op := fun op hop => hgen op (by simp [hop])
  exact {
    height := hs.trans h.height
    laid := hlaid (laid_foldl h.laid hws)
    exact := (h.exact.foldl hws).agree hdb
    genuine := fun op hop => hgen op (by simp [hop])
    along := (along_append.mp halong).2.congr hdb (fun _ _ op h => h.run op) hP }

theorem flush (hP : Unmeta P) (h : Flow c x P s) : Flow c x P s.flush := by
  refine h.commit hP ?_ s.ops_flush ?_ ?_
  · rw [Load.flush_eq]
  · rw [Load.db_flush]
    exact Agree.flushed s.bl s.db
  · intro hlaid
    rw [Load.db_flush, Baseline.flushed]
    cases s.bl.progress with
    | none => exact hlaid
    | some p => exact hlaid.put .baselineProgress p

/-- Appending rows is where something has to be shown. -/
theorem emit (h : Flow c x P s) (hbl : s'.bl = s.bl) (hdb : s'.db = s.db) {rows : List LoadRow}
    (hrows : s'.rows = s.rows ++ rows) (hgen : ∀ r ∈ rows, Genuine c x r)
    (halong : Along BlOp.run P s.view (rows.map (LoadRow.op c.height))) : Flow c x P s' := by
  have hops : s'.ops = s.ops ++ rows.map (LoadRow.op c.height) := by
    rw [Load.ops, Load.ops, hbl, hrows, List.map_append, h.height, List.append_assoc]
  exact {
    height := hbl ▸ h.height
    laid := hdb ▸ h.laid
    exact := hdb ▸ h.exact
    genuine := by
      intro op hop
      rw [hops, List.mem_append, List.mem_map] at hop
      rcases hop with hop | ⟨r, hr, rfl⟩
      · exact h.genuine op hop
      · exact ⟨r, hgen r hr, rfl⟩
    along := by
      rw [hops, hdb]
      exact along_append.mpr ⟨h.along, halong⟩ }

end Flow

/-! ## What a step does to the flow -/

/-- `Baseline.Finish` commits the buffer, without the bitmap, and then sets the mark if no
queue row is left. -/
theorem Baseline.finish_ok {bl bl' : Baseline} {db db' : Env} {h h' : Handle}
    (hfinish : bl.finish true true db h = (.ok (), bl', db', h')) :
    bl' = { bl with ops := [], progress := none } ∧
      firstQueued (bl.ops.foldl BlOp.run db) = none ∧
      db' = ((bl.ops.foldl BlOp.run db).del metaBaselineProgress).put metaBaselineComplete [1] := by
  have hflush : bl.clearProgress.flush true db =
      (.ok (), { bl with ops := [], progress := none }, bl.ops.foldl BlOp.run db) := by
    rw [Baseline.flush_true]
    rfl
  rw [Baseline.finish, hflush] at hfinish
  dsimp only at hfinish
  cases hq : firstQueued (bl.ops.foldl BlOp.run db) with
  | some k =>
    rw [hq] at hfinish
    simp at hfinish
  | none =>
    rw [hq] at hfinish
    simp only [if_true, Prod.mk.injEq, true_and] at hfinish
    exact ⟨hfinish.1.symm, rfl, hfinish.2.1.symm⟩

/-- The rows a step appends. -/
inductive Emits (c : Config) (x : Chain) (s : Load) (ev : Option Event) : List LoadRow → Prop
  | nothing : Emits c x s ev []
  | segment {i : UInt8} {b : Bundle} {w : SegWorker} {claims : List Hash}
      (hphase : s.phase = .walking)
      (hstep : SegStep c x i (s.segs i, s.claims) (some b) (w, claims)) : Emits c x s ev b.apply
  | work {t : Task} {b : Bundle} {st : TaskState} (ht : t ∈ s.tasks)
      (hstep : TaskStep c x s.db t.addrHash t.root t.state (some b) ev st) : Emits c x s ev b.apply
  | sweep {missing : List Hash} {rows : List LoadRow} (hrows : sweepRows x missing = .ok rows) :
      Emits c x s ev rows

/-- What was said about the flow carries over, once it is shown for the appended rows. -/
structure Flows (c : Config) (x : Chain) (s s' : Load) (rows : List LoadRow) : Prop where
  view : Agree ((rows.map (LoadRow.op c.height)).foldl BlOp.run s.view) s'.view
  flow : ∀ P, Unmeta P → Flow c x P s → (∀ r ∈ rows, Genuine c x r) →
    Along BlOp.run P s.view (rows.map (LoadRow.op c.height)) → Flow c x P s'
  grows : (∀ op ∈ s.ops, GenuineOp c x op) → ∀ r, Genuine c x r → fixedRow r = true →
    Has c s.db r → Has c s'.db r
  keeps : (∀ op ∈ s.ops, GenuineOp c x op) → (∀ r ∈ rows, Genuine c x r) →
    ∀ op ∈ s'.ops, GenuineOp c x op

namespace Flows

variable {c : Config} {x : Chain} {s s' t : Load} {rows : List LoadRow}

theorem same (hs : s'.bl.s = s.bl.s) (hdb : s'.db = s.db) (hops : s'.ops = s.ops) :
    Flows c x s s' [] where
  view := by
    have hview : s'.view = s.view := by rw [Load.view, Load.view, hops, hdb]
    rw [hview]
    exact Agree.refl _
  flow _ _ h _ _ := h.same hs hdb hops
  grows _ r _ _ hhas := hdb ▸ hhas
  keeps hgen _ := hops ▸ hgen

/-- Nothing moves. -/
theorem idle (hbl : s'.bl = s.bl) (hdb : s'.db = s.db) (hqueue : s'.queue = s.queue)
    (hphase : s'.phase.rows = s.phase.rows) : Flows c x s s' [] :=
  same (by rw [hbl]) hdb (by rw [Load.ops, Load.ops, Load.rows, Load.rows, hbl, hqueue, hphase])

theorem emit (hs : s.bl.s = c.height) (hbl : s'.bl = s.bl) (hdb : s'.db = s.db)
    (hrows : s'.rows = s.rows ++ rows) : Flows c x s s' rows where
  view := by
    have hview : s'.view = (rows.map (LoadRow.op c.height)).foldl BlOp.run s.view := by
      rw [Load.view, Load.view, Load.ops, Load.ops, hbl, hdb, hrows, List.map_append,
        ← List.append_assoc, List.foldl_append, hs]
    rw [hview]
    exact Agree.refl _
  flow _ _ h hgen halong := h.emit hbl hdb hrows hgen halong
  grows _ r _ _ hhas := hdb ▸ hhas
  keeps hold hgen := by
    intro op hop
    rw [Load.ops, hbl, hrows, List.map_append, ← List.append_assoc, List.mem_append] at hop
    rcases hop with hop | hop
    · exact hold op hop
    · obtain ⟨r, hr, rfl⟩ := List.mem_map.mp hop
      exact ⟨r, hgen r hr, by rw [hs]⟩

theorem flush (s : Load) : Flows c x s s.flush [] where
  view := s.view_flush
  flow _ hP h _ _ := h.flush hP
  grows hgen r hr hfix hhas := by
    rw [Load.db_flush]
    refine (hhas.foldl hr hfix fun op hop => hgen op ?_).agree hr (Agree.flushed s.bl s.db)
    exact List.mem_append_left _ hop
  keeps hgen _ op hop := hgen op (by rw [s.ops_flush]; exact List.mem_append_right _ hop)

theorem trans (h : Flows c x s s' []) (h' : Flows c x s' t rows) : Flows c x s t rows where
  view := (h.view.foldl _).trans h'.view
  flow P hP hflow hgen halong :=
    h'.flow P hP (h.flow P hP hflow (fun r hr => by simp at hr) hflow.at_view) hgen
      (halong.congr h.view (fun _ _ op h => h.run op) hP)
  grows hgen r hr hfix hhas :=
    h'.grows (h.keeps hgen (fun r hr => by simp at hr)) r hr hfix (h.grows hgen r hr hfix hhas)
  keeps hgen hrows := h'.keeps (h.keeps hgen (fun r hr => by simp at hr)) hrows

end Flows

theorem Load.rows_send (s : Load) (b : Bundle) (hphase : s.phase.rows = []) :
    ({ s with writes := s.writes ++ [b] } : Load).rows = s.rows ++ b.apply := by
  simp [Load.rows, Load.queue, hphase]

/-- A row that is first in line goes into the buffer; a full buffer is flushed. -/
theorem Load.load_line (s : Load) (r : LoadRow) (cur : Option Bundle) (phase : Phase) :
    ({ s.load r with cur, phase } : Load) = { s.push r with cur, phase } ∨
      ({ s.load r with cur, phase } : Load) = ({ s.push r with cur, phase } : Load).flush := by
  rcases s.load_cases r with h | h
  · exact Or.inl (by rw [h])
  · exact Or.inr (by rw [h, Load.flush_eq, Load.flush_eq])

theorem Load.ops_push {s : Load} {r : LoadRow} {cur : Option Bundle} {phase : Phase}
    (hrows : s.rows = r :: ({ s with cur, phase } : Load).rows) :
    ({ s.push r with cur, phase } : Load).ops = s.ops := by
  rw [Load.ops, Load.ops, hrows]
  simp [Load.push, Load.rows, Load.queue]

theorem Flows.load {c : Config} {x : Chain} {s : Load} {r : LoadRow} {cur : Option Bundle}
    {phase : Phase} (hrows : s.rows = r :: ({ s with cur, phase } : Load).rows) :
    Flows c x s { s.load r with cur, phase } [] := by
  have hpush : Flows c x s { s.push r with cur, phase } [] :=
    Flows.same rfl rfl (Load.ops_push hrows)
  rcases s.load_line r cur phase with h | h
  · rw [h]
    exact hpush
  · rw [h]
    exact hpush.trans (Flows.flush _)

/-- A bundle whose rows are all in the buffer is put aside. -/
theorem Flows.applied {c : Config} {x : Chain} {s : Load} {b : Bundle} (hcur : s.cur = some b)
    (hrows : b.apply = []) : Flows c x s { s.mark b.final with cur := none } [] := by
  refine .same ?_ ?_ ?_
  · cases b.final <;> rfl
  · cases b.final <;> rfl
  · cases b.final <;>
      simp [Load.mark, Load.ops, Load.rows, Load.queue, Baseline.setProgress, hcur, hrows]

/-- One lemma for all steps: a step appends the rows it emits and moves or commits the rest. -/
theorem Step.flows {c : Config} {x : Chain} {s s' : Load} {ev : Option Event}
    (hstep : Step c x s ev s') (hs : s.bl.s = c.height) :
    ∃ rows, Emits c x s ev rows ∧ Flows c x s s' rows := by
  cases hstep with
  | spawn hphase hseg hlimit => exact ⟨[], .nothing, .idle rfl rfl rfl rfl⟩
  | @segment i out w claims hphase hroom hstep =>
    have hrows : s.phase.rows = [] := by rw [hphase]; rfl
    cases out with
    | none => exact ⟨[], .nothing, .idle rfl rfl (by simp [Load.queue]) rfl⟩
    | some b => exact ⟨b.apply, .segment hphase hstep, .emit hs rfl rfl (s.rows_send b hrows)⟩
  | take hcur hwrites =>
    exact ⟨[], .nothing, .idle rfl rfl (by simp [Load.queue, hcur, hwrites]) rfl⟩
  | add hcur hrows =>
    refine ⟨[], .nothing, ?_⟩
    exact @Flows.load c x s _ _ s.phase (by simp [Load.rows, Load.queue, hcur, hrows])
  | applied hcur hrows hbarrier => exact ⟨[], .nothing, Flows.applied hcur hrows⟩
  | @fenced b hphase hcur hrows hbarrier =>
    refine ⟨[], .nothing, (Flows.applied hcur hrows).trans ((Flows.flush _).trans ?_)⟩
    have hp : (s.mark b.final).phase = .fencing := by
      rw [← hphase]
      cases b.final <;> rfl
    rw [Load.flush_eq, Load.flush_eq]
    exact .idle rfl rfl rfl (by rw [hp]; rfl)
  | walked hphase hall | drained hphase hall =>
    exact ⟨[], .nothing, .idle rfl rfl rfl (by rw [hphase]; rfl)⟩
  | fence hphase hroom =>
    refine ⟨[], .nothing, .same rfl rfl ?_⟩
    simp [Load.ops, Load.rows, Load.queue, hphase, Phase.rows]
  | scanned hphase _ | scan _ hphase _ | task hphase _ | batch hphase =>
    exact ⟨[], .nothing, .idle rfl rfl rfl (by rw [hphase]; rfl)⟩
  | @work before after t out ev st hphase htasks hroom hstep =>
    have hrows : s.phase.rows = [] := by
      cases hp : s.phase <;> rw [hp] at hphase <;> first | rfl | cases hphase
    cases out with
    | none => exact ⟨[], .nothing, .idle rfl rfl (by simp [Load.queue]) rfl⟩
    | some b =>
      exact ⟨b.apply, .work (by simp [htasks]) hstep, .emit hs rfl rfl (s.rows_send b hrows)⟩
  | sweep hphase hcur hwrites hmissing hrows =>
    refine ⟨_, .sweep hrows, (Flows.flush s).trans (.emit ?_ rfl rfl ?_)⟩
    · rw [Load.flush_eq]
      exact hs
    · rw [Load.flush_eq]
      simp [Load.rows, Load.queue, hcur, hwrites, hphase, Phase.rows]
  | swept hphase hcur hwrites =>
    refine ⟨[], .nothing, ?_⟩
    exact @Flows.load c x s _ s.cur _
      (by simp [Load.rows, Load.queue, hcur, hwrites, hphase, Phase.rows])
  | finish hphase hfinish =>
    obtain ⟨rfl, -, rfl⟩ := Baseline.finish_ok hfinish
    have hops : s.ops = s.bl.ops ++ ({ s with
        bl := { s.bl with ops := [], progress := none }
        db := ((s.bl.ops.foldl BlOp.run s.db).del metaBaselineProgress).put metaBaselineComplete [1]
        phase := .returned } : Load).ops := by
      simp [Load.ops, Load.rows, Load.queue, hphase, Phase.rows]
    have hag : Agree (s.bl.ops.foldl BlOp.run s.db)
        (((s.bl.ops.foldl BlOp.run s.db).del metaBaselineProgress).put metaBaselineComplete [1]) :=
      (Agree.del_meta _ (r := .baselineProgress) rfl).trans
        (Agree.put_meta _ (r := .baselineComplete) rfl [1])
    refine ⟨[], .nothing, ?_, fun P hP h _ _ => h.commit hP rfl hops hag ?_, ?_, ?_⟩
    · rw [Load.view, hops, List.map_nil, List.foldl_nil, List.foldl_append]
      exact hag.foldl _
    · exact fun hlaid => (hlaid.del .baselineProgress).put .baselineComplete [1]
    · intro hgen r hr hfix hhas
      refine (hhas.foldl hr hfix fun op hop => hgen op ?_).agree hr hag
      exact List.mem_append_left _ hop
    · intro hgen _ op hop
      exact hgen op (by rw [hops]; exact List.mem_append_right _ hop)

end Flatstate.Sync
