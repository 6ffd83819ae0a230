import Flatstate.Store.Build

set_option autoImplicit false

/-!
# Store: a read while the baseline is being loaded

A read takes its snapshots one after another: the genesis check, the read itself and, when
nothing was found, the baseline-complete check.  Meanwhile the loader of another process
commits: flushes of hash-keyed rows, which have the values they keep, and `Finish` when all
of them are there.  `full` is the environment at the end of the load.

A miss in an old snapshot followed by a completeness check in a new one is a known zero
that the baseline does not have; `Torn` is that situation, and nothing else goes wrong.
-/

namespace Flatstate.Store

open Foundation Schema Capture

/-! ## The commits of a loader -/

/-- A hash-keyed row of the baseline. -/
def isBase : Row → Bool
  | .baseAccount _ | .baseSlot _ _ => true
  | _ => false

/-- A row no commit of the loader touches. -/
def isSteady : Row → Bool
  | .genesis | .finalized | .history _ _ | .diff _ => true
  | _ => false

/-- The rows of the hash-keyed loader. -/
def LoadRow.isHashed : LoadRow → Bool
  | .account _ _ | .slot _ _ _ => false
  | _ => true

/-- A commit of the loader whose load ends in `full`. -/
inductive Commit (full : Env) : Env → Env → Prop where
  /-- a flush: its baseline rows have the values they keep -/
  | flush {env : Env} (bl : Baseline) (rows : List LoadRow)
      (hops : bl.ops = rows.map (LoadRow.op bl.s)) (hhashed : ∀ r ∈ rows, r.isHashed = true)
      (hfinal : ∀ r ∈ rows, isBase (r.target bl.s) = true → row full (r.target bl.s) = r.value) :
      Commit full env (bl.flushed env)
  /-- the watermark of `Finish`, when everything has been flushed -/
  | finish {env : Env} (hqueue : firstQueued env = none)
      (hall : ∀ r, isBase r = true → row env r = row full r) :
      Commit full env ((env.del metaBaselineProgress).put metaBaselineComplete [1])

/-- Any number of commits. -/
abbrev Commits (full : Env) : Env → Env → Prop := Relation.ReflTransGen (Commit full)

/-- An environment on the way to `full`. -/
structure Part (full env : Env) : Prop where
  laid : Laid env
  /-- a baseline row that is there has the value it keeps -/
  base : ∀ r, isBase r = true → row env r = none ∨ row env r = row full r
  /-- under the watermark all of them are there -/
  done : row env .baselineComplete ≠ none → ∀ r, isBase r = true → row env r = row full r

section

variable {full env env' : Env}

theorem target_hashed {s : UInt64} {l : LoadRow} (h : l.isHashed = true) :
    isSteady (l.target s) = false ∧ l.target s ≠ .baselineComplete := by
  cases l with
  | account addr a => cases h
  | slot addr key val => cases h
  | _ => exact ⟨rfl, by simp [LoadRow.target]⟩

/-- What the rows of a flush leave under a row: the value one of them puts there, or what
was there. -/
theorem row_foldl_cases (s : UInt64) (rows : List LoadRow) (env : Env) (r : Row) :
    (∃ l ∈ rows, l.target s = r ∧ row ((rows.map (LoadRow.op s)).foldl BlOp.run env) r = l.value) ∨
      ((∀ l ∈ rows, l.target s ≠ r) ∧
        row ((rows.map (LoadRow.op s)).foldl BlOp.run env) r = row env r) := by
  induction rows using List.reverseRecOn with
  | nil => exact Or.inr ⟨by simp, rfl⟩
  | append_singleton rows l ih =>
    rw [List.map_append, List.foldl_append]
    have hrun := row_run ((rows.map (LoadRow.op s)).foldl BlOp.run env) s l r
    by_cases hl : r = l.target s
    · rw [if_pos hl] at hrun
      exact Or.inl ⟨l, by simp, hl.symm, hrun⟩
    · rw [if_neg hl] at hrun
      rcases ih with ⟨l', hl', ht, hv⟩ | ⟨hne, hv⟩
      · exact Or.inl ⟨l', by simp [hl'], ht, hrun.trans hv⟩
      · refine Or.inr ⟨fun l' hl' => ?_, hrun.trans hv⟩
        rcases List.mem_append.mp hl' with hm | hm
        · exact hne l' hm
        · rw [List.mem_singleton.mp hm]
          exact Ne.symm hl

theorem row_flushed (bl : Baseline) (env : Env) {r : Row} (hr : r ≠ .baselineProgress) :
    row (bl.flushed env) r = row (bl.ops.foldl BlOp.run env) r := by
  rw [Baseline.flushed]
  cases bl.progress with
  | none => rfl
  | some p => exact row_put_of_ne (r := .baselineProgress) _ p hr

theorem Laid.foldl_rows (h : Laid env) (s : UInt64) (rows : List LoadRow) :
    Laid ((rows.map (LoadRow.op s)).foldl BlOp.run env) := by
  induction rows generalizing env with
  | nil => exact h
  | cons l rows ih => exact ih (h.run s l)

theorem Laid.commit (h : Laid env) (hc : Commit full env env') : Laid env' := by
  cases hc with
  | flush bl rows hops hhashed hfinal =>
    rw [Baseline.flushed, hops]
    cases bl.progress with
    | none => exact h.foldl_rows _ _
    | some p => exact (h.foldl_rows _ _).put .baselineProgress p
  | finish hqueue hall => exact (h.del .baselineProgress).put .baselineComplete [1]

theorem row_finish (env : Env) {r : Row} (hp : r ≠ .baselineProgress) (hc : r ≠ .baselineComplete) :
    row ((env.del metaBaselineProgress).put metaBaselineComplete [1]) r = row env r := by
  refine (row_put_of_ne (r := .baselineComplete) _ _ hc).trans ?_
  exact (row_del env .baselineProgress r).trans (if_neg hp)

/-- A commit leaves the steady rows alone. -/
theorem Commit.steady (hc : Commit full env env') {r : Row} (hr : isSteady r = true) :
    row env' r = row env r := by
  have hp : r ≠ .baselineProgress := fun h => by rw [h] at hr; cases hr
  have hd : r ≠ .baselineComplete := fun h => by rw [h] at hr; cases hr
  cases hc with
  | flush bl rows hops hhashed hfinal =>
    rw [row_flushed bl env hp, hops]
    rcases row_foldl_cases bl.s rows env r with ⟨l, hl, rfl, -⟩ | ⟨-, h⟩
    · rw [(target_hashed (hhashed l hl)).1] at hr
      cases hr
    · exact h
  | finish hqueue hall => exact row_finish env hp hd

/-- A commit does not unset the watermark. -/
theorem Commit.complete (hc : Commit full env env') (h : row env .baselineComplete ≠ none) :
    row env' .baselineComplete ≠ none := by
  cases hc with
  | flush bl rows hops hhashed hfinal =>
    rw [row_flushed bl env (by simp), hops]
    rcases row_foldl_cases bl.s rows env .baselineComplete with ⟨l, hl, ht, -⟩ | ⟨-, heq⟩
    · exact absurd ht (target_hashed (hhashed l hl)).2
    · rw [heq]
      exact h
  | finish hqueue hall =>
    have hput := row_put (env.del metaBaselineProgress) .baselineComplete .baselineComplete [1]
    rw [if_pos rfl] at hput
    exact ne_of_eq_of_ne hput (by simp)

/-- A baseline row that a commit changes gets the value it keeps. -/
theorem Commit.base (hc : Commit full env env') {r : Row} (hr : isBase r = true) :
    row env' r = row full r ∨ row env' r = row env r := by
  have hp : r ≠ .baselineProgress := fun h => by rw [h] at hr; cases hr
  have hd : r ≠ .baselineComplete := fun h => by rw [h] at hr; cases hr
  cases hc with
  | flush bl rows hops hhashed hfinal =>
    rw [row_flushed bl env hp, hops]
    rcases row_foldl_cases bl.s rows env r with ⟨l, hl, rfl, hv⟩ | ⟨-, hv⟩
    · exact Or.inl (hv.trans (hfinal l hl hr).symm)
    · exact Or.inr hv
  | finish hqueue hall => exact Or.inr (row_finish env hp hd)

/-- The watermark was set before, or is set over all rows of the baseline. -/
theorem Commit.marks (hc : Commit full env env') (h : row env' .baselineComplete ≠ none) :
    row env .baselineComplete ≠ none ∨ ∀ r, isBase r = true → row env r = row full r := by
  cases hc with
  | flush bl rows hops hhashed hfinal =>
    rw [row_flushed bl env (by simp), hops] at h
    rcases row_foldl_cases bl.s rows env .baselineComplete with ⟨l, hl, ht, -⟩ | ⟨-, heq⟩
    · exact absurd ht (target_hashed (hhashed l hl)).2
    · rw [heq] at h
      exact Or.inl h
  | finish hqueue hall => exact Or.inr hall

theorem Part.commit (h : Part full env) (hc : Commit full env env') : Part full env' := by
  refine ⟨h.laid.commit hc, fun r hr => ?_, fun hd r hr => ?_⟩
  · rcases hc.base hr with heq | heq
    · exact Or.inr heq
    · rw [heq]
      exact h.base r hr
  · have hall : row env r = row full r := (hc.marks hd).elim (fun hd => h.done hd r hr) (· r hr)
    rcases hc.base hr with heq | heq
    · exact heq
    · exact heq.trans hall

theorem Commits.part (h : Part full env) (hc : Commits full env env') : Part full env' := by
  induction hc with
  | refl => exact h
  | tail _ hlast ih => exact ih.commit hlast

theorem Commits.steady (hc : Commits full env env') {r : Row} (hr : isSteady r = true) :
    row env' r = row env r := by
  induction hc with
  | refl => rfl
  | tail _ hlast ih => exact (hlast.steady hr).trans ih

theorem Commits.complete (hc : Commits full env env') (h : row env .baselineComplete ≠ none) :
    row env' .baselineComplete ≠ none := by
  induction hc with
  | refl => exact h
  | tail _ hlast ih => exact hlast.complete ih

end

/-! ## A read across the load -/

/-- One call while the baseline is loaded: the snapshots of its genesis check, its read and
its completeness check, in the order of the commits, and the handle it is made on. -/
structure Across (full : Env) (h : Handle) (e0 e1 e2 : Env) : Prop where
  /-- the store at the first snapshot, as earlier commits have left it -/
  part : Part full e0
  coherent : Coherent h e0
  read : Commits full e0 e1
  check : Commits full e1 e2
  rest : Commits full e2 full
  /-- the load ends with `Finish` -/
  complete : row full .baselineComplete ≠ none

/-- `GetAccount` or `GetSlot` on three snapshots. -/
def readAt (keccak : Bytes → Hash) (h : Handle) (e0 e1 e2 : Env) (at_ : UInt64) :
    (k : Key) → Except Err (Val k)
  | .account a => getAccountAt keccak h e0 e1 e2 a at_
  | .slot a s => getSlotAt keccak h e0 e1 e2 a s at_

/-- The raw row says zero; a row of an account never does. -/
def Key.zeroRow : Key → Bytes → Prop
  | .account _, _ => False
  | .slot _ _, raw => raw = Hash.zero.1

/-- The main read misses a key whose row comes with the baseline, and the check that follows
finds the baseline complete. -/
structure Torn (keccak : Bytes → Hash) (h : Handle) (full e0 e1 e2 : Env) (at_ : UInt64) (k : Key) :
    Prop where
  allowed : checkAt h e0 at_ = .ok ()
  noRow : ∀ b, b ≤ at_ → row e1 (.history k.track b) = none
  noDestruct : ∀ b, b ≤ at_ → row e1 (.history (.destruct k.addr) b) = none
  missing : row e1 (k.baseRow keccak) = none
  comes : ∃ raw, row full (k.baseRow keccak) = some raw ∧ ¬ Key.zeroRow k raw
  found : row e2 .baselineComplete ≠ none

theorem seekLE_congr {env env' : Env} (h : Laid env) (h' : Laid env') {t : Track}
    (hrow : ∀ b, row env (.history t b) = row env' (.history t b)) (at_ : UInt64) :
    seekLE env (t.key at_) = seekLE env' (t.key at_) := by
  cases hs : seekLE env' (t.key at_) with
  | none =>
    rw [seekLE_eq_none_iff h'] at hs
    rw [seekLE_eq_none_iff h]
    intro b hb
    rw [hrow, hs b hb]
  | some bv =>
    obtain ⟨b, v⟩ := bv
    rw [seekLE_eq_some_iff h'] at hs
    rw [seekLE_eq_some_iff h]
    simpa only [hrow] using hs

theorem genesis_congr {h h' : Handle} {env env' : Env} (hc : Coherent h env) (hc' : Coherent h' env')
    (hg : row env .genesis = row env' .genesis) : (genesis h env).1 = (genesis h' env').1 := by
  have hmeta : getMetaU64 env metaGenesis = getMetaU64 env' metaGenesis := getMetaU64_congr hg
  have hplain : ∀ {h : Handle} {env : Env}, Coherent h env →
      (genesis h env).1 = getMetaU64 env metaGenesis := by
    intro h env hc
    rw [genesis]
    split
    · rename_i hne
      exact (getMetaU64_of_row (r := .genesis) (hc.genesis hne)).symm
    · split
      · rename_i heq
        exact heq.symm
      · rfl
  rw [hplain hc, hplain hc', hmeta]

section

variable {keccak : Bytes → Hash} {full e0 e1 e2 : Env} {h : Handle}

theorem Across.part1 (ha : Across full h e0 e1 e2) : Part full e1 := ha.read.part ha.part

theorem Across.part_full (ha : Across full h e0 e1 e2) : Part full full :=
  ha.rest.part (ha.check.part ha.part1)

theorem Across.steady1 (ha : Across full h e0 e1 e2) {r : Row} (hr : isSteady r = true) :
    row e1 r = row full r :=
  ((ha.rest.steady hr).trans (ha.check.steady hr)).symm

theorem Across.seek (ha : Across full h e0 e1 e2) (t : Track) (at_ : UInt64) :
    seekLE e1 (t.key at_) = seekLE full (t.key at_) :=
  seekLE_congr ha.part1.laid ha.part_full.laid (fun _ => ha.steady1 rfl) at_

theorem Across.checkAt (ha : Across full h e0 e1 e2) (at_ : UInt64) :
    checkAt h e0 at_ = checkAt {} full at_ := by
  have hg : row e0 .genesis = row full .genesis :=
    (ha.read.steady rfl).symm.trans (ha.steady1 rfl)
  rw [Store.checkAt, Store.checkAt, genesis_congr ha.coherent (Coherent.fresh full) hg]

theorem Across.missAllowed (ha : Across full h e0 e1 e2) :
    missAllowed h e2 =
      if row e2 .baselineComplete = none then .error .baselineIncomplete else .ok () :=
  missAllowed_eq (ha.coherent.of_rows
    ((ha.check.steady rfl).trans (ha.read.steady rfl))
    (fun hd => ha.check.complete (ha.read.complete hd)))

theorem Across.missAllowed_full (ha : Across full h e0 e1 e2) :
    Store.missAllowed {} full = .ok () := by
  rw [missAllowed_eq (Coherent.fresh full), if_neg ha.complete]

/-- A read that finds a row or a tombstone decides by the main snapshot alone. -/
theorem Across.readAt_of_found (ha : Across full h e0 e1 e2) {at_ : UInt64} {k : Key}
    (hok : Store.checkAt h e0 at_ = .ok ())
    (hfound : ¬ (seekLE e1 (k.track.key at_) = none ∧
      seekLE e1 ((Track.destruct k.addr).key at_) = none)) :
    readAt keccak h e0 e1 e2 at_ k = readAt keccak {} full full full at_ k := by
  have hok' : Store.checkAt {} full at_ = .ok () := (ha.checkAt at_).symm.trans hok
  cases k with
  | account a =>
    have hrow : seekLE full (appendAccountKey [] a at_) = seekLE e1 (appendAccountKey [] a at_) :=
      (ha.seek (.account a) at_).symm
    have hdes : seekLE full (appendDestructKey [] a at_) = seekLE e1 (appendDestructKey [] a at_) :=
      (ha.seek (.destruct a) at_).symm
    rw [readAt, readAt, getAccountAt, getAccountAt, hok, hok', hrow, hdes]
    cases hr : seekLE e1 (appendAccountKey [] a at_) with
    | some p => cases seekLE e1 (appendDestructKey [] a at_) <;> rfl
    | none =>
      cases hd : seekLE e1 (appendDestructKey [] a at_) with
      | some p => rfl
      | none => exact absurd ⟨hr, hd⟩ hfound
  | slot a s =>
    have hrow : seekLE full (appendSlotKey [] a s at_) = seekLE e1 (appendSlotKey [] a s at_) :=
      (ha.seek (.slot a s) at_).symm
    have hdes : seekLE full (appendDestructKey [] a at_) = seekLE e1 (appendDestructKey [] a at_) :=
      (ha.seek (.destruct a) at_).symm
    have hacct : ∀ b, seekLE full (appendAccountKey [] a b) = seekLE e1 (appendAccountKey [] a b) :=
      fun b => (ha.seek (.account a) b).symm
    rw [readAt, readAt, getSlotAt, getSlotAt, hok, hok', hrow, hdes]
    simp only [hacct]
    cases hr : seekLE e1 (appendSlotKey [] a s at_) with
    | some p => cases seekLE e1 (appendDestructKey [] a at_) <;> rfl
    | none =>
      cases hd : seekLE e1 (appendDestructKey [] a at_) with
      | some p => rfl
      | none => exact absurd ⟨hr, hd⟩ hfound

/-- What a baseline row decodes to. -/
def Key.decodeBase : (k : Key) → Bytes → Except Err (Val k)
  | .account _, raw => accountRow raw
  | .slot _ _, raw => slotRow .baseSlotSize raw

/-- Without history, a read is the baseline row, or the known zero if a miss is allowed. -/
theorem readAt_of_miss {at_ : UInt64} {k : Key} (hok : Store.checkAt h e0 at_ = .ok ())
    (hrow : seekLE e1 (k.track.key at_) = none)
    (hdes : seekLE e1 ((Track.destruct k.addr).key at_) = none) :
    readAt keccak h e0 e1 e2 at_ k =
      match row e1 (k.baseRow keccak) with
      | some raw => Key.decodeBase k raw
      | none => (Store.missAllowed h e2).map fun _ => Val.gone k := by
  cases k with
  | account a =>
    have hrow' : seekLE e1 (appendAccountKey [] a at_) = none := hrow
    have hdes' : seekLE e1 (appendDestructKey [] a at_) = none := hdes
    have hbase : e1.get (appendBaseAccountKey [] (keccak a.1)) =
      row e1 ((Key.account a).baseRow keccak) := rfl
    rw [readAt, getAccountAt, hok, hrow', hdes', hbase]
    cases row e1 ((Key.account a).baseRow keccak) with
    | some raw => rfl
    | none => cases Store.missAllowed h e2 <;> rfl
  | slot a s =>
    have hrow' : seekLE e1 (appendSlotKey [] a s at_) = none := hrow
    have hdes' : seekLE e1 (appendDestructKey [] a at_) = none := hdes
    have hbase : e1.get (appendBaseSlotKey [] (keccak a.1) (keccak s.1)) =
      row e1 ((Key.slot a s).baseRow keccak) := rfl
    rw [readAt, getSlotAt, hok, hrow', hdes', hbase]
    cases row e1 ((Key.slot a s).baseRow keccak) with
    | some raw => rfl
    | none => cases Store.missAllowed h e2 <;> rfl

/-- A row decodes to the value of a missing key only if it says zero. -/
theorem decodeBase_gone_iff (k : Key) (raw : Bytes) :
    Key.decodeBase k raw = .ok (Val.gone k) ↔ Key.zeroRow k raw := by
  cases k with
  | account a =>
    simp only [Key.decodeBase, Key.zeroRow, iff_false, accountRow, Val.gone]
    cases decodeAccount raw <;> simp
  | slot a s =>
    simp only [Key.decodeBase, Key.zeroRow, slotRow, Val.gone]
    constructor
    · intro h
      split at h
      · exact congrArg Subtype.val (Except.ok.inj h)
      · cases h
    · rintro rfl
      rw [dif_pos Hash.zero.2]

/-- A call during the load fails, or returns what it returns once the load has ended, exactly
if its snapshots are not torn. -/
theorem read_across_iff (ha : Across full h e0 e1 e2) (at_ : UInt64) (k : Key) :
    ((∃ e, readAt keccak h e0 e1 e2 at_ k = .error e) ∨
      readAt keccak h e0 e1 e2 at_ k = readAt keccak {} full full full at_ k) ↔
        ¬ Torn keccak h full e0 e1 e2 at_ k := by
  cases hok : Store.checkAt h e0 at_ with
  | error e =>
    have hread : readAt keccak h e0 e1 e2 at_ k = .error e := by
      cases k <;> rw [readAt] <;> simp only [getAccountAt, getSlotAt, hok]
    refine iff_of_true (Or.inl ⟨e, hread⟩) fun ht => ?_
    rw [ht.allowed] at hok
    cases hok
  | ok u =>
    have hok' : Store.checkAt {} full at_ = .ok () := (ha.checkAt at_).symm.trans hok
    have hrows : seekLE e1 (k.track.key at_) = none ↔
        ∀ b, b ≤ at_ → row e1 (.history k.track b) = none := seekLE_eq_none_iff ha.part1.laid
    have hdess : seekLE e1 ((Track.destruct k.addr).key at_) = none ↔
        ∀ b, b ≤ at_ → row e1 (.history (.destruct k.addr) b) = none :=
      seekLE_eq_none_iff ha.part1.laid
    by_cases hmiss : seekLE e1 (k.track.key at_) = none ∧
      seekLE e1 ((Track.destruct k.addr).key at_) = none
    · obtain ⟨hrow, hdes⟩ := hmiss
      have hfull : readAt keccak {} full full full at_ k = _ := readAt_of_miss hok'
        ((ha.seek _ _).symm.trans hrow) ((ha.seek _ _).symm.trans hdes)
      rw [readAt_of_miss hok hrow hdes, hfull, ha.missAllowed, ha.missAllowed_full]
      cases hbase : row e1 (k.baseRow keccak) with
      | some raw =>
        -- a row that is there has the value it keeps
        have hkeep : row full (k.baseRow keccak) = some raw := by
          rcases ha.part1.base (k.baseRow keccak) (by cases k <;> rfl) with h | h
          · rw [hbase] at h
            cases h
          · rw [← h, hbase]
        refine iff_of_true (Or.inr (by rw [hkeep])) fun ht => ?_
        rw [ht.missing] at hbase
        cases hbase
      | none =>
        by_cases hset : row e2 .baselineComplete = none
        · refine iff_of_true (Or.inl ⟨.baselineIncomplete, by rw [if_pos hset]; rfl⟩) fun ht => ?_
          exact ht.found hset
        · rw [if_neg hset]
          cases hcomes : row full (k.baseRow keccak) with
          | none =>
            refine iff_of_true (Or.inr rfl) fun ht => ?_
            obtain ⟨raw, hraw, -⟩ := ht.comes
            rw [hcomes] at hraw
            cases hraw
          | some raw =>
            have hgone := decodeBase_gone_iff k raw
            constructor
            · rintro (⟨e, he⟩ | heq) ht
              · cases he
              · obtain ⟨raw', hraw, hne⟩ := ht.comes
                rw [hcomes] at hraw
                cases hraw
                exact hne (hgone.mp heq.symm)
            · intro ht
              by_contra hno
              refine ht ⟨hok, hrows.mp hrow, hdess.mp hdes, hbase, ⟨raw, hcomes, fun hz => ?_⟩, hset⟩
              exact hno (Or.inr (hgone.mpr hz).symm)
    · refine iff_of_true (Or.inr (ha.readAt_of_found hok hmiss)) fun ht => hmiss ?_
      exact ⟨hrows.mpr ht.noRow, hdess.mpr ht.noDestruct⟩

end

namespace Sample

/-- The store the loader starts on. -/
def opened : Env := putMeta OrdMap.empty metaGenesis (beBytes 5)

def rows : List LoadRow :=
  [.baseAccount (digest addr.1) (acct 10),
    .baseSlot (digest addr.1) (digest slot0.1) (FixedBytes.ofNat 32 7)]

theorem opened_part : Part finished.env opened where
  laid := Laid.empty.put .genesis _
  base r hr := by
    refine Or.inl (row_put_of_ne (r := .genesis) _ _ fun h => ?_)
    rw [h] at hr
    cases hr
  done hd := absurd (by decide +kernel) hd

theorem flush_commit : Commit finished.env opened loaded :=
  .flush ⟨5, rows.map (LoadRow.op 5), none⟩ rows rfl (by decide) (by decide +kernel)

theorem finish_commit : Commit finished.env loaded finished.env := by
  refine .finish (by decide +kernel) fun r hr => (row_finish loaded ?_ ?_).symm
  · intro h
    rw [h] at hr
    cases hr
  · intro h
    rw [h] at hr
    cases hr

theorem loads : Commits finished.env opened finished.env :=
  (Relation.ReflTransGen.single flush_commit).tail finish_commit

end Sample

/-- Both commits fall between the main read and the completeness check: the account and its
slot are reported as missing, and the finished store has both. -/
theorem known_zero_from_old_snapshot :
    Across Sample.finished.env {} Sample.opened Sample.opened Sample.finished.env ∧
      readAt Sample.digest {} Sample.opened Sample.opened Sample.finished.env 5
          (.account Sample.addr) = .ok (none : Option Account) ∧
      readAt Sample.digest {} Sample.finished.env Sample.finished.env Sample.finished.env 5
          (.account Sample.addr) = .ok (some (Sample.acct 10) : Option Account) ∧
      readAt Sample.digest {} Sample.opened Sample.opened Sample.finished.env 5
          (.slot Sample.addr Sample.slot0) = .ok Hash.zero ∧
      readAt Sample.digest {} Sample.finished.env Sample.finished.env Sample.finished.env 5
          (.slot Sample.addr Sample.slot0) = .ok (FixedBytes.ofNat 32 7 : Hash) := by
  refine ⟨⟨Sample.opened_part, Coherent.fresh _, .refl, Sample.loads, .refl, by decide +kernel⟩, ?_⟩
  decide +kernel

/-- A read on the loaded rows, checked before or after `Finish`, is right. -/
theorem read_across_iff_loaded :
    (∃ e, readAt Sample.digest {} Sample.opened Sample.loaded Sample.finished.env 5
        (.slot Sample.addr Sample.slot0) = .error e) ∨
      readAt Sample.digest {} Sample.opened Sample.loaded Sample.finished.env 5
          (.slot Sample.addr Sample.slot0) =
        readAt Sample.digest {} Sample.finished.env Sample.finished.env Sample.finished.env 5
          (.slot Sample.addr Sample.slot0) := by
  have ha : Across Sample.finished.env {} Sample.opened Sample.loaded Sample.finished.env :=
    ⟨Sample.opened_part, Coherent.fresh _, .single Sample.flush_commit, .single Sample.finish_commit,
      .refl, by decide +kernel⟩
  refine (read_across_iff ha 5 (.slot Sample.addr Sample.slot0)).mpr fun ht => ?_
  have hmiss : row Sample.loaded ((Key.slot Sample.addr Sample.slot0).baseRow Sample.digest) ≠ none := by
    decide +kernel
  exact hmiss ht.missing

end Flatstate.Store
