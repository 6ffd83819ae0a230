import Flatstate.Exec.TipCode
import Flatstate.Sync.Giants

set_option autoImplicit false

/-!
# Sync: reading what the loader has loaded

The runs of the loader are bulk loads in the sense of `Store.Built`: of the state that the
leaves of the chain stand for, which is `Chain.base`.  What is known of stores built that way
then holds of the loader's store, under a run, between two, and below the blocks written on top
of it once a run has returned.
-/

namespace Flatstate.Sync

open Foundation Schema Capture Store

/-! ## The state of the chain -/

/-- The value of a leaf. -/
def Leaves.find (t : Leaves) (key : Hash) : Option Bytes :=
  (t.list.find? fun l => decide (bytesToHash l.1 = key)).map Prod.snd

theorem Leaves.find_eq_some {t : Leaves} {key : Hash} {v : Bytes} :
    t.find key = some v ↔ ∃ l ∈ t.list, bytesToHash l.1 = key ∧ l.2 = v := by
  rw [Leaves.find, Option.map_eq_some_iff]
  constructor
  · rintro ⟨l, hl, rfl⟩
    have hkey := List.find?_some hl
    exact ⟨l, List.mem_of_find?_eq_some hl, of_decide_eq_true hkey, rfl⟩
  · rintro ⟨l, hl, hkey, rfl⟩
    have hex : (t.list.find? fun l => decide (bytesToHash l.1 = key)).isSome := by
      rw [List.find?_isSome]
      exact ⟨l, hl, decide_eq_true hkey⟩
    obtain ⟨l', hl'⟩ := Option.isSome_iff_exists.mp hex
    refine ⟨l', hl', ?_⟩
    -- keys have one width, so the leaf with the hash is the only one
    have hfound := List.find?_some hl'
    have hkey' : bytesToHash l'.1 = key := of_decide_eq_true hfound
    have hmem' := List.mem_of_find?_eq_some hl'
    rw [t.eq_of_key hmem' hl (key_of_bytesToHash hmem' hl (hkey'.trans hkey.symm))]

/-- The account of a leaf of the account trie. -/
def Chain.account (x : Chain) (c : Config) (addrHash : Hash) : Option StateAccount :=
  ((x.accounts c).find addrHash).bind x.rlpAccount

/-- The value of a leaf of an account's storage trie. -/
def Chain.slot (x : Chain) (c : Config) (addrHash slotHash : Hash) : Option Hash :=
  (x.account c addrHash).bind fun acc =>
    if x.hasStorage acc then
      (((x.trie acc.root addrHash).find slotHash).bind x.rlpSplit).map bytesToHash
    else none

/-- The state at the height of the load. -/
def Chain.base (x : Chain) (c : Config) : Trie where
  accounts addrHash := (x.account c addrHash).map StateAccount.row
  slots := x.slot c

variable {c : Config} {x : Chain} {es : List Event} {s s' : Load} {ev : Option Event}

theorem account_eq_some {a : Hash} {acc : StateAccount} :
    x.account c a = some acc ↔ IsAccount c x a acc := by
  rw [Chain.account, Option.bind_eq_some_iff]
  constructor
  · rintro ⟨v, hv, hacc⟩
    obtain ⟨l, hl, ha, rfl⟩ := Leaves.find_eq_some.mp hv
    exact ⟨l, hl, ha, hacc⟩
  · rintro ⟨l, hl, ha, hacc⟩
    exact ⟨l.2, Leaves.find_eq_some.mpr ⟨l, hl, ha, rfl⟩, hacc⟩

theorem slot_eq_some {a k v : Hash} :
    x.slot c a k = some v ↔ ∃ acc m content, IsAccount c x a acc ∧ x.hasStorage acc = true ∧
      m ∈ (x.trie acc.root a).list ∧ k = bytesToHash m.1 ∧ x.rlpSplit m.2 = some content ∧
      v = bytesToHash content := by
  rw [Chain.slot, Option.bind_eq_some_iff]
  constructor
  · rintro ⟨acc, hacc, hv⟩
    split at hv
    · rename_i hst
      obtain ⟨content, hcontent, rfl⟩ := Option.map_eq_some_iff.mp hv
      obtain ⟨b, hb, hsplit⟩ := Option.bind_eq_some_iff.mp hcontent
      obtain ⟨m, hm, hk, rfl⟩ := Leaves.find_eq_some.mp hb
      exact ⟨acc, m, content, account_eq_some.mp hacc, hst, hm, hk.symm, hsplit, rfl⟩
    · cases hv
  · rintro ⟨acc, m, content, hacc, hst, hm, rfl, hsplit, rfl⟩
    refine ⟨acc, account_eq_some.mpr hacc, ?_⟩
    rw [if_pos hst, Leaves.find_eq_some.mpr ⟨m, hm, rfl, rfl⟩, Option.bind_some, hsplit,
      Option.map_some]

/-- What the loader adds are rows of the state. -/
theorem Genuine.of {r : LoadRow} (h : Genuine c x r) : r.Of x.keccak (x.base c) := by
  cases r with
  | account _ _ => exact h.elim
  | slot _ _ _ => exact h.elim
  | baseAccount a row =>
    obtain ⟨acc, hacc, rfl⟩ := h
    exact Option.map_eq_some_iff.mpr ⟨acc, account_eq_some.mpr hacc, rfl⟩
  | baseSlot a k v =>
    obtain ⟨acc, hacc, hst, m, hm, hrow⟩ := h
    obtain ⟨-, hk, content, hsplit, hv⟩ := slotLeafRow_ok hrow
    exact slot_eq_some.mpr ⟨acc, m, content, hacc, hst, hm, hk, hsplit, hv⟩
  | code _ _ => trivial
  | queueStorage _ _ => trivial
  | dequeueStorage _ => trivial

theorem GenuineOp.of {op : BlOp} (h : GenuineOp c x op) :
    ∃ r : LoadRow, r.Of x.keccak (x.base c) ∧ op = r.op c.height := by
  obtain ⟨r, hr, rfl⟩ := h
  exact ⟨r, hr.of, rfl⟩

/-- With all leaves committed every key of the state has its row. -/
theorem covered {e : Env} (hacc : AccountsExact c x e) (hslots : SlotsExact c x e) :
    Covered x.keccak (x.base c) c.height e := by
  intro k hk
  right
  obtain ⟨v, hv⟩ : ∃ v, row e (k.baseRow x.keccak) = some v := by
    cases k with
    | account a =>
      obtain ⟨r, hr⟩ := Option.ne_none_iff_exists'.mp hk
      obtain ⟨acc, hacc', -⟩ := Option.map_eq_some_iff.mp hr
      exact ⟨_, (hacc _ _).mpr ⟨acc, account_eq_some.mp hacc', rfl⟩⟩
    | slot a k =>
      obtain ⟨v, hv⟩ := Option.ne_none_iff_exists'.mp hk
      obtain ⟨acc, m, content, hacc', hst, hm, hkey, hsplit, -⟩ := slot_eq_some.mp hv
      exact ⟨_, (hslots _ _ _).mpr ⟨acc, m, content, hacc', hst, hm, hkey, hsplit, rfl⟩⟩
  rw [hv]
  simp

/-! ## Runs that have returned -/

/-- The invariant of the end, for any number of runs. -/
theorem Reached.ends (h : Reached c x es (.running s)) : EndInv c x s := by
  generalize hsite : Site.running s = site at h
  induction h generalizing s with
  | fresh => cases hsite
  | cut _ _ => cases hsite
  | begin_ hreach h hbegin ih =>
    obtain rfl := Site.running.inj hsite
    have hphase := (beginRun_parked hbegin).1
    refine ⟨fun hp => ?_, fun hp => ?_, fun hp => ?_⟩
    · rw [hphase] at hp
      cases hp
    · rw [hphase] at hp
      cases hp
    · rw [hphase] at hp
      cases hp
  | step hreach hstep ih =>
    obtain rfl := Site.running.inj hsite
    exact (ih rfl).step hreach.inv hstep

/-- A run that has returned has committed the leaves, whatever was left to it by others. -/
theorem Reached.exact (h : Reached c x es (.running s)) (hret : s.phase = .returned)
    (hag : c.noStorageResume = true ∨ Agreed es) :
    AccountsExact c x s.db ∧ SlotsExact c x s.db := by
  have hacc : AccInv c x es s := h.inv
  have haccounts := accountsExact hacc.flow.exact
    (hacc.phase.walked (hacc.phase.past (by rw [hret]; rfl)))
  refine ⟨haccounts, slotsExact hacc.flow.exact fun a root hq => ?_⟩
  refine (h.slots hag).1.drained a root hq ((h.ends.done hret).2.1 a) fun hnone => ?_
  obtain ⟨acc, hacc', -⟩ := hq
  rw [Site.db, (haccounts a _).mpr ⟨acc, hacc', rfl⟩] at hnone
  cases hnone

/-! ## The rows a loader leaves alone -/

theorem row_flushed {bl : Baseline} {e : Env} (hops : ∀ op ∈ bl.ops, GenuineOp c x op) {r : Row}
    (hr : loaderRow r = false) : row (bl.flushed e) r = row e r :=
  row_flushed_other (fun op hop => (hops op hop).of) hr

theorem row_flush (hops : ∀ op ∈ s.bl.ops, GenuineOp c x op) {r : Row}
    (hr : loaderRow r = false) : row s.flush.db r = row s.db r := by
  rw [Load.db_flush]
  exact row_flushed hops hr

theorem row_load (hops : ∀ op ∈ s.bl.ops, GenuineOp c x op) {l : LoadRow}
    (hop : GenuineOp c x (l.op s.bl.s)) {r : Row} (hr : loaderRow r = false) :
    row (s.load l).db r = row s.db r := by
  rcases s.load_cases l with h | h
  · rw [h]
    rfl
  · rw [h]
    have hpush : ∀ op ∈ (s.push l).bl.ops, GenuineOp c x op := by
      intro op hmem
      rcases List.mem_append.mp hmem with hmem | hmem
      · exact hops op hmem
      · rw [List.mem_singleton.mp hmem]
        exact hop
    exact row_flush hpush hr

theorem bl_mark (s : Load) (final : Option UInt8) :
    (s.mark final).db = s.db ∧ (s.mark final).bl.ops = s.bl.ops := by
  cases final <;> exact ⟨rfl, rfl⟩

/-- The row at the writer is one of those on their way. -/
theorem mem_ops_of_mem_rows {r : LoadRow} (hr : r ∈ s.rows) : r.op s.bl.s ∈ s.ops :=
  List.mem_append_right _ (List.mem_map_of_mem hr)

theorem mem_rows_of_cur {b : Bundle} {r : LoadRow} (hcur : s.cur = some b) (hr : r ∈ b.apply) :
    r ∈ s.rows := by
  refine List.mem_append_left _ (List.mem_flatMap.mpr ⟨b, ?_, hr⟩)
  rw [Load.queue, hcur]
  simp

theorem mem_rows_of_phase {r : LoadRow} (hr : r ∈ s.phase.rows) : r ∈ s.rows :=
  List.mem_append_right _ hr

/-- The mark is not taken back. -/
theorem Step.keeps_mark (hstep : Step c x s ev s') (hops : ∀ op ∈ s.ops, GenuineOp c x op)
    (hset : row s.db .baselineComplete ≠ none) : row s'.db .baselineComplete ≠ none := by
  have hbl : ∀ op ∈ s.bl.ops, GenuineOp c x op := fun op hop => hops op (List.mem_append_left _ hop)
  cases hstep with
  | add hcur hrows =>
    have hop := hops _ (mem_ops_of_mem_rows (mem_rows_of_cur hcur (hrows ▸ List.mem_cons_self)))
    exact (row_load hbl hop (r := .baselineComplete) rfl).symm ▸ hset
  | swept hphase hcur hwrites =>
    have hop := hops _ (mem_ops_of_mem_rows (s := s)
      (mem_rows_of_phase (by rw [hphase]; exact List.mem_cons_self)))
    exact (row_load hbl hop (r := .baselineComplete) rfl).symm ▸ hset
  | @applied b hcur hrows hbarrier => exact (bl_mark s b.final).1.symm ▸ hset
  | @fenced b hphase hcur hrows hbarrier =>
    have hmark := bl_mark s b.final
    have hrow : row (s.mark b.final).flush.db .baselineComplete = row s.db .baselineComplete :=
      (row_flush (hmark.2.symm ▸ hbl) rfl).trans (by rw [hmark.1])
    exact hrow.symm ▸ hset
  | sweep hphase hcur hwrites hmissing hrows =>
    exact (row_flush hbl (r := .baselineComplete) rfl).symm ▸ hset
  | finish hphase hfinish =>
    obtain ⟨-, -, rfl⟩ := Baseline.finish_ok hfinish
    intro hnone
    cases (OrdMap.get_put_self _ metaBaselineComplete [1]).symm.trans hnone
  | _ => exact hset

/-! ## The loader builds a store -/

theorem beginRun_new {h : Handle} {db : Env} (hbegin : beginRun c h db = .ok s) :
    ∃ g, newBaseline h db c.height = .ok (s.bl, s.db, g) := by
  rw [beginRun] at hbegin
  cases hnew : newBaseline h db c.height with
  | error e => rw [hnew] at hbegin; cases hbegin
  | ok r =>
    obtain ⟨bl, db', g⟩ := r
    rw [hnew] at hbegin
    dsimp only at hbegin
    refine ⟨g, ?_⟩
    split at hbegin
    · rw [← Except.ok.inj hbegin]
    · split at hbegin
      · cases hbegin
      · rw [← Except.ok.inj hbegin]

/-- A loader that finds the genesis changes nothing. -/
theorem newBaseline_again {h : Handle} {e : Env} {S : UInt64} (hc : Coherent h e)
    (hg : row e .genesis = some (beBytes S)) :
    ∃ g, newBaseline h e S = .ok (⟨S, [], none⟩, e, g) := by
  have hgen := genesis_of_coherent hc hg
  rw [newBaseline]
  cases hres : Store.genesis h e with
  | mk r g =>
    rw [hres] at hgen
    obtain rfl : r = .ok (some S) := hgen
    exact ⟨g, by simp⟩

/-- Over the empty store there is nothing a handle could have cached. -/
theorem coherent_empty {h : Handle} (hc : Coherent h OrdMap.empty) : h = {} := by
  have hgen : h.genesisPlus1 = 0 := by
    by_contra hne
    have hrow := hc.genesis hne
    rw [row_empty] at hrow
    cases hrow
  have hdone : h.baselineDone = false := by
    rw [Bool.eq_false_iff]
    intro hd
    exact hc.done hd (row_empty _)
  obtain ⟨g, d⟩ := h
  obtain rfl : g = 0 := hgen
  obtain rfl : d = false := hdone
  rfl

/-- What `Finish` does to the store is the same for every handle. -/
theorem Baseline.finish_handle (bl : Baseline) (e : Env) (h g : Handle) :
    (bl.finish true true e h).2.1 = (bl.finish true true e g).2.1 ∧
      (bl.finish true true e h).2.2.1 = (bl.finish true true e g).2.2.1 := by
  rw [Baseline.finish, Baseline.finish, Baseline.flush_true]
  dsimp only
  cases firstQueued (bl.clearProgress.flushed e) with
  | none => exact ⟨rfl, rfl⟩
  | some k => exact ⟨rfl, rfl⟩

/-- Any number of runs over a fresh store, each cut off at any point, with handles that have
not been used on another store. -/
inductive Loaded (c : Config) (x : Chain) : List Event → Site → Prop
  | fresh : Loaded c x [] (.idle OrdMap.empty)
  | begin_ {es : List Event} {db : Env} {s : Load} (hload : Loaded c x es (.idle db))
      {h : Handle} (hc : Coherent h db) (hbegin : beginRun c h db = .ok s) :
      Loaded c x es (.running s)
  | step {es : List Event} {s s' : Load} {ev : Option Event}
      (hload : Loaded c x es (.running s)) (hstep : Step c x s ev s') :
      Loaded c x (es ++ ev.toList) (.running s')
  | cut {es : List Event} {s : Load} (hload : Loaded c x es (.running s)) :
      Loaded c x es (.idle s.db)

theorem Loaded.reached {site : Site} (h : Loaded c x es site) : Reached c x es site := by
  induction h with
  | fresh => exact .fresh
  | begin_ _ _ hbegin ih => exact .begin_ ih _ hbegin
  | step _ hstep ih => exact .step ih hstep
  | cut _ ih => exact .cut ih

theorem Loaded.path {es' : List Event} (h : Loaded c x es (.running s)) (hp : Path c x s es' s') :
    Loaded c x (es ++ es') (.running s') := by
  induction hp with
  | refl => rwa [List.append_nil]
  | tail _ hstep ih =>
    rw [← List.append_assoc]
    exact ih.step hstep

/-- A site with the store and the loader of the run. -/
def Stands (c : Config) (x : Chain) (db : Env) (bl : Baseline) : Prop :=
  ∃ w, Built x.keccak (x.base c) c.height w [] ∧ w.env = db ∧ w.bl = bl

namespace Stands

variable {db : Env} {bl : Baseline}

theorem load (h : Stands c x s.db s.bl) (hs : s.bl.s = c.height) {r : LoadRow}
    (hop : GenuineOp c x (r.op s.bl.s)) : Stands c x (s.load r).db (s.load r).bl := by
  obtain ⟨w, hw, henv, hbl⟩ := h
  obtain ⟨r', hr', heq⟩ := hop
  refine ⟨_, hw.load true hr'.of, ?_, ?_⟩
  · rw [henv, hbl, Baseline.load, hs, ← heq]
    rfl
  · rw [henv, hbl, Baseline.load, hs, ← heq]
    rfl

theorem flush (h : Stands c x s.db s.bl) : Stands c x s.flush.db s.flush.bl := by
  obtain ⟨w, hw, henv, hbl⟩ := h
  refine ⟨_, hw.flush true, ?_, ?_⟩
  · rw [henv, hbl]
    rfl
  · rw [henv, hbl]
    rfl

theorem mark (h : Stands c x s.db s.bl) (final : Option UInt8) :
    Stands c x (s.mark final).db (s.mark final).bl := by
  cases final with
  | none => exact h
  | some i =>
    obtain ⟨w, hw, henv, hbl⟩ := h
    exact ⟨_, hw.setProgress (markSeg s.bitmap i), henv, by rw [hbl]; rfl⟩

theorem finish {bl' : Baseline} {db' : Env} {h h' : Handle} (hst : Stands c x db bl)
    (hfinish : bl.finish true true db h = (.ok (), bl', db', h'))
    (hcov : Covered x.keccak (x.base c) c.height db') : Stands c x db' bl' := by
  obtain ⟨w, hw, rfl, rfl⟩ := hst
  obtain ⟨-, -, hdb⟩ := Baseline.finish_ok hfinish
  -- the meta rows that `Finish` writes are not what is covered
  have hall : Covered x.keccak (x.base c) c.height (w.bl.clearProgress.flushed w.env) := by
    have hrow : ∀ r, r ≠ .baselineComplete → r ≠ .baselineProgress →
        row db' r = row (w.bl.ops.foldl BlOp.run w.env) r := by
      intro r hc hp
      rw [hdb]
      exact (row_put_of_ne (r := .baselineComplete) _ _ hc).trans
        ((row_del _ .baselineProgress r).trans (if_neg hp))
    intro k hk
    have hk' := hcov k hk
    rwa [hrow _ (by simp) (by simp), hrow _ (by cases k <;> simp [Key.baseRow])
      (by cases k <;> simp [Key.baseRow])] at hk'
  have hsame := Baseline.finish_handle w.bl w.env w.writer h
  rw [hfinish] at hsame
  exact ⟨_, hw.finish true true hall, hsame.2, hsame.1⟩

end Stands

/-- A step of the loader is one of the bulk load, or none. -/
theorem Step.stands (hstep : Step c x s ev s') (hacc : AccInv c x es s)
    (hst : Stands c x s.db s.bl)
    (hcov : s'.phase = .returned → Covered x.keccak (x.base c) c.height s'.db) :
    Stands c x s'.db s'.bl := by
  cases hstep with
  | add hcur hrows =>
    exact hst.load hacc.flow.height (hacc.flow.genuine _
      (mem_ops_of_mem_rows (mem_rows_of_cur hcur (hrows ▸ List.mem_cons_self))))
  | swept hphase hcur hwrites =>
    exact hst.load hacc.flow.height (hacc.flow.genuine _
      (mem_ops_of_mem_rows (mem_rows_of_phase (by rw [hphase]; exact List.mem_cons_self))))
  | applied hcur hrows hbarrier => exact hst.mark _
  | fenced hphase hcur hrows hbarrier => exact (hst.mark _).flush
  | sweep hphase hcur hwrites hmissing hrows => exact hst.flush
  | finish hphase hfinish => exact hst.finish hfinish (hcov rfl)
  | _ => exact hst

/-- The loader refines the bulk load, under a run or between two, unless it has set the mark
over storage that runs with different splits have left incomplete. -/
theorem Loaded.stands {site : Site} (h : Loaded c x es site)
    (hag : row site.db .baselineComplete ≠ none → c.noStorageResume = true ∨ Agreed es) :
    match site with
    | .idle db => db = OrdMap.empty ∨ ∃ bl, Stands c x db bl
    | .running s => Stands c x s.db s.bl := by
  induction h with
  | fresh => exact Or.inl rfl
  | @begin_ es db s hload h hc hbegin ih =>
    obtain ⟨g, hnew⟩ := beginRun_new hbegin
    have hmark : row s.db .baselineComplete = row db .baselineComplete := by
      obtain ⟨-, hdb, -⟩ := newBaseline_ok hnew
      rcases hdb with hdb | hdb
      · rw [hdb]
      · rw [hdb]
        exact row_put_of_ne (r := .genesis) _ _ (by simp)
    rcases ih (hmark ▸ hag) with rfl | ⟨bl, w, hw, rfl, rfl⟩
    · obtain rfl := coherent_empty hc
      exact ⟨_, .start hnew, rfl, rfl⟩
    · -- a fresh handle would have found the same genesis
      have hgen := hw.inv.refines.genesis
      obtain ⟨g₁, hnew₁⟩ := newBaseline_again hc hgen
      obtain ⟨g₂, hnew₂⟩ := newBaseline_again (Coherent.fresh w.env) hgen
      obtain ⟨hbl, hrest⟩ := Prod.mk.inj (Except.ok.inj (hnew.symm.trans hnew₁))
      exact ⟨_, hw.restart (Or.inr rfl) hnew₂, (Prod.mk.inj hrest).1.symm, hbl.symm⟩
  | @step es s s' ev hload hstep ih =>
    have hacc : AccInv c x es s := hload.reached.inv
    refine hstep.stands hacc (ih fun hset => ?_) fun hret => ?_
    · refine (hag (hstep.keeps_mark hacc.flow.genuine hset)).imp_right fun hagreed => ?_
      exact hagreed.mono fun ev hev => List.mem_append_left _ hev
    · have hreach := (hload.step hstep).reached
      have hset : row s'.db .baselineComplete ≠ none := by
        rw [(hreach.ends.done hret).2.2]
        simp
      obtain ⟨haccounts, hslots⟩ := hreach.exact hret (hag hset)
      exact covered haccounts hslots
  | cut hload ih => exact Or.inr ⟨_, ih hag⟩

theorem Loaded.refines (h : Loaded c x es (.running s))
    (hag : row s.db .baselineComplete ≠ none → c.noStorageResume = true ∨ Agreed es) :
    Refines x.keccak (x.base c) c.height [] s.db := by
  obtain ⟨w, hw, henv, -⟩ := h.stands hag
  exact henv ▸ hw.inv.refines

/-! ## Reads under a load -/

/-- At any point of any number of runs, cut off and resumed anywhere, whatever the peers answer
and in which order the workers move: a read at a height from the load's on, through any coherent
handle, is the chain's value or is refused, and is refused only while the mark is not set.  Once
it is set, the runs must have split each giant trie at one key, or have resumed without
watermarks. -/
theorem loading_reads_exact (h : Loaded c x es (.running s))
    (hag : row s.db .baselineComplete ≠ none → c.noStorageResume = true ∨ Agreed es)
    {g : Handle} (hg : Coherent g s.db) {at_ : UInt64} (hS : c.height ≤ at_) :
    (∀ a, getAccount x.keccak g s.db a at_ =
        .ok ((x.account c (x.keccak a.1)).map StateAccount.row) ∨
      getAccount x.keccak g s.db a at_ = .error .baselineIncomplete ∧
        row s.db .baselineComplete = none) ∧
    ∀ a k, getSlot x.keccak g s.db a k at_ =
        .ok ((x.slot c (x.keccak a.1) (x.keccak k.1)).getD Hash.zero) ∨
      getSlot x.keccak g s.db a k at_ = .error .baselineIncomplete ∧
        row s.db .baselineComplete = none := by
  have hr := h.refines hag
  have hstate : stateAt x.keccak (x.base c) [] (reach c.height [] at_) =
      (x.base c).state x.keccak := by
    rw [stateAt, List.take_nil]
    rfl
  constructor
  · intro a
    refine (getAccount_refines hr (by simp) hg hS a).imp (fun hok => ?_)
      (fun hno => ⟨hno.1, hno.2.unset⟩)
    rw [hok, hstate]
    rfl
  · intro a k
    refine (getSlot_refines hr (by simp) (by simp) hg hS a k).imp (fun hok => ?_)
      (fun hno => ⟨hno.1, hno.2.unset⟩)
    rw [hok, hstate]
    rfl

namespace Giants

/-- The run over the three leaves, from the empty store to its return. -/
theorem few_loaded : ∃ s,
    Loaded config (chain few) [.walked, .fan addr (beEncode 32 1), .dequeue addr] (.running s) ∧
      s.phase = .returned ∧ Agreed [.walked, .fan addr (beEncode 32 1), .dequeue addr] := by
  obtain ⟨s₀, s, hbegin, hpath, hret, -⟩ := fresh_run (t := few) rfl
  have hload : Loaded config (chain few) [] (.running s₀) := .begin_ .fresh (Coherent.fresh _) hbegin
  exact ⟨s, hload.path hpath, hret, (Path.scan hbegin hpath).agreed⟩

theorem few_slot : (chain few).slot config addr addr = some (FixedBytes.ofNat 32 1) := by
  decide +kernel

end Giants

open Giants in
/-- The theorem at work: the first leaf, read through a new handle. -/
theorem loading_reads_exact_few :
    ∃ s, Loaded config (chain few) [.walked, .fan addr (beEncode 32 1), .dequeue addr]
        (.running s) ∧
      getSlot (chain few).keccak {} s.db Store.Sample.addr Store.Sample.slot0 Latest =
        .ok (FixedBytes.ofNat 32 1) := by
  obtain ⟨s, hload, hret, hag⟩ := few_loaded
  refine ⟨s, hload, ?_⟩
  have hset := (hload.reached.ends.done hret).2.2
  have hle : config.height ≤ Latest := by decide
  have hreads := loading_reads_exact hload (fun _ => Or.inr hag) (Coherent.fresh s.db) hle
  rcases hreads.2 Store.Sample.addr Store.Sample.slot0 with hok | ⟨-, hnone⟩
  · rw [hok]
    exact congrArg (fun v => Except.ok (Option.getD v Hash.zero)) few_slot
  · cases hnone.symm.trans hset

/-! ## Blocks on top -/

section Blocks

variable {keccak : Bytes → Hash} {base : Trie} {S : UInt64} {e : Env} {bs : List Batch}

theorem refines_writeBlocks (hr : Refines keccak base S [] e) (hnum : Consecutive S bs) :
    Refines keccak base S bs (bs.foldl writeBlock e) := by
  induction bs using List.reverseRecOn with
  | nil => exact hr
  | append_singleton bs b ih =>
    rw [List.foldl_append]
    have hfront : Consecutive S bs := by
      intro n b' hb
      refine hnum n b' ?_
      rw [List.getElem?_append_left (List.getElem?_eq_some_iff.mp hb).1]
      exact hb
    exact (ih hfront).writeBlock (hnum bs.length b (by simp))

theorem row_writeBlocks_complete (e : Env) (bs : List Batch) :
    row (bs.foldl writeBlock e) .baselineComplete = row e .baselineComplete := by
  induction bs using List.reverseRecOn with
  | nil => rfl
  | append_singleton bs b ih =>
    rw [List.foldl_append]
    exact (row_writeBlock_other _ _ (by simp) (by simp) (by simp)).trans ih

theorem row_writeBlocks_code (e : Env) (bs : List Batch) (hash : Hash) :
    row (bs.foldl writeBlock e) (.code hash) =
      Exec.foldCodes bs (fun h => row e (.code h)) hash := by
  induction bs using List.reverseRecOn generalizing hash with
  | nil => rfl
  | append_singleton bs b ih =>
    rw [List.foldl_append, Exec.foldCodes_append]
    refine (Exec.row_writeBlock_code _ b hash).trans ?_
    exact congrArg (fun codes => Exec.foldCodes [b] codes hash) (funext ih)

end Blocks

/-- The code of every account of the chain is in the store of a run that has returned. -/
theorem Reached.codes (h : Reached c x es (.running s)) (hret : s.phase = .returned) :
    Exec.Covers x.keccak (fun hash => row s.db (.code hash)) ((x.base c).state x.keccak) := by
  intro a acct hacct hcode hnone
  obtain ⟨acc, hacc, rfl⟩ := Option.map_eq_some_iff.mp hacct
  have hend := h.ends
  have hview : s.view = s.db := by rw [Load.view, (hend.done hret).1, List.foldl_nil]
  obtain ⟨blob, -, hhas⟩ :=
    hend.coded (by rw [hret]; rfl) _ acc (account_eq_some.mp hacc) (decide_eq_true hcode)
  rw [hview] at hhas
  cases hnone.symm.trans hhas

/-- Once a run has returned and consecutive blocks have been written on top, every coherent
handle reads every account and slot at every height from the load's on, and it is what the blocks
up to the height make of the chain's state; the code of every account at the tip can be read too.
The runs split each giant trie at one key or resume without watermarks, the blocks keep the
batch contract and carry the code they refer to, and code is content-addressed. -/
theorem synced_store_serves (h : Loaded c x es (.running s)) (hret : s.phase = .returned)
    (hag : c.noStorageResume = true ∨ Agreed es) {bs : List Batch}
    (hnum : Consecutive c.height bs) (hcon : ContractChain ((x.base c).state x.keccak) bs)
    {code : Hash → Bytes} (haddr : ∀ hash blob, x.code hash = some blob → blob = code hash)
    (hcarry : Exec.CarriesAll x.keccak code (fun hash => row s.db (.code hash))
      ((x.base c).state x.keccak) bs)
    {g : Handle} (hg : Coherent g (bs.foldl writeBlock s.db)) :
    (∀ at_, c.height ≤ at_ →
      (∀ a, getAccount x.keccak g (bs.foldl writeBlock s.db) a at_ =
        .ok (valueAt x.keccak (x.base c) bs at_ (.account a))) ∧
      ∀ a k, getSlot x.keccak g (bs.foldl writeBlock s.db) a k at_ =
        .ok (valueAt x.keccak (x.base c) bs at_ (.slot a k))) ∧
    ∀ a (acct : Account), foldBatches bs ((x.base c).state x.keccak) (.account a) =
        (some acct : Option Account) → Exec.HasCode x.keccak acct.codeHash →
      getCode (bs.foldl writeBlock s.db) acct.codeHash = .ok (code acct.codeHash) := by
  have hreach := h.reached
  have hset : row (bs.foldl writeBlock s.db) .baselineComplete ≠ none := by
    rw [row_writeBlocks_complete, (hreach.ends.done hret).2.2]
    simp
  have hr := refines_writeBlocks (h.refines fun _ => hag) hnum
  have hfirst : ∀ b ∈ bs, DestructFirst b.ops :=
    fun b hb => (ContractChain.mem hcon hb).choose_spec.destructFirst
  constructor
  · intro at_ hS
    have hval : valueAt x.keccak (x.base c) bs at_ =
        stateAt x.keccak (x.base c) bs (reach c.height bs at_) := by
      rw [valueAt, filter_block_le hnum hS, stateAt]
    rw [hval]
    refine ⟨fun a => ?_, fun a k => ?_⟩
    · exact (getAccount_refines hr hfirst hg hS a).resolve_right fun hno => hset hno.2.unset
    · refine (getSlot_refines hr hfirst ?_ hg hS a k).resolve_right fun hno => hset hno.2.unset
      exact fun b hb => (ContractChain.mem hcon hb).choose_spec.recreated
  · intro a acct hacct hcode
    have hcov := (hreach.codes hret).foldBatches hcarry a acct hacct hcode
    rw [← row_writeBlocks_code] at hcov
    obtain ⟨blob, hblob⟩ := Option.ne_none_iff_exists'.mp hcov
    -- the loader's code comes from the chain, the rest from the blocks
    have hloaded : Exec.Addressed code (fun hash => row s.db (.code hash)) := by
      intro hash blob' hrow
      obtain ⟨r, hgen, ht, hv⟩ :=
        hreach.idle.exact (.code hash) blob' (by rw [Row.space]; decide) hrow
      cases r with
      | code hash' blob =>
        obtain rfl := Row.code.inj ht
        obtain rfl := Option.some.inj hv
        exact haddr _ _ hgen
      | _ => cases ht
    have hown := hcarry.addressed hloaded acct.codeHash blob
      (by rw [← row_writeBlocks_code]; exact hblob)
    have hget : (bs.foldl writeBlock s.db).get (appendCodeKey [] acct.codeHash) = some blob := hblob
    rw [getCode, hget, ← hown]

open Giants Store.Sample in
/-- The theorem at work: at the height of the load the first leaf is read, above it what a
block has made of the account. -/
theorem synced_store_serves_few :
    ∃ s, Loaded config (chain few) [.walked, .fan Giants.addr (beEncode 32 1),
        .dequeue Giants.addr] (.running s) ∧
      getSlot (chain few).keccak {} (writeBlock s.db block6) Store.Sample.addr slot0 5 =
        .ok (FixedBytes.ofNat 32 1) ∧
      getSlot (chain few).keccak {} (writeBlock s.db block6) Store.Sample.addr slot0 Latest =
        .ok Hash.zero ∧
      getAccount (chain few).keccak {} (writeBlock s.db block6) Store.Sample.addr Latest =
        .ok (some (acct 20)) := by
  obtain ⟨s, hload, hret, hag⟩ := few_loaded
  have hnum : Consecutive config.height [block6] := by
    intro n b hb
    rcases n with _ | n
    · obtain rfl : block6 = b := by simpa using hb
      rfl
    · simp at hb
  have hcarry : Exec.CarriesAll (chain few).keccak (fun _ => []) (fun hash => row s.db (.code hash))
      (((chain few).base config).state (chain few).keccak) [block6] := by
    refine ⟨⟨fun hash blob hop => by simp [block6] at hop, fun a acc hop hcode => ?_⟩, trivial⟩
    obtain ⟨rfl, rfl⟩ : a = Store.Sample.addr ∧ acc = acct 20 := by simpa [block6] using hop
    exact absurd rfl hcode.1
  have hserves := synced_store_serves hload hret (Or.inr hag) hnum ⟨block6_contract _, trivial⟩
    (fun hash blob hblob => by cases hblob) hcarry (Coherent.fresh _)
  refine ⟨s, hload, ?_, ?_, ?_⟩
  · refine ((hserves.1 5 (by decide)).2 Store.Sample.addr slot0).trans ?_
    exact congrArg (fun v => Except.ok (Option.getD v Hash.zero)) few_slot
  · exact ((hserves.1 Latest (by decide)).2 Store.Sample.addr slot0).trans rfl
  · exact ((hserves.1 Latest (by decide)).1 Store.Sample.addr).trans rfl

end Flatstate.Sync
