import Flatstate.Store.Build
import Flatstate.Store.Bulk
import Flatstate.Store.Scan
import Mathlib.Data.Prod.Basic

set_option autoImplicit false

/-!
# Node: the baseline from a state iterator (`node/baseline.go`)

`RunBaseline` drains an iterator over the full state into a bulk loader at the pivot `S` and
sets the baseline-complete watermark at the end.  Each entry is compared with the one before it
and handed to the loader at once, which commits in chunks; so at an entry out of order some of
the rows before it are committed already.

The outcome of each transaction is an argument.
-/

namespace Flatstate.Node

open Foundation Schema Capture Store

/-! ## Entries -/

/-- `Entry`: one item of the full state; only the fields for its kind are meaningful. -/
structure Entry where
  kind : UInt8
  addr : Address
  account : Account
  slot : Hash
  value : Hash
  hash : Hash
  code : Bytes
  deriving DecidableEq

/-- `EntryAccount`, `EntrySlot` and `EntryCode`: the kinds in the order of the phases. -/
def entryAccount : UInt8 := 1
def entrySlot : UInt8 := 2
def entryCode : UInt8 := 3

/-- `StateIterator`: the entries `Next` returns, and the error it ends with, if any. -/
structure StateIterator (ε : Type) where
  entries : List Entry
  stop : Option ε

/-- What `RunBaseline` fails with. -/
inductive BaselineErr (ε : Type) where
  /-- an error of the loader -/
  | store (e : Err)
  /-- "node: baseline iterator at entry %d: %w" -/
  | iterator (n : Nat) (e : ε)
  /-- "node: baseline entry %d has unknown kind %d" -/
  | unknownKind (n : Nat) (kind : UInt8)
  /-- "node: baseline entry %d kind %d after kind %d" -/
  | kindOrder (n : Nat) (kind prevKind : UInt8)
  /-- "node: baseline entry %d key %x not ascending" -/
  | notAscending (n : Nat) (key : Bytes)
  deriving DecidableEq

/-- The key of an entry; an unknown kind has none. -/
def Entry.key (e : Entry) : Option Bytes :=
  if e.kind = entryAccount then some e.addr.1
  else if e.kind = entrySlot then some (e.addr.1 ++ e.slot.1)
  else if e.kind = entryCode then some e.hash.1
  else none

/-- The row of an entry with a known kind. -/
def Entry.row (e : Entry) : LoadRow :=
  if e.kind = entryAccount then .account e.addr e.account
  else if e.kind = entrySlot then .slot e.addr e.slot e.value
  else .code e.hash e.code

/-! ## The run -/

/-- Which transactions commit: the chunk that entry `n` fills, the last chunk, the watermark. -/
structure Outcomes where
  chunk : Nat → Bool
  last : Bool
  mark : Bool

/-- No transaction fails. -/
def Outcomes.commit : Outcomes := ⟨fun _ => true, true, true⟩

section Run

variable {ε : Type} (ok : Outcomes)

/-- The loop of `RunBaseline` from entry `n` on, given the kind and the key before it. -/
def drain (stop : Option ε) : List Entry → Nat → UInt8 → Bytes → Baseline → Env → Handle →
    Except (BaselineErr ε) Unit × Env × Handle
  | [], n, _, _, bl, env, h =>
    match stop with
    | some e => (.error (.iterator n e), env, h)
    | none =>
      match bl.finish ok.last ok.mark env h with
      | (.error e, _, env, h) => (.error (.store e), env, h)
      | (.ok (), _, env, h) => (.ok (), env, h)
  | e :: es, n, prevKind, prevKey, bl, env, h =>
    match e.key with
    | none => (.error (.unknownKind n e.kind), env, h)
    | some key =>
      if e.kind < prevKind then (.error (.kindOrder n e.kind prevKind), env, h)
      else if e.kind = prevKind ∧ key ≤ prevKey then (.error (.notAscending n key), env, h)
      else
        match bl.load (ok.chunk n) env e.row with
        | (.error err, _, env) => (.error (.store err), env, h)
        | (.ok (), bl, env) => drain stop es (n + 1) e.kind key bl env h

/-- `RunBaseline`. -/
def runBaseline (h : Handle) (env : Env) (s : UInt64) (it : StateIterator ε) :
    Except (BaselineErr ε) Unit × Env × Handle :=
  match newBaseline h env s with
  | .error e => (.error (.store e), env, h)
  | .ok (bl, env, h) => drain ok it.stop it.entries 0 0 [] bl env h

end Run

/-! ## What the loader has written -/

/-- Rows written one after the other. -/
def applyRows (s : UInt64) (rows : List LoadRow) (env : Env) : Env :=
  rows.foldl (fun env r => (r.op s).run env) env

theorem applyRows_append (s : UInt64) (rows rows' : List LoadRow) (env : Env) :
    applyRows s (rows ++ rows') env = applyRows s rows' (applyRows s rows env) :=
  List.foldl_append

theorem row_applyRows_of_ne {s : UInt64} {rows : List LoadRow} (env : Env) {r : Row}
    (h : ∀ l ∈ rows, r ≠ l.target s) : Store.row (applyRows s rows env) r = Store.row env r := by
  induction rows using List.reverseRecOn with
  | nil => rfl
  | append_singleton rows l ih =>
    rw [applyRows_append]
    refine (row_run_of_ne _ (h l (by simp))).trans (ih fun l' hl' => h l' (by simp [hl']))

/-- A row that is written once has the value written. -/
theorem row_applyRows_of_mem {s : UInt64} {rows : List LoadRow} (env : Env) {l : LoadRow}
    (hrows : rows.Pairwise fun l l' => l.target s ≠ l'.target s) (hl : l ∈ rows) :
    Store.row (applyRows s rows env) (l.target s) = l.value := by
  induction rows using List.reverseRecOn with
  | nil => simp at hl
  | append_singleton rows l' ih =>
    obtain ⟨hrows, -, hlast⟩ := List.pairwise_append.mp hrows
    rw [applyRows_append]
    refine (row_run _ s l' (l.target s)).trans ?_
    rcases List.mem_append.mp hl with hl | hl
    · rw [if_neg (hlast l hl l' (by simp))]
      exact ih hrows hl
    · obtain rfl := List.mem_singleton.mp hl
      rw [if_pos rfl]

/-- Rows of other keyspaces leave a keyspace alone. -/
theorem get_applyRows_of_space {s : UInt64} {rows : List LoadRow} (env : Env) {p : UInt8}
    {k : Bytes} (hk : k.head? = some p) (h : ∀ l ∈ rows, (l.target s).space ≠ p) :
    (applyRows s rows env).get k = env.get k := by
  induction rows using List.reverseRecOn with
  | nil => rfl
  | append_singleton rows l ih =>
    have hne : k ≠ (l.target s).key := by
      rintro rfl
      rw [Row.key_eq] at hk
      exact h l (by simp) (Option.some.inj hk)
    have hrest := ih fun l' hl' => h l' (by simp [hl'])
    rw [applyRows_append]
    refine Eq.trans ?_ hrest
    change ((l.op s).run (applyRows s rows env)).get k = _
    rw [LoadRow.run_op]
    cases l.value with
    | none => exact OrdMap.get_del_of_ne _ hne
    | some v => exact OrdMap.get_put_of_ne _ v hne

/-- What a `Finish` that goes through leaves. -/
def marked (env : Env) : Env := (env.del metaBaselineProgress).put metaBaselineComplete [1]

/-- The loader has been given `rows` since the environment was `env₀`: the first of them are
committed, the others buffered, and no cursor is pending. -/
structure Loaded (env₀ : Env) (s : UInt64) (rows : List LoadRow) (bl : Baseline) (env : Env) :
    Prop where
  height : bl.s = s
  progress : bl.progress = none
  split : ∃ done pending, rows = done ++ pending ∧ env = applyRows s done env₀ ∧
    bl.ops = pending.map (LoadRow.op s)

namespace Loaded

variable {env₀ env : Env} {s : UInt64} {rows : List LoadRow} {bl : Baseline}

theorem committed (h : Loaded env₀ s rows bl env) : ∃ done, env = applyRows s done env₀ := by
  obtain ⟨done, pending, -, henv, -⟩ := h.split
  exact ⟨done, henv⟩

theorem flushed (h : Loaded env₀ s rows bl env) : bl.flushed env = applyRows s rows env₀ := by
  obtain ⟨done, pending, rfl, rfl, hops⟩ := h.split
  unfold Baseline.flushed
  rw [h.progress, hops, applyRows_append]
  exact List.foldl_map

/-- A flush commits everything, or it fails and commits nothing. -/
theorem flush (h : Loaded env₀ s rows bl env) (ok : Bool) :
    (∃ bl', bl.flush ok env = (.ok (), bl', applyRows s rows env₀) ∧
      Loaded env₀ s rows bl' (applyRows s rows env₀)) ∨
    (ok = false ∧ ∃ bl', bl.flush ok env = (.error .txn, bl', env)) := by
  unfold Baseline.flush
  split
  · rename_i hempty
    obtain ⟨done, pending, hrows, henv, hops⟩ := h.split
    -- nothing is buffered, so all rows are committed
    have hnil : pending = [] := List.map_eq_nil_iff.mp (hops.symm.trans hempty.1)
    rw [hnil, List.append_nil] at hrows
    rw [← hrows] at henv
    exact Or.inl ⟨bl, by rw [henv], henv ▸ h⟩
  · cases ok with
    | true =>
      refine Or.inl ⟨{ bl with ops := [], progress := none }, ?_, h.height, rfl, rows, [], ?_⟩
      · rw [if_pos rfl, h.flushed]
      · exact ⟨(List.append_nil rows).symm, rfl, rfl⟩
    | false => exact Or.inr ⟨rfl, _, if_neg Bool.false_ne_true⟩

theorem push (h : Loaded env₀ s rows bl env) (r : LoadRow) :
    Loaded env₀ s (rows ++ [r]) { bl with ops := bl.ops ++ [r.op bl.s] } env := by
  obtain ⟨done, pending, rfl, henv, hops⟩ := h.split
  refine ⟨h.height, h.progress, done, pending ++ [r], List.append_assoc _ _ _, henv, ?_⟩
  dsimp only
  rw [hops, h.height, List.map_append]
  rfl

/-- One row more. -/
theorem load (h : Loaded env₀ s rows bl env) (ok : Bool) (r : LoadRow) :
    (∃ bl' env', bl.load ok env r = (.ok (), bl', env') ∧ Loaded env₀ s (rows ++ [r]) bl' env') ∨
    (ok = false ∧ ∃ bl', bl.load ok env r = (.error .txn, bl', env)) := by
  unfold Baseline.load Baseline.add
  dsimp only
  split
  · rcases (h.push r).flush ok with ⟨bl', hflush, hl⟩ | hfail
    · exact Or.inl ⟨bl', _, hflush, hl⟩
    · exact Or.inr hfail
  · exact Or.inl ⟨_, env, rfl, h.push r⟩

theorem clearProgress (h : Loaded env₀ s rows bl env) :
    Loaded env₀ s rows bl.clearProgress env :=
  ⟨h.height, rfl, h.split⟩

/-- `Finish` while no transaction fails: it sets the watermark unless a storage-queue row is
pending. -/
theorem finish_commit (h : Loaded env₀ s rows bl env) (handle : Handle) :
    (firstQueued (applyRows s rows env₀) = none →
      ∃ bl', bl.finish true true env handle =
        (.ok (), bl', marked (applyRows s rows env₀), { handle with baselineDone := true })) ∧
    (firstQueued (applyRows s rows env₀) ≠ none →
      ∃ e bl' env', bl.finish true true env handle = (.error e, bl', env', handle)) := by
  unfold Baseline.finish
  rcases h.clearProgress.flush true with ⟨bl', hflush, -⟩ | ⟨hfalse, -⟩
  · rw [hflush]
    dsimp only
    cases firstQueued (applyRows s rows env₀) with
    | none => exact ⟨fun _ => ⟨bl', rfl⟩, fun hne => absurd rfl hne⟩
    | some k => exact ⟨fun hk => (by cases hk), fun _ => ⟨_, _, _, rfl⟩⟩
  · cases hfalse

/-- A `Finish` that fails leaves rows and no watermark. -/
theorem finish_error (h : Loaded env₀ s rows bl env) {okFlush okMark : Bool} {handle : Handle}
    {e : Err} {bl' : Baseline} {env' : Env} {handle' : Handle}
    (herr : bl.finish okFlush okMark env handle = (.error e, bl', env', handle')) :
    handle' = handle ∧ ∃ done, env' = applyRows s done env₀ := by
  unfold Baseline.finish at herr
  rcases h.clearProgress.flush okFlush with ⟨bl₁, hflush, -⟩ | ⟨-, bl₁, hflush⟩
  · rw [hflush] at herr
    dsimp only at herr
    split at herr
    · simp only [Prod.mk.injEq] at herr
      obtain ⟨-, -, rfl, rfl⟩ := herr
      exact ⟨rfl, rows, rfl⟩
    · split at herr
      · cases herr
      · simp only [Prod.mk.injEq] at herr
        obtain ⟨-, -, rfl, rfl⟩ := herr
        exact ⟨rfl, rows, rfl⟩
  · rw [hflush] at herr
    simp only [Prod.mk.injEq] at herr
    obtain ⟨-, -, rfl, rfl⟩ := herr
    exact ⟨rfl, h.committed⟩

end Loaded

/-! ## The order of the entries -/

/-- The kind is one of the three. -/
def Entry.Known (e : Entry) : Prop :=
  e.kind = entryAccount ∨ e.kind = entrySlot ∨ e.kind = entryCode

/-- Kind and key of an entry. -/
def Entry.tag (e : Entry) : UInt8 × Bytes := (e.kind, e.key.getD [])

/-- Kinds and keys are compared lexicographically. -/
def TagLt : UInt8 × Bytes → UInt8 × Bytes → Prop := Prod.Lex (· < ·) (· < ·)

theorem tagLt_iff {t t' : UInt8 × Bytes} : TagLt t t' ↔ t.1 < t'.1 ∨ t.1 = t'.1 ∧ t.2 < t'.2 :=
  Prod.lex_iff

theorem TagLt.trans {t t' t'' : UInt8 × Bytes} (h : TagLt t t') (h' : TagLt t' t'') : TagLt t t'' :=
  Prod.Lex.trans h h'

theorem TagLt.ne {t t' : UInt8 × Bytes} (h : TagLt t t') : t ≠ t' := by
  rintro rfl
  rcases tagLt_iff.mp h with hlt | ⟨-, hlt⟩
  · exact lt_irrefl _ hlt
  · exact lt_irrefl _ hlt

theorem Entry.known_iff {e : Entry} : e.Known ↔ e.key ≠ none := by
  unfold Entry.Known Entry.key
  split
  · simp [*]
  · split
    · simp [*]
    · split
      · simp [*]
      · simp [*]

/-- The entries are of known kinds and ascend strictly from `prev` on. -/
structure Follow (prev : UInt8 × Bytes) (es : List Entry) : Prop where
  known : ∀ e ∈ es, e.Known
  above : ∀ e ∈ es, TagLt prev e.tag
  sorted : es.Pairwise fun e e' => TagLt e.tag e'.tag

theorem follow_cons {prev : UInt8 × Bytes} {e : Entry} {es : List Entry} :
    Follow prev (e :: es) ↔ e.Known ∧ TagLt prev e.tag ∧ Follow e.tag es := by
  constructor
  · rintro ⟨hknown, habove, hsorted⟩
    obtain ⟨hfirst, hrest⟩ := List.pairwise_cons.mp hsorted
    exact ⟨hknown e (by simp), habove e (by simp), fun e' he' => hknown e' (by simp [he']), hfirst,
      hrest⟩
  · rintro ⟨hknown, habove, hrest⟩
    refine ⟨?_, ?_, List.pairwise_cons.mpr ⟨hrest.above, hrest.sorted⟩⟩
    · intro e' he'
      rcases List.mem_cons.mp he' with rfl | he'
      · exact hknown
      · exact hrest.known e' he'
    · intro e' he'
      rcases List.mem_cons.mp he' with rfl | he'
      · exact habove
      · exact habove.trans (hrest.above e' he')

/-- The two comparisons of the loop are the order. -/
theorem lt_tag_iff {e : Entry} {key : Bytes} (hkey : e.key = some key) {prevKind : UInt8}
    {prevKey : Bytes} :
    TagLt (prevKind, prevKey) e.tag ↔
      ¬ e.kind < prevKind ∧ ¬ (e.kind = prevKind ∧ key ≤ prevKey) := by
  unfold Entry.tag
  rw [hkey, Option.getD_some, tagLt_iff]
  dsimp only
  constructor
  · rintro (hlt | ⟨rfl, hlt⟩)
    · exact ⟨not_lt_of_gt hlt, fun h => absurd h.1 (ne_of_gt hlt)⟩
    · exact ⟨lt_irrefl _, fun h => absurd h.2 (not_le.mpr hlt)⟩
  · rintro ⟨hge, hnot⟩
    rcases lt_or_eq_of_le (not_lt.mp hge) with hlt | heq
    · exact Or.inl hlt
    · exact Or.inr ⟨heq, not_le.mp fun hle => hnot ⟨heq.symm, hle⟩⟩

/-! ## The loop -/

section Loop

variable {ε : Type} {stop : Option ε} {env₀ env : Env} {s : UInt64} {rows : List LoadRow}
  {bl : Baseline}

/-- An entry that passes is loaded, and the loop goes on from it. -/
theorem drain_cons (stop : Option ε) (hl : Loaded env₀ s rows bl env) {e : Entry} (es : List Entry)
    (n : Nat) {prevKind : UInt8} {prevKey key : Bytes} (handle : Handle) (hkey : e.key = some key)
    (habove : TagLt (prevKind, prevKey) e.tag) :
    ∃ bl' env', Loaded env₀ s (rows ++ [e.row]) bl' env' ∧
      drain .commit stop (e :: es) n prevKind prevKey bl env handle =
        drain .commit stop es (n + 1) e.tag.1 e.tag.2 bl' env' handle := by
  obtain ⟨hkind, hasc⟩ := (lt_tag_iff hkey).mp habove
  rcases hl.load true e.row with ⟨bl', env', hload, hl'⟩ | ⟨hfalse, -⟩
  · refine ⟨bl', env', hl', ?_⟩
    have hload' : bl.load (Outcomes.commit.chunk n) env e.row = (.ok (), bl', env') := hload
    rw [drain, Entry.tag, hkey]
    dsimp only [Option.getD_some]
    rw [if_neg hkind, if_neg hasc, hload']
  · cases hfalse

/-- A loop that returns nil has passed its first entry. -/
theorem passed_of_drain {ok : Outcomes} {e : Entry} {es : List Entry} {n : Nat} {prevKind : UInt8}
    {prevKey : Bytes} {handle : Handle}
    (h : (drain ok stop (e :: es) n prevKind prevKey bl env handle).1 = .ok ()) :
    ∃ key, e.key = some key ∧ TagLt (prevKind, prevKey) e.tag := by
  rw [drain] at h
  cases hkey : e.key with
  | none => rw [hkey] at h; cases h
  | some key =>
    rw [hkey] at h
    dsimp only at h
    split at h
    · cases h
    · rename_i hkind
      split at h
      · cases h
      · rename_i hasc
        exact ⟨key, rfl, (lt_tag_iff hkey).mpr ⟨hkind, hasc⟩⟩

/-- Entries in order that end cleanly are all written, and the watermark is set. -/
theorem drain_ok (hl : Loaded env₀ s rows bl env) {es : List Entry} {n : Nat} {prevKind : UInt8}
    {prevKey : Bytes} {handle : Handle} (hes : Follow ((prevKind, prevKey)) es)
    (hqueue : firstQueued (applyRows s (rows ++ es.map Entry.row) env₀) = none) :
    drain .commit (none : Option ε) es n prevKind prevKey bl env handle =
      (.ok (), marked (applyRows s (rows ++ es.map Entry.row) env₀),
        { handle with baselineDone := true }) := by
  induction es generalizing n prevKind prevKey rows bl env with
  | nil =>
    rw [List.map_nil, List.append_nil] at hqueue ⊢
    obtain ⟨bl', hfin⟩ := (hl.finish_commit handle).1 hqueue
    have hfin' : bl.finish Outcomes.commit.last Outcomes.commit.mark env handle = _ := hfin
    rw [drain, hfin']
  | cons e es ih =>
    obtain ⟨hknown, habove, hrest⟩ := follow_cons.mp hes
    obtain ⟨key, hkey⟩ := Option.ne_none_iff_exists'.mp (Entry.known_iff.mp hknown)
    obtain ⟨bl', env', hl', heq⟩ := drain_cons none hl es n handle hkey habove
    rw [List.map_cons, List.append_cons] at hqueue ⊢
    rw [heq]
    exact ih hl' hrest hqueue

/-- A loop that returns nil had entries in order and a clean end, and found no storage-queue
row. -/
theorem follow_of_drain (hl : Loaded env₀ s rows bl env) {es : List Entry} {n : Nat}
    {prevKind : UInt8} {prevKey : Bytes} {handle : Handle}
    (h : (drain .commit stop es n prevKind prevKey bl env handle).1 = .ok ()) :
    Follow ((prevKind, prevKey)) es ∧ stop = none ∧
      firstQueued (applyRows s (rows ++ es.map Entry.row) env₀) = none := by
  induction es generalizing n prevKind prevKey rows bl env with
  | nil =>
    refine ⟨⟨fun e he => ?_, fun e he => ?_, .nil⟩, ?_⟩
    · simp at he
    · simp at he
    · rw [List.map_nil, List.append_nil]
      cases stop with
      | some e => cases h
      | none =>
        refine ⟨rfl, ?_⟩
        by_contra hqueue
        obtain ⟨e, bl', env', hfin⟩ := (hl.finish_commit handle).2 hqueue
        have hfin' : bl.finish Outcomes.commit.last Outcomes.commit.mark env handle = _ := hfin
        rw [drain, hfin'] at h
        cases h
  | cons e es ih =>
    obtain ⟨key, hkey, habove⟩ := passed_of_drain h
    obtain ⟨bl', env', hl', heq⟩ := drain_cons stop hl es n handle hkey habove
    rw [heq] at h
    obtain ⟨hfollow, hstop, hqueue⟩ := ih hl' h
    rw [List.map_cons, List.append_cons]
    exact ⟨follow_cons.mpr ⟨Entry.known_iff.mpr (by simp [hkey]), habove, hfollow⟩, hstop, hqueue⟩

/-- However its transactions end, a loop that fails leaves rows and no watermark. -/
theorem drain_error (ok : Outcomes) (hl : Loaded env₀ s rows bl env) {es : List Entry} {n : Nat}
    {prevKind : UInt8} {prevKey : Bytes} {handle : Handle}
    (h : (drain ok stop es n prevKind prevKey bl env handle).1 ≠ .ok ()) :
    ∃ done, (drain ok stop es n prevKind prevKey bl env handle).2 =
      (applyRows s done env₀, handle) := by
  obtain ⟨done, henv⟩ := hl.committed
  induction es generalizing n prevKind prevKey rows bl env done with
  | nil =>
    cases stop with
    | some e => exact ⟨done, by rw [drain, henv]⟩
    | none =>
      rw [drain] at h ⊢
      cases hfin : bl.finish ok.last ok.mark env handle with
      | mk r rest =>
        obtain ⟨bl', env', handle'⟩ := rest
        rw [hfin] at h
        cases r with
        | ok u => exact absurd rfl h
        | error e =>
          obtain ⟨rfl, done', rfl⟩ := hl.finish_error hfin
          exact ⟨done', rfl⟩
  | cons e es ih =>
    rw [drain] at h ⊢
    cases hkey : e.key with
    | none => exact ⟨done, by rw [henv]⟩
    | some key =>
      rw [hkey] at h
      dsimp only at h ⊢
      split
      · exact ⟨done, by rw [henv]⟩
      · rename_i hkind
        rw [if_neg hkind] at h
        split
        · exact ⟨done, by rw [henv]⟩
        · rename_i hasc
          rw [if_neg hasc] at h
          rcases hl.load (ok.chunk n) e.row with ⟨bl', env', hload, hl'⟩ | ⟨-, bl', hload⟩
          · rw [hload] at h ⊢
            obtain ⟨done', henv'⟩ := hl'.committed
            exact ih hl' h done' henv'
          · rw [hload]
            exact ⟨done, by rw [henv]⟩

end Loop

/-! ## The start of a run -/

theorem genesis_fst_congr {h h' : Handle} {env env' : Env}
    (hh : h'.genesisPlus1 = h.genesisPlus1)
    (hrow : Store.row env' .genesis = Store.row env .genesis) :
    (genesis h' env').1 = (genesis h env).1 := by
  have hget : getMetaU64 env' metaGenesis = getMetaU64 env metaGenesis := getMetaU64_congr hrow
  unfold genesis
  rw [hh, hget]
  split
  · rfl
  · split <;> rfl

/-- What was read of the genesis is read again from the cache. -/
theorem genesis_again {h : Handle} {env : Env} {s : UInt64}
    (hg : (genesis h env).1 = .ok (some s)) :
    (genesis (genesis h env).2 env).1 = .ok (some s) := by
  by_cases hcached : h.genesisPlus1 ≠ 0
  · have hsame : (genesis h env).2 = h := by
      unfold genesis
      rw [if_pos hcached]
    rw [hsame]
    exact hg
  · unfold genesis at hg ⊢
    rw [if_neg hcached] at hg ⊢
    cases hm : getMetaU64 env metaGenesis with
    | error e => rw [hm] at hg; cases hg
    | ok o =>
      cases o with
      | none => rw [hm] at hg; cases hg
      | some s' =>
        rw [hm] at hg
        obtain rfl := Option.some.inj (Except.ok.inj hg)
        dsimp only
        split
        · rw [UInt64.add_sub_cancel]
        · rfl

/-- On a store without a genesis, or with this one, the loader starts, and the genesis is set. -/
theorem newBaseline_starts {h : Handle} {env : Env} {s : UInt64}
    (hgen : (genesis h env).1 = .ok none ∨ (genesis h env).1 = .ok (some s)) :
    ∃ bl env₁ h₁, newBaseline h env s = .ok (bl, env₁, h₁) ∧
      (genesis h₁ env₁).1 = .ok (some s) := by
  unfold newBaseline
  cases hg : genesis h env with
  | mk r h₁ =>
    rw [hg] at hgen
    rcases hgen with rfl | rfl
    · refine ⟨_, _, _, rfl, ?_⟩
      have hget : getMetaU64 (putMeta env metaGenesis (beBytes s)) metaGenesis = .ok (some s) :=
        getMetaU64_of_row (r := .genesis) (OrdMap.get_put_self _ _ _)
      unfold genesis
      split
      · rw [UInt64.add_sub_cancel]
      · rw [hget]
    · have hagain := genesis_again (congrArg Prod.fst hg)
      rw [hg] at hagain
      exact ⟨_, env, h₁, if_neg (not_not.mpr rfl), hagain⟩

/-! ## Reading the entries back -/

section Reads

variable {keccak : Bytes → Hash} {h : Handle} {env : Env} {s : UInt64} {addr : Address}

/-- An account row at the pivot is read, a destruct at or before it notwithstanding. -/
theorem getAccount_of_row {a : Account} (hat : checkAt h env s = .ok ())
    (hrow : Store.row env (.history (.account addr) s) = some (encodeAccount [] a)) :
    getAccount keccak h env addr s = .ok (some a) := by
  have hseek : seekLE env (appendAccountKey [] addr s) = some (s, encodeAccount [] a) :=
    seekLE_self (t := .account addr) hrow
  have hdecode : accountRow (encodeAccount [] a) = .ok (some a) := by
    unfold accountRow
    rw [decodeAccount_encodeAccount]
  unfold getAccount getAccountAt
  rw [hat, hseek]
  cases hd : seekLE env (appendDestructKey [] addr s) with
  | none => exact hdecode
  | some d =>
    obtain ⟨dh, w⟩ := d
    obtain ⟨-, hle, -⟩ := seekLE_hit (t := .destruct addr) hd
    dsimp only
    rw [if_pos hle]
    exact hdecode

/-- A slot row at the pivot is read, unless the account was destructed at the pivot and has no
row there. -/
theorem getSlot_of_row {slot v : Hash} (hat : checkAt h env s = .ok ())
    (hrow : Store.row env (.history (.slot addr slot) s) = some v.1) :
    getSlot keccak h env addr slot s =
      if Store.row env (.history (.destruct addr) s) ≠ none ∧
          Store.row env (.history (.account addr) s) = none then .error (.destructEdge s)
      else .ok v := by
  have hseek : seekLE env (appendSlotKey [] addr slot s) = some (s, v.1) :=
    seekLE_self (t := .slot addr slot) hrow
  have hcopy : slotRow .slotSize v.1 = .ok v := dif_pos v.2
  unfold getSlot getSlotAt
  rw [hat, hseek]
  cases hd : seekLE env (appendDestructKey [] addr s) with
  | none =>
    have hnone := row_eq_none_of_seekLE (t := .destruct addr) hd (by simp)
    rw [if_neg fun hedge => hedge.1 hnone]
    exact hcopy
  | some d =>
    obtain ⟨dh, w⟩ := d
    obtain ⟨hrow', hle, -⟩ := seekLE_hit (t := .destruct addr) hd
    dsimp only
    rw [if_neg (UInt64.not_lt.mpr hle)]
    by_cases heq : dh = s
    · -- destructed at the pivot: the read asks for an account row at the pivot
      subst heq
      rw [if_pos rfl]
      have hd' : Store.row env (.history (.destruct addr) dh) ≠ none := by simp [hrow']
      cases ha : seekLE env (appendAccountKey [] addr dh) with
      | none =>
        have hnone := row_eq_none_of_seekLE (t := .account addr) ha (by simp)
        rw [if_pos ⟨hd', hnone⟩]
      | some b =>
        obtain ⟨ah, w₁⟩ := b
        dsimp only
        by_cases hah : ah = dh
        · subst hah
          have hsome := (seekLE_hit (t := .account addr) ha).1
          rw [if_neg (not_not.mpr rfl), if_neg fun hedge => by simp [hsome] at hedge]
          exact hcopy
        · have hnone := row_eq_none_of_seekLE (t := .account addr) ha (by simp [hah])
          rw [if_pos hah, if_pos ⟨hd', hnone⟩]
    · have hnone := row_eq_none_of_seekLE (t := .destruct addr) hd (by simp [heq])
      rw [if_neg heq, if_neg fun hedge => hedge.1 hnone]
      exact hcopy

end Reads

/-! ## The whole run -/

/-- The kind and the key of an entry are what its row is written under. -/
theorem tag_of_target {s : UInt64} {e e' : Entry} (he : e.Known) (he' : e'.Known)
    (h : e.row.target s = e'.row.target s) : e.tag = e'.tag := by
  unfold Entry.tag Entry.key
  unfold Entry.row at h
  unfold Entry.Known at he he'
  simp only [entryAccount, entrySlot, entryCode] at *
  rcases he with hk | hk | hk <;> rcases he' with hk' | hk' | hk' <;>
    simp_all [LoadRow.target]

/-- The iterator enumerates strictly ascending entries of known kinds and ends cleanly. -/
structure StateIterator.Ordered {ε : Type} (it : StateIterator ε) : Prop where
  known : ∀ e ∈ it.entries, e.Known
  sorted : it.entries.Pairwise fun e e' => TagLt e.tag e'.tag
  clean : it.stop = none

/-- The account, slot or code of an entry is read at the pivot with its value. -/
structure Entry.Readable (keccak : Bytes → Hash) (h : Handle) (env : Env) (s : UInt64) (e : Entry) :
    Prop where
  account : e.kind = entryAccount → getAccount keccak h env e.addr s = .ok (some e.account)
  slot : e.kind = entrySlot → getSlot keccak h env e.addr e.slot s = .ok e.value
  code : e.kind = entryCode → getCode env e.hash = .ok e.code

/-- The entry is a slot of an account that was destructed at the pivot, and neither the store
nor the iterator has the account there. -/
structure Entry.Orphan {ε : Type} (env : Env) (s : UInt64) (it : StateIterator ε) (e : Entry) :
    Prop where
  slot : e.kind = entrySlot
  destructed : Store.row env (.history (.destruct e.addr) s) ≠ none
  noRow : Store.row env (.history (.account e.addr) s) = none
  noEntry : ∀ e' ∈ it.entries, e'.kind = entryAccount → e'.addr ≠ e.addr

theorem follow_start {es : List Entry} :
    Follow ((0, [])) es ↔
      (∀ e ∈ es, e.Known) ∧ es.Pairwise fun e e' => TagLt e.tag e'.tag := by
  refine ⟨fun h => ⟨h.known, h.sorted⟩, fun h => ⟨h.1, fun e he => ?_, h.2⟩⟩
  -- every known kind is above the kind the loop starts from
  have hpos : 0 < e.kind := by
    rcases h.1 e he with hk | hk | hk <;> rw [hk] <;> decide
  exact tagLt_iff.mpr (Or.inl hpos)

theorem row_marked_of_ne {env : Env} {r : Row} (hc : r ≠ .baselineComplete)
    (hp : r ≠ .baselineProgress) : Store.row (marked env) r = Store.row env r :=
  (row_put_of_ne (r := .baselineComplete) _ _ hc).trans
    ((row_del env .baselineProgress r).trans (if_neg hp))

theorem Entry.row_account {e : Entry} (hk : e.kind = entryAccount) :
    e.row = .account e.addr e.account := if_pos hk

theorem Entry.row_slot {e : Entry} (hk : e.kind = entrySlot) :
    e.row = .slot e.addr e.slot e.value := by
  unfold Entry.row
  rw [if_neg (by rw [hk]; decide), if_pos hk]

theorem Entry.row_code {e : Entry} (hk : e.kind = entryCode) : e.row = .code e.hash e.code := by
  unfold Entry.row
  rw [if_neg (by rw [hk]; decide), if_neg (by rw [hk]; decide)]

/-- The rows of entries are accounts, slots and code. -/
theorem Entry.target_cases (s : UInt64) (e : Entry) :
    e.row.target s = .history (.account e.addr) s ∨
      e.row.target s = .history (.slot e.addr e.slot) s ∨ e.row.target s = .code e.hash := by
  unfold Entry.row
  split
  · exact Or.inl rfl
  · split
    · exact Or.inr (Or.inl rfl)
    · exact Or.inr (Or.inr rfl)

section Accepted

variable {ε : Type} {it : StateIterator ε} {s : UInt64} {env₁ : Env}

/-- The environment of a run that goes through. -/
def accepted (it : StateIterator ε) (s : UInt64) (env₁ : Env) : Env :=
  marked (applyRows s (it.entries.map Entry.row) env₁)

/-- Rows that are neither of entries nor markers stay. -/
theorem row_accepted_of_ne {r : Row} (hr : ∀ e ∈ it.entries, r ≠ e.row.target s)
    (hc : r ≠ .baselineComplete) (hp : r ≠ .baselineProgress) :
    Store.row (accepted it s env₁) r = Store.row env₁ r := by
  refine (row_marked_of_ne hc hp).trans (row_applyRows_of_ne env₁ fun l hl => ?_)
  obtain ⟨e, he, rfl⟩ := List.mem_map.mp hl
  exact hr e he

/-- Every entry has its row. -/
theorem row_accepted (hit : it.Ordered) (s : UInt64) (env₁ : Env) {e : Entry}
    (he : e ∈ it.entries) :
    Store.row (accepted it s env₁) (e.row.target s) = e.row.value := by
  have hne : e.row.target s ≠ .baselineComplete ∧ e.row.target s ≠ .baselineProgress := by
    rcases e.target_cases s with h | h | h <;> simp [h]
  refine (row_marked_of_ne hne.1 hne.2).trans ?_
  refine row_applyRows_of_mem env₁ ?_ (List.mem_map_of_mem he)
  refine List.pairwise_map.mpr (hit.sorted.imp_of_mem fun {a b} ha hb hlt heq => ?_)
  exact absurd (tag_of_target (hit.known a ha) (hit.known b hb) heq) hlt.ne

theorem queued_accepted_iff :
    firstQueued (applyRows s (it.entries.map Entry.row) env₁) = none ↔ ¬ Queued env₁ := by
  rw [firstQueued_eq_none_iff, not_iff_not]
  refine queued_congr fun k hk => get_applyRows_of_space env₁ hk fun l hl => ?_
  obtain ⟨e, -, rfl⟩ := List.mem_map.mp hl
  rcases e.target_cases s with h | h | h
  all_goals
    rw [h]
    simp only [Row.space, Track.space]
    decide

/-- The account has a row at the pivot iff it had one or is among the entries. -/
theorem row_accepted_account (hit : it.Ordered) (addr : Address) :
    Store.row (accepted it s env₁) (.history (.account addr) s) = none ↔
      Store.row env₁ (.history (.account addr) s) = none ∧
        ∀ e ∈ it.entries, e.kind = entryAccount → e.addr ≠ addr := by
  by_cases hin : ∃ e ∈ it.entries, e.kind = entryAccount ∧ e.addr = addr
  · obtain ⟨e, he, hk, rfl⟩ := hin
    have hrow := row_accepted hit s env₁ he
    rw [Entry.row_account hk] at hrow
    refine iff_of_false (fun hnone => ?_) fun h => h.2 e he hk rfl
    exact absurd (hrow.symm.trans hnone) (Option.some_ne_none _)
  · have hne : ∀ e ∈ it.entries, Row.history (.account addr) s ≠ e.row.target s := by
      intro e he heq
      refine hin ⟨e, he, ?_⟩
      unfold Entry.row at heq
      split at heq
      · rename_i hk
        refine ⟨hk, ?_⟩
        simpa [LoadRow.target] using heq.symm
      · split at heq <;> simp [LoadRow.target] at heq
    rw [row_accepted_of_ne hne (by simp) (by simp)]
    refine ⟨fun h => ⟨h, fun e he hk haddr => hin ⟨e, he, hk, haddr⟩⟩, fun h => h.1⟩

theorem row_accepted_destruct (addr : Address) :
    Store.row (accepted it s env₁) (.history (.destruct addr) s) =
      Store.row env₁ (.history (.destruct addr) s) := by
  refine row_accepted_of_ne (fun e _ heq => ?_) (by simp) (by simp)
  rcases e.target_cases s with h | h | h <;> simp [h] at heq

/-- The genesis is still read. -/
theorem checkAt_accepted {h₁ : Handle} (hgen : (genesis h₁ env₁).1 = .ok (some s)) :
    checkAt { h₁ with baselineDone := true } (accepted it s env₁) s = .ok () := by
  have hrow : Store.row (accepted it s env₁) .genesis = Store.row env₁ .genesis := by
    refine row_accepted_of_ne (fun e _ heq => ?_) (by simp) (by simp)
    rcases e.target_cases s with h | h | h <;> simp [h] at heq
  have hsame : (genesis { h₁ with baselineDone := true } (accepted it s env₁)).1 =
      (genesis h₁ env₁).1 := genesis_fst_congr rfl hrow
  unfold checkAt
  rw [hsame, hgen]
  exact if_neg (UInt64.lt_irrefl s)

variable {keccak : Bytes → Hash} {h₁ : Handle} {e : Entry}

/-- An entry that is no orphan is read back. -/
theorem readable_accepted (hit : it.Ordered) (hgen : (genesis h₁ env₁).1 = .ok (some s))
    (he : e ∈ it.entries) (horphan : ¬ e.Orphan env₁ s it) :
    e.Readable keccak { h₁ with baselineDone := true } (accepted it s env₁) s := by
  have hrow := row_accepted hit s env₁ he
  have hat : checkAt { h₁ with baselineDone := true } (accepted it s env₁) s = .ok () :=
    checkAt_accepted hgen
  refine ⟨fun hk => ?_, fun hk => ?_, fun hk => ?_⟩
  · rw [Entry.row_account hk] at hrow
    exact getAccount_of_row hat hrow
  · rw [Entry.row_slot hk] at hrow
    rw [getSlot_of_row hat hrow, if_neg]
    rintro ⟨hdestruct, hnone⟩
    obtain ⟨hnone, hentries⟩ := (row_accepted_account hit e.addr).mp hnone
    rw [row_accepted_destruct] at hdestruct
    exact horphan ⟨hk, hdestruct, hnone, hentries⟩
  · rw [Entry.row_code hk] at hrow
    have hget : (accepted it s env₁).get (appendCodeKey [] e.hash) = some e.code := hrow
    unfold getCode
    rw [hget]

/-- The read of an orphan is refused. -/
theorem orphan_accepted (hit : it.Ordered) (hgen : (genesis h₁ env₁).1 = .ok (some s))
    (he : e ∈ it.entries) (horphan : e.Orphan env₁ s it) :
    getSlot keccak { h₁ with baselineDone := true } (accepted it s env₁) e.addr e.slot s =
      .error (.destructEdge s) := by
  have hrow := row_accepted hit s env₁ he
  rw [Entry.row_slot horphan.slot] at hrow
  rw [getSlot_of_row (checkAt_accepted hgen) hrow, if_pos]
  rw [row_accepted_destruct, row_accepted_account hit]
  exact ⟨horphan.destructed, horphan.noRow, horphan.noEntry⟩

end Accepted

/-- A fresh loader has been given nothing. -/
theorem Loaded.fresh (env : Env) (s : UInt64) : Loaded env s [] ⟨s, [], none⟩ env :=
  ⟨rfl, rfl, [], [], rfl, rfl, rfl⟩

/-- However its transactions end, a run that fails does not set the watermark. -/
theorem runBaseline_error {ε : Type} (ok : Outcomes) {h : Handle} {env : Env} {s : UInt64}
    {it : StateIterator ε} (herr : (runBaseline ok h env s it).1 ≠ .ok ()) :
    Store.row (runBaseline ok h env s it).2.1 .baselineComplete = Store.row env .baselineComplete ∧
      (runBaseline ok h env s it).2.2.baselineDone = h.baselineDone := by
  unfold runBaseline at herr ⊢
  cases hnew : newBaseline h env s with
  | error e => exact ⟨rfl, rfl⟩
  | ok r =>
    obtain ⟨bl, env₁, h₁⟩ := r
    rw [hnew] at herr
    obtain ⟨rfl, henv, hdone⟩ := newBaseline_ok hnew
    obtain ⟨done, hdrain⟩ := drain_error ok (Loaded.fresh env₁ s) herr
    dsimp only
    rw [hdrain]
    refine ⟨?_, hdone⟩
    dsimp only
    rw [row_applyRows_of_ne env₁ fun l _ => (Bulk.target_ne_complete s l).symm]
    rcases henv with rfl | rfl
    · rfl
    · exact row_put_of_ne env _ (by simp)

/-- What the start of a run leaves alone is read as before. -/
theorem Entry.Orphan.congr {ε : Type} {env env₁ : Env} {s : UInt64} {it : StateIterator ε}
    {e : Entry} (hrow : ∀ t b, Store.row env₁ (.history t b) = Store.row env (.history t b)) :
    e.Orphan env₁ s it ↔ e.Orphan env s it := by
  constructor
  · rintro ⟨hk, hd, ha, hentries⟩
    exact ⟨hk, hrow _ _ ▸ hd, hrow _ _ ▸ ha, hentries⟩
  · rintro ⟨hk, hd, ha, hentries⟩
    exact ⟨hk, (hrow _ _).symm ▸ hd, (hrow _ _).symm ▸ ha, hentries⟩

theorem queued_put_genesis (env : Env) (v : Bytes) :
    Queued (env.put (Row.key .genesis) v) ↔ Queued env := by
  refine queued_congr fun k hk => OrdMap.get_put_of_ne env v ?_
  rintro rfl
  exact absurd hk (by decide)

/-- `RunBaseline` accepts exactly the strictly ordered enumerations.  On a store with no genesis
or this one, while no transaction fails, it returns nil iff the entries are of known kinds and
strictly ascending by kind and key, the iterator ends cleanly and no storage-queue row is
pending.  Then the watermark is set and every entry is read at the pivot with its value, except
that the read of a slot is refused where the store says that its account was destructed at the
pivot and nothing has the account there.  A run that fails does not set the watermark, however
its transactions end. -/
theorem runBaseline_accepts_ordered {ε : Type} (keccak : Bytes → Hash) (h : Handle) (env : Env)
    (s : UInt64) (it : StateIterator ε)
    (hgen : (genesis h env).1 = .ok none ∨ (genesis h env).1 = .ok (some s)) :
    ((runBaseline .commit h env s it).1 = .ok () ↔ it.Ordered ∧ ¬ Queued env) ∧
    (∀ env' h', runBaseline .commit h env s it = (.ok (), env', h') →
      Store.row env' .baselineComplete = some [1] ∧ h'.baselineDone = true ∧
      ∀ e ∈ it.entries, (¬ e.Orphan env s it → e.Readable keccak h' env' s) ∧
        (e.Orphan env s it → getSlot keccak h' env' e.addr e.slot s = .error (.destructEdge s))) ∧
    ∀ ok, (runBaseline ok h env s it).1 ≠ .ok () →
      Store.row (runBaseline ok h env s it).2.1 .baselineComplete =
        Store.row env .baselineComplete ∧
      (runBaseline ok h env s it).2.2.baselineDone = h.baselineDone := by
  obtain ⟨bl, env₁, h₁, hnew, hgen₁⟩ := newBaseline_starts hgen
  obtain ⟨rfl, henv, -⟩ := newBaseline_ok hnew
  have hrun : runBaseline .commit h env s it =
      drain .commit it.stop it.entries 0 0 [] ⟨s, [], none⟩ env₁ h₁ := by
    unfold runBaseline
    rw [hnew]
  have hrow : ∀ t b, Store.row env₁ (.history t b) = Store.row env (.history t b) := by
    intro t b
    rcases henv with rfl | rfl
    · rfl
    · exact row_put_of_ne env _ (by simp)
  have hqueued : Queued env₁ ↔ Queued env := by
    rcases henv with rfl | rfl
    · rfl
    · exact queued_put_genesis env _
  -- what the loop found in order is what the iterator enumerates in order
  have hordered : (runBaseline .commit h env s it).1 = .ok () → it.Ordered ∧ ¬ Queued env := by
    intro hok
    rw [hrun] at hok
    obtain ⟨hfollow, hstop, hqueue⟩ := follow_of_drain (Loaded.fresh env₁ s) hok
    obtain ⟨hknown, hsorted⟩ := follow_start.mp hfollow
    exact ⟨⟨hknown, hsorted, hstop⟩, fun hq => queued_accepted_iff.mp hqueue (hqueued.mpr hq)⟩
  have haccepts : it.Ordered ∧ ¬ Queued env → runBaseline .commit h env s it =
      (.ok (), accepted it s env₁, { h₁ with baselineDone := true }) := by
    rintro ⟨hit, hqueue⟩
    rw [hrun, hit.clean]
    exact drain_ok (Loaded.fresh env₁ s) (follow_start.mpr ⟨hit.known, hit.sorted⟩)
      (queued_accepted_iff.mpr fun hq => hqueue (hqueued.mp hq))
  refine ⟨⟨hordered, fun hit => by rw [haccepts hit]⟩, fun env' h' hok => ?_,
    fun ok => runBaseline_error ok⟩
  have hit := hordered (by rw [hok])
  rw [haccepts hit] at hok
  obtain ⟨rfl, rfl⟩ := Prod.mk.inj (Prod.mk.inj hok).2
  refine ⟨OrdMap.get_put_self _ _ _, rfl, fun e he => ⟨fun hno => ?_, fun horphan => ?_⟩⟩
  · exact readable_accepted hit.1 hgen₁ he fun h => hno ((Entry.Orphan.congr hrow).mp h)
  · exact orphan_accepted hit.1 hgen₁ he ((Entry.Orphan.congr hrow).mpr horphan)

namespace BaselineSample

open Store.Sample

/-- The account, a slot of it and a code. -/
def accountEntry : Entry :=
  ⟨entryAccount, addr, ⟨10, 1, Hash.zero⟩, Hash.zero, Hash.zero, Hash.zero, []⟩

def slotEntry : Entry :=
  ⟨entrySlot, addr, Account.zero, slot1, FixedBytes.ofNat 32 9, Hash.zero, []⟩

def codeEntry : Entry :=
  ⟨entryCode, FixedBytes.zero 20, Account.zero, Hash.zero, Hash.zero, FixedBytes.ofNat 32 4, [96]⟩

def full : StateIterator Unit := ⟨[accountEntry, slotEntry, codeEntry], none⟩

/-- The slot without its account. -/
def slotOnly : StateIterator Unit := ⟨[slotEntry], none⟩

/-- A store whose only block, 5, destructs the account. -/
def destructed : Env := writeBlock OrdMap.empty ⟨5, Hash.zero, Hash.zero, 0, [.destruct addr]⟩

/-- The slot is loaded on top of the destruct. -/
def edge : Except (BaselineErr Unit) Unit × Env × Handle :=
  runBaseline .commit {} destructed 5 slotOnly

end BaselineSample

open BaselineSample Store.Sample in
/-- The run goes through, and yet its slot cannot be read at the pivot: the store has the
account destructed in that block and no account row for it. -/
theorem baseline_slot_refused :
    ((genesis {} destructed).1 = .ok none ∧ slotOnly.Ordered ∧ ¬ Queued destructed) ∧
    edge.1 = .ok () ∧
    getSlot digest edge.2.2 edge.2.1 addr slot1 5 = .error (.destructEdge 5) ∧
    ¬ slotEntry.Readable digest edge.2.2 edge.2.1 5 := by
  have hread : getSlot digest edge.2.2 edge.2.1 addr slot1 5 = .error (.destructEdge 5) := by
    decide +kernel
  refine ⟨⟨by decide +kernel, ⟨?_, by simp [slotOnly], rfl⟩, ?_⟩, by decide +kernel, hread, ?_⟩
  · intro e he
    obtain rfl := List.mem_singleton.mp he
    exact Or.inr (Or.inl rfl)
  · exact firstQueued_eq_none_iff.mp (by decide +kernel)
  · intro h
    exact absurd (hread.symm.trans (h.slot rfl)) (by simp)

open BaselineSample Store.Sample in
/-- A full state on an empty store. -/
theorem runBaseline_accepts_ordered_full :
    full.Ordered ∧
    accountEntry.Readable digest (runBaseline .commit {} OrdMap.empty 5 full).2.2
      (runBaseline .commit {} OrdMap.empty 5 full).2.1 5 := by
  have hgen : (genesis {} OrdMap.empty).1 = .ok none := rfl
  obtain ⟨hiff, hreads, -⟩ := runBaseline_accepts_ordered digest {} OrdMap.empty 5 full (.inl hgen)
  have hok : (runBaseline .commit {} OrdMap.empty 5 full).1 = .ok () := by decide +kernel
  obtain ⟨-, -, hentries⟩ := hreads _ _ (Prod.ext hok rfl)
  refine ⟨(hiff.mp hok).1, (hentries accountEntry (by simp [full])).1 fun horphan => ?_⟩
  exact absurd horphan.slot (by decide)

end Flatstate.Node
