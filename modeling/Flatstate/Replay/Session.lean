import Flatstate.Mem.TipReads

set_option autoImplicit false

/-!
# Replay: sessions over the history (`replay/replay.go`)

A session starts at a height of the store and walks up block by block.  It reads
through a map of pinned values: a miss is read from the store at the session's
height and pinned, and every step applies the diff row of the next block to the
pinned keys.

The store may grow while the session runs.  A slot read that has to pin its account
first asks the store twice, and blocks may be committed in between.

The pins are exact at the session's height: `Diff.Exact` is the invariant, kept by a
pin of what the store answers at that height and by a step (`Diff.Exact.applyPinned`).
The one shortcut, that a slot of an absent account is zero, is where the baseline must
hold slots under existing accounts only.
-/

namespace Flatstate.Replay

open Foundation Schema Capture Store
open Mem (Map Entry)

/-! ## The session -/

/-- `Session`; its store is passed to each call. -/
structure Session where
  m : Map
  /-- the state reflects the end of this block -/
  block : UInt64

/-- `Open`. -/
def openSession (h : Handle) (env : Env) (startBlock : UInt64) : Except Err Session :=
  match (genesis h env).1 with
  | .error e => .error e
  | .ok none => .error .noGenesis
  | .ok (some s) =>
    if startBlock < s then .error (.belowGenesis startBlock s) else .ok ⟨Map.new, startBlock⟩

/-- `Session.Next`; `none` means caught up with the store. -/
def Session.next (env : Env) (s : Session) : Except Err (Option Batch) × Session :=
  match getDiff env (s.block + 1) with
  | .error (.diffNotFound _) => (.ok none, s)
  | .error e => (.error e, s)
  | .ok diff => (.ok (some diff), ⟨s.m.apply diff, diff.block⟩)

section
variable (keccak : Bytes → Hash)

/-- `Session.Account`. -/
def Session.account (h : Handle) (env : Env) (s : Session) (addr : Address) :
    Except Err (Option Account) × Session :=
  match s.m.accounts addr with
  | some a => (.ok a.toSchema, s)
  | none =>
    match getAccount keccak h env addr s.block with
    | .error e => (.error e, s)
    | .ok acct => (.ok acct, { s with m := s.m.pinAccount addr acct })

/-- The store read at the end of `Session.Slot`. -/
def Session.slotFetch (h : Handle) (env : Env) (s : Session) (addr : Address) (slot : Hash) :
    Except Err Hash × Session :=
  match getSlot keccak h env addr slot s.block with
  | .error e => (.error e, s)
  | .ok v => (.ok v, { s with m := s.m.pinSlot addr slot v })

/-- `Session.Slot`: the account is read in `env`, the slot in `env'`. -/
def Session.slot (h : Handle) (env : Env) (h' : Handle) (env' : Env) (s : Session)
    (addr : Address) (slot : Hash) : Except Err Hash × Session :=
  match s.m.accounts addr with
  | some a =>
    if a.present then
      match a.storage slot with
      | some v => (.ok v, s)
      | none => s.slotFetch keccak h' env' addr slot
    else (.ok Hash.zero, s)
  | none =>
    -- a slot pin must not fake account knowledge
    match s.account keccak h env addr with
    | (.error e, s1) => (.error e, s1)
    | (.ok _, s1) => s1.slotFetch keccak h' env' addr slot

end

/-- `Session.Code`. -/
def Session.code (env : Env) (s : Session) (hash : Hash) : Except Err Bytes × Session :=
  match s.m.code hash with
  | some c => (.ok c, s)
  | none =>
    match getCode env hash with
    | .error e => (.error e, s)
    | .ok c => (.ok c, { s with m := s.m.pinCode hash c })

/-! ## Runs -/

/-- A store with a complete baseline and the blocks `bs` over it. -/
structure Complete (keccak : Bytes → Hash) (base : Trie) (S : UInt64) (w : Site)
    (bs : List Batch) : Prop where
  built : Built keccak base S w bs
  complete : row w.env .baselineComplete ≠ none

/-- LMDB has taken every diff row, so each is shorter than `2 ^ 32` bytes. -/
structure Whole (keccak : Bytes → Hash) (base : Trie) (S : UInt64) (w : Site) (bs : List Batch) :
    Prop extends Complete keccak base S w bs where
  fits : ∀ b ∈ bs, (b.encode []).length < 2 ^ 32

/-- The handle a session reads through: the one of the writer process or of another. -/
def HandleOf (w : Site) (h : Handle) : Prop := h = w.writer ∨ h = w.reader

/-- The runs of a session, over the store as it is at each call. -/
inductive SessionRun (keccak : Bytes → Hash) (base : Trie) (S : UInt64) :
    Site → List Batch → Session → Prop where
  /-- at a height up to the newest block -/
  | opened {w : Site} {bs : List Batch} (hw : Whole keccak base S w bs) {h : Handle}
      (hh : HandleOf w h) {startBlock : UInt64} (hb : startBlock.toNat ≤ S.toNat + bs.length)
      {s : Session} (hs : openSession h w.env startBlock = .ok s) : SessionRun keccak base S w bs s
  /-- the store as it is later, with as many or more blocks -/
  | later {w w' : Site} {bs more : List Batch} {s : Session} (hr : SessionRun keccak base S w bs s)
      (hw : Whole keccak base S w' (bs ++ more)) : SessionRun keccak base S w' (bs ++ more) s
  | next {w : Site} {bs : List Batch} {s : Session} (hr : SessionRun keccak base S w bs s) :
      SessionRun keccak base S w bs (s.next w.env).2
  | account {w : Site} {bs : List Batch} {s : Session} (hr : SessionRun keccak base S w bs s)
      {h : Handle} (hh : HandleOf w h) (a : Address) :
      SessionRun keccak base S w bs (s.account keccak h w.env a).2
  | slot {w w' : Site} {bs more : List Batch} {s : Session} (hr : SessionRun keccak base S w bs s)
      (hw : Whole keccak base S w' (bs ++ more)) {h h' : Handle} (hh : HandleOf w h)
      (hh' : HandleOf w' h') (a : Address) (k : Hash) :
      SessionRun keccak base S w' (bs ++ more) (s.slot keccak h w.env h' w'.env a k).2
  | code {w : Site} {bs : List Batch} {s : Session} (hr : SessionRun keccak base S w bs s)
      (hash : Hash) : SessionRun keccak base S w bs (s.code w.env hash).2

section Runs

variable {keccak : Bytes → Hash} {base : Trie} {S : UInt64} {w : Site} {bs : List Batch}

/-! ## What the store answers at a height -/

theorem Whole.wraps (hw : Whole keccak base S w bs) {n : Nat} (hn : n ≤ bs.length) :
    S.toNat + n < 2 ^ 64 := by
  have := hw.built.inv.refines.fits
  omega

theorem Whole.le_height (hw : Whole keccak base S w bs) {n : Nat} (hn : n ≤ bs.length) :
    S ≤ height S n := by
  rw [UInt64.le_iff_toNat_le, toNat_height (hw.wraps hn)]
  omega

theorem Whole.reach (hw : Whole keccak base S w bs) {n : Nat} (hn : n ≤ bs.length) :
    Store.reach S bs (height S n) = n := by
  rw [Store.reach, toNat_height (hw.wraps hn)]
  omega

theorem Complete.getAccount (hw : Complete keccak base S w bs) {h : Handle} (hh : HandleOf w h)
    {B : UInt64} (hB : S ≤ B) (a : Address) :
    Store.getAccount keccak h w.env a B =
      .ok (stateAt keccak base bs (Store.reach S bs B) (.account a)) := by
  rcases hw.built.inv.getAccount hh hB a with hok | ⟨-, hun⟩
  · exact hok
  · exact absurd hun.unset hw.complete

theorem Complete.getSlot (hw : Complete keccak base S w bs) {h : Handle} (hh : HandleOf w h)
    {B : UInt64} (hB : S ≤ B) (a : Address) (k : Hash) :
    Store.getSlot keccak h w.env a k B =
      .ok (stateAt keccak base bs (Store.reach S bs B) (.slot a k)) := by
  rcases hw.built.inv.getSlot hh hB a k with hok | ⟨-, hun⟩
  · exact hok
  · exact absurd hun.unset hw.complete

/-- The diff row above a height is the next block, and there is none above the newest. -/
theorem Whole.getDiff (hw : Whole keccak base S w bs) {n : Nat} (hn : n ≤ bs.length) :
    Store.getDiff w.env (height S n + 1) =
      match bs[n]? with
      | some b => .ok b
      | none => .error (.diffNotFound (height S n + 1)) := by
  have hlt := hw.wraps hn
  rw [Store.getDiff]
  cases hb : bs[n]? with
  | some b =>
    have hlt' : n + 1 ≤ bs.length := (List.getElem?_eq_some_iff.mp hb).1
    have hsucc : height S n + 1 = height S (n + 1) := by
      apply UInt64.toNat_inj.mp
      rw [UInt64.toNat_add, toNat_height hlt, toNat_height (hw.wraps hlt')]
      exact Nat.mod_eq_of_lt (hw.wraps hlt')
    have hrow : w.env.get (appendDiffKey [] (height S n + 1)) = some (b.encode []) := by
      rw [hsucc]
      exact hw.built.inv.refines.diffs n b hb
    rw [hrow]
    dsimp only
    rw [decode_encode_of_encodable (encodable_of_length (hw.fits b (List.mem_of_getElem? hb)))]
  | none =>
    have hlen : bs.length ≤ n := List.getElem?_eq_none_iff.mp hb
    have hrow : w.env.get (appendDiffKey [] (height S n + 1)) = none := by
      -- past the last number there is, the next height is 0
      refine hw.built.diff_none ?_
      rw [UInt64.toNat_add, toNat_height hlt]
      have hone : (1 : UInt64).toNat = 1 := rfl
      rw [hone]
      rcases Nat.lt_or_ge (S.toNat + n + 1) (2 ^ 64) with h | h
      · rw [Nat.mod_eq_of_lt h]
        omega
      · rw [show S.toNat + n + 1 = 2 ^ 64 by omega]
        omega
    rw [hrow]

theorem Whole.noOrphans (hw : Whole keccak base S w bs) (hno : NoOrphans (base.state keccak))
    (n : Nat) : NoOrphans (stateAt keccak base bs n) :=
  hno.foldBatches (Mem.ContractChain.take hw.built.inv.chain n)

theorem stateAt_append {n : Nat} (hn : n ≤ bs.length) (more : List Batch) :
    stateAt keccak base (bs ++ more) n = stateAt keccak base bs n := by
  rw [stateAt, stateAt, List.take_append_of_le_length hn]

/-! ## Exact pins -/

theorem exact_pinAccount {m : Map} {σ : Capture.State} (h : Diff.Exact m.pins σ) (a : Address) :
    Diff.Exact (m.pinAccount a (σ (.account a))).pins σ := by
  rw [Map.pinAccount]
  split
  · exact h
  · intro k v hv
    rw [Map.pins_set] at hv
    split at hv
    · rename_i ha
      cases k with
      | account a' =>
        obtain rfl : a' = a := ha
        obtain rfl : (Entry.ofFetched (σ (.account a'))).toSchema = v := Option.some.inj hv
        cases (σ (.account a') : Option Account) <;> rfl
      | slot a' s' =>
        -- a fetched account knows no slot
        exfalso
        revert hv
        cases (σ (.account a) : Option Account) with
        | none | some _ => intro hv; cases hv
    · exact h k v hv

theorem exact_pinSlot {m : Map} {σ : Capture.State} (h : Diff.Exact m.pins σ) (a : Address)
    (s : Hash) : Diff.Exact (m.pinSlot a s (σ (.slot a s))).pins σ := by
  rw [Map.pinSlot]
  cases he : m.accounts a with
  | none => exact h
  | some e =>
    dsimp only
    split
    · exact h
    · intro k v hv
      rw [Map.pins_set] at hv
      split at hv
      · rename_i ha
        have hpins : m.pins k = e.pins k := by rw [Map.pins, ha, he]; rfl
        cases k with
        | account a' => exact h _ v (hpins.trans hv)
        | slot a' s' =>
          obtain rfl : a' = a := ha
          have hv' : Function.update e.storage s (some (σ (.slot a' s))) s' = some v := hv
          by_cases hs : s' = s
          · subst hs
            rw [Function.update_self] at hv'
            exact (Option.some.inj hv').symm
          · rw [Function.update_of_ne hs] at hv'
            exact h _ v (hpins.trans hv')
      · exact h k v hv

/-- A session stands at a height of the store, with exact pins. -/
def Stands (keccak : Bytes → Hash) (base : Trie) (S : UInt64) (bs : List Batch) (s : Session)
    (n : Nat) : Prop :=
  s.block = height S n ∧ Diff.Exact s.m.pins (stateAt keccak base bs n)

/-! ## Reads -/

variable {s : Session} {n : Nat}

theorem Stands.account (hs : Stands keccak base S bs s n) (hw : Whole keccak base S w bs)
    (hn : n ≤ bs.length) {h : Handle} (hh : HandleOf w h) (a : Address) :
    (s.account keccak h w.env a).1 = .ok (stateAt keccak base bs n (.account a)) ∧
      Stands keccak base S bs (s.account keccak h w.env a).2 n := by
  rw [Session.account]
  cases he : s.m.accounts a with
  | some e =>
    have hpin : s.m.pins (.account a) = some e.toSchema := by
      simp [Map.pins, Key.addr, he, Entry.pins]
    exact ⟨congrArg Except.ok (hs.2 _ _ hpin), hs⟩
  | none =>
    dsimp only
    rw [hs.1, hw.getAccount hh (hw.le_height hn) a, hw.reach hn]
    exact ⟨rfl, rfl, exact_pinAccount hs.2 a⟩

theorem Stands.slotFetch (hs : Stands keccak base S bs s n) (hw : Whole keccak base S w bs)
    (hn : n ≤ bs.length) {h : Handle} (hh : HandleOf w h) (a : Address) (k : Hash) :
    (s.slotFetch keccak h w.env a k).1 = .ok (stateAt keccak base bs n (.slot a k)) ∧
      Stands keccak base S bs (s.slotFetch keccak h w.env a k).2 n := by
  rw [Session.slotFetch, hs.1, hw.getSlot hh (hw.le_height hn) a k, hw.reach hn]
  exact ⟨rfl, rfl, exact_pinSlot hs.2 a k⟩

theorem Stands.append (hs : Stands keccak base S bs s n) (hn : n ≤ bs.length) (more : List Batch) :
    Stands keccak base S (bs ++ more) s n :=
  ⟨hs.1, by rw [stateAt_append hn]; exact hs.2⟩

theorem Stands.slot (hs : Stands keccak base S bs s n) (hw : Whole keccak base S w bs)
    (hno : NoOrphans (base.state keccak)) (hn : n ≤ bs.length) {w' : Site} {more : List Batch}
    (hw' : Whole keccak base S w' (bs ++ more)) {h h' : Handle} (hh : HandleOf w h)
    (hh' : HandleOf w' h') (a : Address) (k : Hash) :
    (s.slot keccak h w.env h' w'.env a k).1 = .ok (stateAt keccak base bs n (.slot a k)) ∧
      Stands keccak base S (bs ++ more) (s.slot keccak h w.env h' w'.env a k).2 n := by
  have hn' : n ≤ (bs ++ more).length := by
    rw [List.length_append]
    omega
  have hfetch : ∀ s : Session, Stands keccak base S bs s n →
      (s.slotFetch keccak h' w'.env a k).1 = .ok (stateAt keccak base bs n (.slot a k)) ∧
        Stands keccak base S (bs ++ more) (s.slotFetch keccak h' w'.env a k).2 n := by
    intro s hs
    have hf := (hs.append hn more).slotFetch hw' hn' hh' a k
    rwa [stateAt_append hn] at hf
  rw [Session.slot]
  cases he : s.m.accounts a with
  | some e =>
    have hacc : s.m.pins (.account a) = some e.toSchema := by
      simp [Map.pins, Key.addr, he, Entry.pins]
    dsimp only
    split
    · cases hst : e.storage k with
      | some v =>
        have hpin : s.m.pins (.slot a k) = some v := by
          simp [Map.pins, Key.addr, he, Entry.pins, hst]
        exact ⟨congrArg Except.ok (hs.2 _ _ hpin), hs.append hn more⟩
      | none => exact hfetch s hs
    · rename_i habs
      -- the account is known to be absent: none of its slots has a value
      have hnone : (stateAt keccak base bs n (.account a) : Option Account) = none := by
        rw [← hs.2 _ _ hacc, Entry.toSchema, if_neg habs]
      rw [hw.noOrphans hno n a k hnone]
      exact ⟨rfl, hs.append hn more⟩
  | none =>
    have hread := hs.account hw hn hh a
    cases hr : s.account keccak h w.env a with
    | mk r s1 =>
      rw [hr] at hread
      obtain ⟨rfl, hs1⟩ : r = _ ∧ _ := hread
      exact hfetch s1 hs1

theorem Stands.code (hs : Stands keccak base S bs s n) (env : Env) (hash : Hash) :
    Stands keccak base S bs (s.code env hash).2 n := by
  rw [Session.code]
  split
  · exact hs
  · split
    · exact hs
    · refine ⟨hs.1, ?_⟩
      have hpins : ∀ c, (s.m.pinCode hash c).pins = s.m.pins := by
        intro c
        rw [Map.pinCode]
        split <;> rfl
      rw [hpins]
      exact hs.2

/-! ## Steps -/

/-- `Next` takes the block above the session's height, or is at the newest. -/
theorem Stands.next (hs : Stands keccak base S bs s n) (hw : Whole keccak base S w bs)
    (hn : n ≤ bs.length) :
    (∃ b, bs[n]? = some b ∧ (s.next w.env).1 = .ok (some b) ∧
      Stands keccak base S bs (s.next w.env).2 (n + 1)) ∨
    (n = bs.length ∧ s.next w.env = (.ok none, s)) := by
  have hdiff := hw.getDiff hn
  rw [Session.next, hs.1]
  cases hb : bs[n]? with
  | some b =>
    rw [hb] at hdiff
    rw [hdiff]
    have hblock : b.block = height S (n + 1) := by
      have hnum := hw.built.inv.consecutive n b hb
      apply UInt64.toNat_inj.mp
      rw [hnum, toNat_height (hw.wraps (List.getElem?_eq_some_iff.mp hb).1)]
      omega
    refine .inl ⟨b, rfl, rfl, hblock, ?_⟩
    rw [stateAt_succ hb, Map.pins_apply, Batch.apply_eq]
    exact hs.2.applyPinned b.diff
  | none =>
    rw [hb] at hdiff
    rw [hdiff]
    exact .inr ⟨Nat.le_antisymm hn (List.getElem?_eq_none_iff.mp hb), rfl⟩

/-- In every run the store is whole and the session stands at one of its heights. -/
theorem SessionRun.stands (hno : NoOrphans (base.state keccak))
    (hr : SessionRun keccak base S w bs s) :
    Whole keccak base S w bs ∧ ∃ n ≤ bs.length, Stands keccak base S bs s n := by
  induction hr with
  | @opened w bs hw h hh startBlock hb s hs =>
    refine ⟨hw, startBlock.toNat - S.toNat, by omega, ?_⟩
    have hgen := genesis_of_coherent (hw.built.inv.coherent hh) hw.built.inv.refines.genesis
    rw [openSession, hgen] at hs
    dsimp only at hs
    split at hs
    · cases hs
    · rename_i hle
      obtain rfl := Except.ok.inj hs
      exact ⟨(height_sub (UInt64.not_lt.mp hle)).symm, Diff.Exact.empty _⟩
  | @later w w' bs more s hr hw' ih =>
    obtain ⟨-, n, hn, hs⟩ := ih
    refine ⟨hw', n, ?_, hs.append hn more⟩
    rw [List.length_append]
    omega
  | @next w bs s hr ih =>
    obtain ⟨hw, n, hn, hs⟩ := ih
    refine ⟨hw, ?_⟩
    rcases hs.next hw hn with ⟨b, hb, -, hs'⟩ | ⟨-, heq⟩
    · exact ⟨n + 1, (List.getElem?_eq_some_iff.mp hb).1, hs'⟩
    · rw [heq]
      exact ⟨n, hn, hs⟩
  | account hr hh a ih =>
    obtain ⟨hw, n, hn, hs⟩ := ih
    exact ⟨hw, n, hn, (hs.account hw hn hh a).2⟩
  | @slot w w' bs more s hr hw' h h' hh hh' a k ih =>
    obtain ⟨hw, n, hn, hs⟩ := ih
    refine ⟨hw', n, ?_, (hs.slot hw hno hn hw' hh hh' a k).2⟩
    rw [List.length_append]
    omega
  | code hr hash ih =>
    obtain ⟨hw, n, hn, hs⟩ := ih
    exact ⟨hw, n, hn, hs.code _ hash⟩

/-- Replay equals the historical store: whatever a session pinned on its way, and
however the store grows meanwhile, a read returns what the store returns at the
session's height, and `Next` goes up by one block until it is at the newest. -/
theorem replay_reads_history (hno : NoOrphans (base.state keccak))
    (hr : SessionRun keccak base S w bs s) {h : Handle} (hh : HandleOf w h) :
    (∀ a, (s.account keccak h w.env a).1 = getAccount keccak h w.env a s.block) ∧
    (∀ a k (w' : Site) (more : List Batch) (h' : Handle), Whole keccak base S w' (bs ++ more) →
      HandleOf w' h' →
      (s.slot keccak h w.env h' w'.env a k).1 = getSlot keccak h' w'.env a k s.block) ∧
    ((∃ b ∈ bs, (s.next w.env).1 = .ok (some b) ∧ (s.next w.env).2.block = b.block ∧
        (s.next w.env).2.block.toNat = s.block.toNat + 1) ∨
      (s.next w.env = (.ok none, s) ∧ s.block.toNat = S.toNat + bs.length)) := by
  obtain ⟨hw, n, hn, hs⟩ := hr.stands hno
  refine ⟨fun a => ?_, fun a k w' more h' hw' hh' => ?_, ?_⟩
  · rw [(hs.account hw hn hh a).1, hs.1, hw.getAccount hh (hw.le_height hn) a, hw.reach hn]
  · have hn' : n ≤ (bs ++ more).length := by
      rw [List.length_append]
      omega
    rw [(hs.slot hw hno hn hw' hh hh' a k).1, hs.1, hw'.getSlot hh' (hw'.le_height hn') a k,
      hw'.reach hn', stateAt_append hn]
  · rcases hs.next hw hn with ⟨b, hb, hres, hs'⟩ | ⟨hend, heq⟩
    · have hlt : n + 1 ≤ bs.length := (List.getElem?_eq_some_iff.mp hb).1
      have hblock : (s.next w.env).2.block.toNat = S.toNat + n + 1 := by
        rw [hs'.1, toNat_height (hw.wraps hlt)]
        omega
      refine .inl ⟨b, List.mem_of_getElem? hb, hres, ?_, ?_⟩
      · apply UInt64.toNat_inj.mp
        rw [hblock, hw.built.inv.consecutive n b hb]
      · rw [hblock, hs.1, toNat_height (hw.wraps hn)]
    · refine .inr ⟨heq, ?_⟩
      rw [hs.1, toNat_height (hw.wraps hn), hend]

end Runs

/-! ### A session across a destruct

Opened at the genesis, it pins a slot, block 6 destructs and recreates the account
while the session runs, and the session steps over it. -/

namespace Sample

open Store.Sample

theorem finished_whole : Whole digest trie 5 finished [] where
  built := finished_built
  complete := by decide
  fits := by simp

theorem site_whole : Whole digest trie 5 site [block6] where
  built := site_built
  complete := by decide
  fits := by decide +kernel

def session : Session :=
  ((⟨Map.new, 5⟩ : Session).slot digest finished.reader finished.env finished.reader finished.env
    addr slot0).2.next site.env |>.2

theorem session_run : SessionRun digest trie 5 site [block6] session := by
  have hstart : (5 : UInt64).toNat ≤ (5 : UInt64).toNat + ([] : List Batch).length := by decide
  have h0 : SessionRun digest trie 5 finished [] ⟨Map.new, 5⟩ :=
    .opened finished_whole (h := finished.reader) (.inr rfl) hstart rfl
  have h1 : SessionRun digest trie 5 finished ([] ++ []) _ :=
    h0.slot finished_whole (h := finished.reader) (.inr rfl) (.inr rfl) addr slot0
  have h2 : SessionRun digest trie 5 site ([] ++ [block6]) _ := h1.later site_whole
  exact h2.next

end Sample

/-- The theorem at work: the pinned slot is zero after the step, as in the store, and
there is no block to go on to. -/
theorem replay_reads_history_destruct :
    Sample.session.block = 6 ∧
      (Sample.session.slot Store.Sample.digest Store.Sample.site.reader Store.Sample.site.env
        Store.Sample.site.reader Store.Sample.site.env Store.Sample.addr Store.Sample.slot0).1 =
        .ok Hash.zero ∧
      Sample.session.next Store.Sample.site.env = (.ok none, Sample.session) := by
  have hblock : Sample.session.block = 6 := by decide +kernel
  have h := replay_reads_history Mem.Sample.noOrphans Sample.session_run
    (h := Store.Sample.site.reader) (.inr rfl)
  refine ⟨hblock, ?_, ?_⟩
  · rw [h.2.1 _ _ _ [] _ Sample.site_whole (.inr rfl), hblock]
    decide +kernel
  · rcases h.2.2 with ⟨b, -, -, -, hnum⟩ | ⟨heq, -⟩
    · have hsame : (Sample.session.next Store.Sample.site.env).2.block = 6 := by decide +kernel
      rw [hblock, hsame] at hnum
      exact absurd hnum (by decide)
    · exact heq

end Flatstate.Replay
