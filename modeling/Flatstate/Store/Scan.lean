import Flatstate.Foundation.Paging
import Flatstate.Store.Rows

set_option autoImplicit false

/-!
# Store: the loader's scans (`store/read.go`)

The baseline loader finds out from the committed rows where it left off: two reads of a
greatest key, which it takes for watermarks, the pending part of the storage queue, and the
code hashes without a code row.
-/

namespace Flatstate.Store

open Foundation Schema

/-! ## Watermarks -/

/-- `SetRange`, and if that misses the key, one step back: the greatest key at or below. -/
def greatestLE (env : Env) (seek : Bytes) : Option Bytes :=
  match env.setRange seek with
  | none => env.last.map Prod.fst
  | some (k, _) => if k ≠ seek then (env.prev k).map Prod.fst else some k

/-- `DB.MaxBaseAccountWithPrefix`: the greatest account hash with first byte `p`. -/
def maxBaseAccountWithPrefix (env : Env) (p : UInt8) : Option Hash :=
  match greatestLE env (prefBaseAccount :: p :: List.replicate 31 0xff) with
  | none => none
  | some k =>
    if h : k.length = 33 ∧ k.head? = some prefBaseAccount ∧ k.tail.head? = some p then
      some ⟨k.tail, by rw [List.length_tail, h.1]⟩
    else none

/-- `DB.MaxBaseSlot`: the greatest slot hash of an account from `start` to `end_`. -/
def maxBaseSlot (env : Env) (addrHash : Hash) (start : Bytes) (end_ : Option Bytes) : Option Hash :=
  let top : Bytes :=
    match end_ with
    | none => List.replicate 32 0xff
    | some e => (e ++ List.replicate 32 0).take 32
  match greatestLE env (prefBaseSlot :: (addrHash.1 ++ top)) with
  | none => none
  | some k =>
    if h : k.length = 65 ∧ k.head? = some prefBaseSlot ∧ k.tail.take 32 = addrHash.1 then
      if k.drop 33 < start then none else some ⟨k.drop 33, by rw [List.length_drop, h.1]⟩
    else none

theorem greatestLE_eq_some {env : Env} {seek k : Bytes} (h : greatestLE env seek = some k) :
    env.get k ≠ none ∧ k ≤ seek ∧ ∀ k' v, env.get k' = some v → k' ≤ seek → k' ≤ k := by
  rw [greatestLE] at h
  cases hs : env.setRange seek with
  | none =>
    rw [hs] at h
    cases hl : env.last with
    | none => rw [hl] at h; cases h
    | some e =>
      obtain ⟨k', v⟩ := e
      rw [hl] at h
      obtain rfl : k' = k := Option.some.inj h
      obtain ⟨hget, hmax⟩ := OrdMap.last_eq_some hl
      refine ⟨by rw [hget]; simp, (OrdMap.setRange_eq_none hs k' v hget).le, ?_⟩
      exact fun k'' w hw _ => hmax k'' w hw
  | some e =>
    obtain ⟨k', v⟩ := e
    obtain ⟨hget, hle, hmin⟩ := OrdMap.setRange_eq_some hs
    rw [hs] at h
    dsimp only at h
    by_cases hne : k' ≠ seek
    · rw [if_pos hne] at h
      cases hp : env.prev k' with
      | none => rw [hp] at h; cases h
      | some e' =>
        obtain ⟨k₁, v₁⟩ := e'
        rw [hp] at h
        obtain rfl : k₁ = k := Option.some.inj h
        obtain ⟨hget₁, hlt, hmax⟩ := OrdMap.prev_eq_some hp
        -- nothing lies between the seek key and the least key at or above it
        have hbelow : k₁ < seek := by
          by_contra hcon
          exact absurd (hmin k₁ v₁ hget₁ (not_lt.mp hcon)) (not_le.mpr hlt)
        refine ⟨by rw [hget₁]; simp, hbelow.le, fun k'' w hw hk => ?_⟩
        exact hmax k'' w hw (lt_of_le_of_lt hk (lt_of_le_of_ne hle (Ne.symm hne)))
    · rw [if_neg hne] at h
      obtain rfl : k' = k := Option.some.inj h
      have heq : k' = seek := not_not.mp hne
      exact ⟨by rw [hget]; simp, heq.le, fun k'' w _ hk => heq ▸ hk⟩

theorem greatestLE_eq_none {env : Env} {seek : Bytes} (h : greatestLE env seek = none) :
    ∀ k v, env.get k = some v → seek < k := by
  intro k v hv
  rw [greatestLE] at h
  cases hs : env.setRange seek with
  | none =>
    rw [hs] at h
    have hl : env.last = none := by simpa using h
    rw [OrdMap.last_eq_none hl k] at hv
    cases hv
  | some e =>
    obtain ⟨k', v'⟩ := e
    obtain ⟨hget, hle, hmin⟩ := OrdMap.setRange_eq_some hs
    rw [hs] at h
    dsimp only at h
    by_cases hne : k' ≠ seek
    · rw [if_pos hne] at h
      have hp : env.prev k' = none := by simpa using h
      exact lt_of_lt_of_le (lt_of_le_of_ne hle (Ne.symm hne)) (OrdMap.prev_eq_none hp k v hv)
    · rw [if_neg hne] at h
      cases h

/-- The watermark of a segment is one of its accounts. -/
theorem maxBaseAccountWithPrefix_eq_some {env : Env} {p : UInt8} {a : Hash}
    (h : maxBaseAccountWithPrefix env p = some a) :
    row env (.baseAccount a) ≠ none ∧ a.1.head? = some p := by
  rw [maxBaseAccountWithPrefix] at h
  cases hk : greatestLE env (prefBaseAccount :: p :: List.replicate 31 0xff) with
  | none => rw [hk] at h; cases h
  | some k =>
    rw [hk] at h
    dsimp only at h
    split at h
    · rename_i hform
      obtain rfl := Option.some.inj h
      have hkey : (Row.baseAccount ⟨k.tail, by rw [List.length_tail, hform.1]⟩).key = k := by
        rw [Row.key_eq]
        exact (List.eq_cons_of_mem_head? hform.2.1).symm
      exact ⟨by rw [row, hkey]; exact (greatestLE_eq_some hk).1, hform.2.2⟩
    · cases h

/-- What `copy` makes of a bound in the 32 bytes of a key: a short one is filled up with zeros,
a long one is cut off. -/
def sliceKey (e : Bytes) : Bytes := (e ++ List.replicate 32 0).take 32

theorem sliceKey_of_length {e : Bytes} (h : e.length = 32) : sliceKey e = e := List.take_left' h

/-- The last key of a range. -/
def rangeEnd : Option Bytes → Bytes
  | none => List.replicate 32 0xff
  | some e => sliceKey e

theorem maxBaseSlot_eq (env : Env) (a : Hash) (start : Bytes) (end_ : Option Bytes) :
    maxBaseSlot env a start end_ =
      match greatestLE env (prefBaseSlot :: (a.1 ++ rangeEnd end_)) with
      | none => none
      | some k =>
        if h : k.length = 65 ∧ k.head? = some prefBaseSlot ∧ k.tail.take 32 = a.1 then
          if k.drop 33 < start then none else some ⟨k.drop 33, by rw [List.length_drop, h.1]⟩
        else none := by
  cases end_ <;> rfl

/-- The key of a slot row. -/
theorem baseSlot_key (a k : Hash) : (Row.baseSlot a k).key = prefBaseSlot :: a.1 ++ k.1 := by
  rw [Row.key_eq]
  rfl

/-- The watermark of a sub-range is one of its slots. -/
theorem maxBaseSlot_eq_some {env : Env} {a wm : Hash} {start : Bytes} {end_ : Option Bytes}
    (h : maxBaseSlot env a start end_ = some wm) :
    row env (.baseSlot a wm) ≠ none ∧ start ≤ wm.1 ∧
      ∀ e, end_ = some e → wm.1 ≤ sliceKey e := by
  unfold maxBaseSlot at h
  dsimp only at h
  split at h
  · cases h
  · rename_i k hk
    split at h
    · rename_i hform
      obtain ⟨hlen, hhead, haddr⟩ := hform
      split at h
      · cases h
      · rename_i hge
        obtain rfl := Option.some.inj h
        obtain ⟨hget, hle, -⟩ := greatestLE_eq_some hk
        have hkey : k = prefBaseSlot :: a.1 ++ k.drop 33 := by
          conv_lhs => rw [List.eq_cons_of_mem_head? hhead, ← List.take_append_drop 32 k.tail, haddr]
          rw [List.drop_tail]
          rfl
        refine ⟨?_, not_lt.mp hge, ?_⟩
        · rw [row, baseSlot_key]
          exact hkey ▸ hget
        · rintro e rfl
          rw [hkey] at hle
          exact (append_le_append_left (prefBaseSlot :: a.1) _ _).mp hle
    · cases h

/-- The keys of a keyspace have one length. -/
theorem Laid.length_eq {env : Env} (hl : Laid env) {s : UInt8} {z z' v v' : Bytes}
    (h : env.get (s :: z) = some v) (h' : env.get (s :: z') = some v') : z.length = z'.length := by
  have hlen : ∀ {y w : Bytes}, env.get (s :: y) = some w → y.length + 1 = spaceLen s := by
    intro y w hy
    obtain ⟨r, hr⟩ := hl _ w hy
    have hspace : r.space = s := by
      rw [Row.key_eq] at hr
      exact (List.cons.inj hr).1.symm
    rw [← hspace, ← r.length_key, ← hr, List.length_cons]
  have hz := hlen h
  have hz' := hlen h'
  omega

/-- With a key of a stem at or below the seek key, the greatest key at or below it is one of
the stem, however the stem is surrounded. -/
theorem greatestLE_stem {env : Env} (hl : Laid env) {s : UInt8} {p x top v : Bytes}
    (hx : env.get (s :: (p ++ x)) = some v) (hle : x ≤ top) :
    ∃ z, greatestLE env (s :: (p ++ top)) = some (s :: (p ++ z)) ∧ x ≤ z ∧ z.length = x.length := by
  have hseek : s :: p ++ x ≤ s :: p ++ top := (append_le_append_left _ _ _).mpr hle
  cases hg : greatestLE env (s :: (p ++ top)) with
  | none => exact absurd hseek (not_le.mpr (greatestLE_eq_none hg _ v hx))
  | some k =>
    obtain ⟨hget, hk, hmax⟩ := greatestLE_eq_some hg
    obtain ⟨w, hw⟩ := Option.ne_none_iff_exists'.mp hget
    -- a key between two keys with a common stem has the stem
    obtain ⟨z, rfl, hz, -⟩ := exists_append_of_between (s :: p) (hmax _ v hx hseek) hk
    have hlen : (p ++ z).length = (p ++ x).length := hl.length_eq hw hx
    refine ⟨z, rfl, hz, ?_⟩
    rw [List.length_append, List.length_append] at hlen
    omega

/-- The watermark of a range is at or above every slot of it. -/
theorem le_maxBaseSlot {env : Env} {a k : Hash} {start : Bytes} {end_ : Option Bytes} (hl : Laid env)
    (hrow : row env (.baseSlot a k) ≠ none) (hstart : start ≤ k.1)
    (hend : ∀ e, end_ = some e → k.1 ≤ sliceKey e) :
    ∃ wm, maxBaseSlot env a start end_ = some wm ∧ k.1 ≤ wm.1 := by
  obtain ⟨v, hv⟩ := Option.ne_none_iff_exists'.mp hrow
  rw [row, baseSlot_key] at hv
  have hle : k.1 ≤ rangeEnd end_ := by
    cases end_ with
    | none => exact le_replicate_max k.2
    | some e => exact hend e rfl
  obtain ⟨z, hz, hkz, hlen⟩ := greatestLE_stem hl hv hle
  have ha : (a.1 ++ z).take 32 = a.1 := List.take_left' a.2
  have hdrop : (prefBaseSlot :: (a.1 ++ z)).drop 33 = z := List.drop_left' a.2
  refine ⟨⟨z, hlen.trans k.2⟩, ?_, hkz⟩
  rw [maxBaseSlot_eq, hz]
  dsimp only
  rw [dif_pos ⟨by simp [a.2, hlen, k.2], rfl, ha⟩,
    if_neg (by rw [hdrop]; exact not_lt.mpr (hstart.trans hkz))]
  exact congrArg some (Subtype.ext hdrop)

/-- The watermark of a segment is at or above every account of it. -/
theorem le_maxBaseAccountWithPrefix {env : Env} {p : UInt8} {a : Hash} (hl : Laid env)
    (hrow : row env (.baseAccount a) ≠ none) (hp : a.1.head? = some p) :
    ∃ wm, maxBaseAccountWithPrefix env p = some wm ∧ a.1 ≤ wm.1 := by
  obtain ⟨v, hv⟩ := Option.ne_none_iff_exists'.mp hrow
  have ha : a.1 = p :: a.1.tail := List.eq_cons_of_mem_head? hp
  have hlen : a.1.tail.length = 31 := by rw [List.length_tail, a.2]
  rw [row, Row.key_eq] at hv
  have hget : env.get (prefBaseAccount :: ([p] ++ a.1.tail)) = some v := by
    rw [List.singleton_append, ← ha]
    exact hv
  obtain ⟨z, hz, haz, hzlen⟩ := greatestLE_stem hl hget (le_replicate_max hlen)
  have hwidth : (p :: z).length = 32 := by rw [List.length_cons, hzlen, hlen]
  refine ⟨⟨p :: z, hwidth⟩, ?_, ha.le.trans ((append_le_append_left [p] _ _).mpr haz)⟩
  unfold maxBaseAccountWithPrefix
  rw [List.singleton_append] at hz
  rw [hz]
  dsimp only
  rw [dif_pos ⟨by rw [List.length_cons, List.singleton_append, hwidth], rfl, rfl⟩]
  rfl

/-- The greatest of some hashes: what is returned is one of them, and each of them is at or below
it, so that nothing is returned only if there are none. -/
structure Greatest (P : Hash → Prop) (found : Option Hash) : Prop where
  mem : ∀ m, found = some m → P m
  le : ∀ k, P k → ∃ m, found = some m ∧ k.1 ≤ m.1

/-- Resume watermarks are exact maxima, whatever other rows surround the range: the greatest
account hash with a first byte, and the greatest slot hash of an account between two bounds.  A
start or end that is not given does not bound; a bound of a key's width stands for itself. -/
theorem watermarks_are_maxima {env : Env} (hl : Laid env) :
    (∀ p, Greatest (fun a => row env (.baseAccount a) ≠ none ∧ a.1.head? = some p)
      (maxBaseAccountWithPrefix env p)) ∧
    (∀ a start end_, Greatest (fun k => row env (.baseSlot a k) ≠ none ∧ start ≤ k.1 ∧
      ∀ e, end_ = some e → k.1 ≤ sliceKey e) (maxBaseSlot env a start end_)) ∧
    (∀ k : Hash, ([] : Bytes) ≤ k.1) ∧ ∀ e : Bytes, e.length = 32 → sliceKey e = e := by
  refine ⟨fun p => ⟨fun a ha => maxBaseAccountWithPrefix_eq_some ha,
      fun a ha => le_maxBaseAccountWithPrefix hl ha.1 ha.2⟩,
    fun a start end_ => ⟨fun k hk => maxBaseSlot_eq_some hk,
      fun k hk => le_maxBaseSlot hl hk.1 hk.2.1 hk.2.2⟩,
    fun k => not_lt.mp (List.not_lt_nil k.1), fun e => sliceKey_of_length⟩

namespace WatermarkSample

/-- Two accounts of one segment. -/
def low : Hash := FixedBytes.ofNat 32 (5 * 256 ^ 31 + 1)

def high : Hash := FixedBytes.ofNat 32 (5 * 256 ^ 31 + 2)

def slot (n : Nat) : Hash := FixedBytes.ofNat 32 n

/-- Both accounts with slots, in front of the storage queue. -/
def rows : List (Row × Bytes) :=
  [(.code low, [1]), (.baseAccount low, [2]), (.baseAccount high, [3]),
    (.baseSlot low (slot 3), [4]), (.baseSlot low (slot 8), [5]),
    (.baseSlot high (slot 1), [6]), (.storageQueue low, [7])]

def store : Env := rows.foldl (fun env r => env.put r.1.key r.2) OrdMap.empty

theorem store_laid : Laid store :=
  ((((((Laid.empty.put _ _).put _ _).put _ _).put _ _).put _ _).put _ _).put _ _

end WatermarkSample

open WatermarkSample in
/-- The watermarks of a segment, of a whole account and of a sub-range without slots. -/
theorem watermarks_are_maxima_sample :
    Greatest (fun a => row store (.baseAccount a) ≠ none ∧ a.1.head? = some 5) (some high) ∧
    maxBaseSlot store low [] none = some (slot 8) ∧
    maxBaseSlot store low (slot 4).1 (some (slot 7).1) = none ∧
    Greatest (fun k => row store (.baseSlot low k) ≠ none ∧ (slot 2).1 ≤ k.1 ∧
      ∀ e, some (slot 7).1 = some e → k.1 ≤ sliceKey e) (some (slot 3)) := by
  obtain ⟨haccount, hslot, -⟩ := watermarks_are_maxima store_laid
  have hseg : maxBaseAccountWithPrefix store 5 = some high := by decide +kernel
  have hrange : maxBaseSlot store low (slot 2).1 (some (slot 7).1) = some (slot 3) := by
    decide +kernel
  have hsegment := haccount 5
  have hbounded := hslot low (slot 2).1 (some (slot 7).1)
  rw [hseg] at hsegment
  rw [hrange] at hbounded
  exact ⟨hsegment, by decide +kernel, by decide +kernel, hbounded⟩

/-! ## Keyspaces -/

/-- The rows of a keyspace with 33-byte keys that a cursor meets from `seek` on; the loops of
the source stop at the first key that is not one. -/
def keyspaceFrom (env : Env) (p : UInt8) (seek : Bytes) : List (Bytes × Bytes) :=
  (env.scan seek).takeWhile (fun e => decide (e.1.length = 33 ∧ e.1.head? = some p))

/-- One row of the storage queue. -/
def queueRow (e : Bytes × Bytes) : Except Err (Hash × Hash) :=
  if h : e.1.length = 33 ∧ e.2.length = 32 then
    .ok (⟨e.1.tail, by rw [List.length_tail, h.1]⟩, ⟨e.2, h.2⟩)
  else .error (.queueSize e.1 e.2.length)

/-- `DB.StorageQueueAfter`: up to `max` pending rows above `after`.  The bound is looked at
after a row is taken. -/
def storageQueueAfter (env : Env) (after : Option Hash) (max : Nat) :
    Except Err (List (Hash × Hash)) :=
  let seek : Bytes :=
    match after with
    | none => [prefStorageQueue]
    | some a => appendStorageQueueKey [] a ++ [0]
  ((keyspaceFrom env prefStorageQueue seek).take (Nat.max 1 max)).mapM queueRow

/-- The loop of `MissingCodeHashes`: what is missing among the rows that are left, given the
hashes already seen. -/
def missingLoop (env : Env) (emptyCode : Hash) :
    List (Bytes × Bytes) → List Hash → Except Err (List Hash)
  | [], _ => .ok []
  | (_, v) :: rest, seen =>
    match decodeAccount v with
    | .error n => .error (.accountSize n)
    | .ok a =>
      if a.codeHash = Hash.zero ∨ a.codeHash = emptyCode then missingLoop env emptyCode rest seen
      else if a.codeHash ∈ seen then missingLoop env emptyCode rest seen
      else if (env.get (appendCodeKey [] a.codeHash)).isSome then
        missingLoop env emptyCode rest (a.codeHash :: seen)
      else (missingLoop env emptyCode rest (a.codeHash :: seen)).map (a.codeHash :: ·)

/-- `DB.MissingCodeHashes`: the code hashes of the baseline accounts without a code row. -/
def missingCodeHashes (keccak : Bytes → Hash) (env : Env) : Except Err (List Hash) :=
  missingLoop env (keccak []) (keyspaceFrom env prefBaseAccount [prefBaseAccount]) []

theorem mem_keyspaceFrom {env : Env} {p : UInt8} {seek k v : Bytes}
    (h : (k, v) ∈ keyspaceFrom env p seek) :
    env.get k = some v ∧ seek ≤ k ∧ k.length = 33 ∧ k.head? = some p := by
  obtain ⟨hget, hle⟩ := OrdMap.mem_scan.mp ((List.takeWhile_prefix _).subset h)
  have hform := List.mem_takeWhile_imp h
  rw [decide_eq_true_eq] at hform
  exact ⟨hget, hle, hform⟩

theorem queueRow_ok {k v : Bytes} {a root : Hash} (h : queueRow (k, v) = .ok (a, root))
    (hk : k.head? = some prefStorageQueue) : k = (Row.storageQueue a).key ∧ v = root.1 := by
  rw [queueRow] at h
  split at h
  · obtain ⟨rfl, rfl⟩ := Prod.mk.inj (Except.ok.inj h)
    rw [Row.key_eq]
    exact ⟨List.eq_cons_of_mem_head? hk, rfl⟩
  · cases h

/-- What the queue scan returns are queue rows. -/
theorem storageQueueAfter_mem {env : Env} {after : Option Hash} {max : Nat}
    {rows : List (Hash × Hash)} (h : storageQueueAfter env after max = .ok rows) {a root : Hash}
    (hmem : (a, root) ∈ rows) : row env (.storageQueue a) = some root.1 := by
  unfold storageQueueAfter at h
  obtain ⟨⟨k, v⟩, hkv, hrow⟩ := exists_of_mem_right (forall₂_of_mapM h) hmem
  obtain ⟨hget, -, -, hhead⟩ := mem_keyspaceFrom (List.mem_of_mem_take hkv)
  obtain ⟨rfl, rfl⟩ := queueRow_ok hrow hhead
  exact hget

/-- The queue scan goes up, from above the cursor. -/
theorem storageQueueAfter_sorted {env : Env} {after : Option Hash} {max : Nat}
    {rows : List (Hash × Hash)} (h : storageQueueAfter env after max = .ok rows) :
    rows.Pairwise (fun r r' => r.1.1 < r'.1.1) ∧
      ∀ a, after = some a → ∀ r ∈ rows, a.1 < r.1.1 := by
  unfold storageQueueAfter at h
  dsimp only at h
  have hrows := forall₂_of_mapM h
  constructor
  · refine pairwise_of_forall₂ hrows (((OrdMap.scan_sorted _ _).sublist
      (List.takeWhile_prefix _).sublist).sublist (List.take_sublist _ _)) ?_
    rintro ⟨k, v⟩ ⟨k', v'⟩ ⟨a, root⟩ ⟨a', root'⟩ hin hin' hrow hrow' hlt
    obtain ⟨-, -, -, hk⟩ := mem_keyspaceFrom (List.mem_of_mem_take hin)
    obtain ⟨-, -, -, hk'⟩ := mem_keyspaceFrom (List.mem_of_mem_take hin')
    obtain ⟨rfl, -⟩ := queueRow_ok hrow hk
    obtain ⟨rfl, -⟩ := queueRow_ok hrow' hk'
    exact (append_lt_append_left [prefStorageQueue] _ _).mp hlt
  · rintro a rfl ⟨a', root⟩ hmem
    obtain ⟨⟨k, v⟩, hkv, hrow⟩ := exists_of_mem_right hrows hmem
    obtain ⟨-, hle, -, hhead⟩ := mem_keyspaceFrom (List.mem_of_mem_take hkv)
    obtain ⟨rfl, -⟩ := queueRow_ok hrow hhead
    dsimp only at hle
    have hge : a.1 ++ [0] ≤ a'.1 := (append_le_append_left [prefStorageQueue] _ _).mp hle
    have hlt : a.1 < a.1 ++ [0] := by
      have := (append_lt_append_left a.1 [] [0]).mpr List.Lex.nil
      rwa [List.append_nil] at this
    exact hlt.trans_le hge

/-- A scan of a keyspace from its bottom meets every row of it. -/
theorem mem_keyspaceFrom_of_row {env : Env} (hl : Laid env) {r : Row} (hlen : spaceLen r.space = 33)
    {v : Bytes} (hrow : row env r = some v) :
    (r.key, v) ∈ keyspaceFrom env r.space [r.space] := by
  have hkey : r.key = [r.space] ++ r.rest := Row.key_eq r
  have hlow : [r.space] ≤ r.key := hkey ▸ le_append _ _
  refine mem_takeWhile_of_sorted (OrdMap.scan_sorted _ _) (OrdMap.mem_scan.mpr ⟨hrow, hlow⟩) ?_
  rintro ⟨k, w⟩ hmem hle
  obtain ⟨hget, hge⟩ := OrdMap.mem_scan.mp hmem
  obtain ⟨r', rfl⟩ := hl k w hget
  -- the key starts with the byte of the keyspace, and that determines its length
  obtain ⟨z, hz⟩ := exists_append_of_le hge (hle.trans hkey.le)
  have hspace : r'.space = r.space := by
    rw [Row.key_eq] at hz
    exact (List.cons.inj hz).1
  rw [decide_eq_true_eq, r'.length_key, hspace, Row.key_eq, hspace]
  exact ⟨hlen, rfl⟩

/-- A code hash of the scanned rows has its row, or is reported, or was seen before. -/
theorem missingLoop_reports {env : Env} {emptyCode : Hash} {rows : List (Bytes × Bytes)}
    {seen missing : List Hash} (h : missingLoop env emptyCode rows seen = .ok missing) {k v : Bytes}
    (hmem : (k, v) ∈ rows) {a : Account} (ha : decodeAccount v = .ok a) (hz : a.codeHash ≠ Hash.zero)
    (he : a.codeHash ≠ emptyCode) :
    row env (.code a.codeHash) ≠ none ∨ a.codeHash ∈ missing ∨ a.codeHash ∈ seen := by
  induction rows generalizing seen missing with
  | nil => simp at hmem
  | cons e rows ih =>
    obtain ⟨k', v'⟩ := e
    unfold missingLoop at h
    cases hd : decodeAccount v' with
    | error n => rw [hd] at h; cases h
    | ok a' =>
      rw [hd] at h
      dsimp only at h
      -- the row at hand is the row in question, or one before it
      rcases List.mem_cons.mp hmem with heq | hmem
      · obtain ⟨rfl, rfl⟩ := Prod.mk.inj heq
        obtain rfl := Except.ok.inj (ha.symm.trans hd)
        rw [if_neg (not_or.mpr ⟨hz, he⟩)] at h
        split at h
        · exact Or.inr (Or.inr ‹_›)
        · split at h
          · rename_i hsome
            exact Or.inl (Option.isSome_iff_ne_none.mp hsome)
          · obtain ⟨missing', -, rfl⟩ := exists_of_map_ok h
            exact Or.inr (Or.inl List.mem_cons_self)
      · split at h
        · exact ih h hmem
        · split at h
          · exact ih h hmem
          · split at h
            · rename_i hsome
              rcases ih h hmem with hin | hin | hin
              · exact Or.inl hin
              · exact Or.inr (Or.inl hin)
              · rcases List.mem_cons.mp hin with heq | hin
                · rw [heq]
                  exact Or.inl (Option.isSome_iff_ne_none.mp hsome)
                · exact Or.inr (Or.inr hin)
            · obtain ⟨missing', hrest, rfl⟩ := exists_of_map_ok h
              rcases ih hrest hmem with hin | hin | hin
              · exact Or.inl hin
              · exact Or.inr (Or.inl (List.mem_cons_of_mem _ hin))
              · rcases List.mem_cons.mp hin with heq | hin
                · rw [heq]
                  exact Or.inr (Or.inl List.mem_cons_self)
                · exact Or.inr (Or.inr hin)

/-- No account of the baseline is passed over by the sweep. -/
theorem missingCodeHashes_reports {env : Env} {keccak : Bytes → Hash} {missing : List Hash}
    (hl : Laid env) (h : missingCodeHashes keccak env = .ok missing) {addrHash : Hash} {v : Bytes}
    (hrow : row env (.baseAccount addrHash) = some v) {a : Account} (ha : decodeAccount v = .ok a)
    (hz : a.codeHash ≠ Hash.zero) (he : a.codeHash ≠ keccak []) :
    row env (.code a.codeHash) ≠ none ∨ a.codeHash ∈ missing := by
  rcases missingLoop_reports h (mem_keyspaceFrom_of_row hl rfl hrow) ha hz he with hin | hin | hin
  · exact Or.inl hin
  · exact Or.inr hin
  · simp at hin

/-- A storage-queue row is pending. -/
def Queued (env : Env) : Prop := ∃ k v, env.get k = some v ∧ k.head? = some prefStorageQueue

theorem queued_congr {env env' : Env}
    (h : ∀ k : Bytes, k.head? = some prefStorageQueue → env'.get k = env.get k) :
    Queued env' ↔ Queued env := by
  constructor
  · rintro ⟨k, v, hv, hk⟩
    exact ⟨k, v, (h k hk).symm.trans hv, hk⟩
  · rintro ⟨k, v, hv, hk⟩
    exact ⟨k, v, (h k hk).trans hv, hk⟩

/-- `Finish` looks for any key of the storage queue. -/
theorem firstQueued_eq_none_iff {env : Env} : firstQueued env = none ↔ ¬ Queued env := by
  unfold firstQueued
  constructor
  · rintro h ⟨k, v, hget, hhead⟩
    have hkey : k = [prefStorageQueue] ++ k.tail := List.eq_cons_of_mem_head? hhead
    have hlow : [prefStorageQueue] ≤ k := hkey ▸ le_append _ _
    cases hs : env.setRange [prefStorageQueue] with
    | none => exact absurd hlow (not_le.mpr (OrdMap.setRange_eq_none hs k v hget))
    | some e =>
      obtain ⟨k', w⟩ := e
      obtain ⟨-, hge, hmin⟩ := OrdMap.setRange_eq_some hs
      rw [hs] at h
      dsimp only at h
      -- the least key at or above the prefix lies below `k`, so it has the prefix
      obtain ⟨z, rfl⟩ := exists_append_of_le hge ((hmin k v hget hlow).trans hkey.le)
      simp at h
  · intro h
    cases hs : env.setRange [prefStorageQueue] with
    | none => rfl
    | some e =>
      obtain ⟨k, w⟩ := e
      obtain ⟨hget, -⟩ := OrdMap.setRange_eq_some hs
      exact if_neg fun hhead => h ⟨k, w, hget, hhead⟩

/-- `Finish` goes through only on an empty queue. -/
theorem firstQueued_eq_none {env : Env} (h : firstQueued env = none) (a : Hash) :
    row env (.storageQueue a) = none := by
  cases hrow : row env (.storageQueue a) with
  | none => rfl
  | some v =>
    refine absurd ⟨_, v, hrow, ?_⟩ (firstQueued_eq_none_iff.mp h)
    rw [Row.key_eq]
    rfl

end Flatstate.Store
