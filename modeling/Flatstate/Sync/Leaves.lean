import Flatstate.Foundation.Paging
import Flatstate.Schema.Types
import Mathlib.Data.List.Nodup

set_option autoImplicit false

/-!
# Sync: leaves and key ranges (`follower/sync/sync.go`)

Peers serve the leaves of a trie in key order, from a start key on, in responses of any
length.  The loader never sends an end key: it truncates a response at the end of its range
and goes on at the successor of the last key.
-/

namespace Flatstate.Sync

open Foundation Schema

/-- A trie leaf: key and value. -/
abbrev Leaf := Bytes × Bytes

/-- The leaves of a trie, in key order, under 32-byte keys. -/
structure Leaves where
  list : List Leaf
  sorted : list.Pairwise (fun a b => a.1 < b.1)
  width : ∀ l ∈ list, l.1.length = 32

/-- The leaves at or after a key. -/
def Leaves.since (t : Leaves) (start : Bytes) : List Leaf :=
  t.list.filter (fun l => decide (start ≤ l.1))

/-- `message.LeafsResponse`; keys and values come in pairs. -/
structure LeafsResponse where
  leaves : List Leaf
  more : Bool
  deriving DecidableEq

/-- `leafLimit`: the server-side response cap. -/
def leafLimit : Nat := 1024

/-- What the verifying client answers a request from `start` with: some first leaves at or
after it, at least one if there is one, and whether the trie has more. -/
structure Serves (t : Leaves) (start : Bytes) (r : LeafsResponse) : Prop where
  initial : r.leaves <+: t.since start
  limit : r.leaves.length ≤ leafLimit
  nonempty : r.leaves = [] → t.since start = []
  more : r.more = decide (r.leaves.length < (t.since start).length)

/-! ## Key arithmetic -/

/-- `incKey`: the key plus one, or nil past `ff..ff`. -/
def incKey : Bytes → Option Bytes
  | [] => none
  | b :: bs =>
    match incKey bs with
    | some bs' => some (b :: bs')
    | none => if b + 1 ≠ 0 then some ((b + 1) :: bs.map (fun _ => 0)) else none

/-- `common.BytesToHash`: the last 32 bytes, padded with zeros in front. -/
def bytesToHash (b : Bytes) : Hash :=
  ⟨(List.replicate 32 0 ++ b).drop b.length, by
    rw [List.length_drop, List.length_append, List.length_replicate, Nat.add_sub_cancel]⟩

/-- `pad` in `splitRange`: a number of at most `w` bytes; a longer one panics. -/
def pad (w v : Nat) : Option Bytes := if v < 256 ^ w then some (beEncode w v) else none

/-- The loop of `splitRange`: the ranges from `cur` on when `n` are left. -/
def splitLoop (w step : Nat) : Nat → Nat → Option (List (Bytes × Option Bytes))
  | _, 0 => some []
  -- open end: the trie stops on its own
  | cur, 1 =>
    match pad w cur with
    | some lo => some [(lo, none)]
    | none => none
  | cur, n + 2 =>
    match pad w (cur + step), pad w cur, splitLoop w step (cur + step + 1) (n + 1) with
    | some hi, some lo, some rest => some ((lo, some hi) :: rest)
    | _, _, _ => none

/-- `splitRange`: `n` contiguous ranges from a key to the top of the key space; `none` is a
panic. -/
def splitRange (from_ : Bytes) (n : Nat) : Option (List (Bytes × Option Bytes)) :=
  let lo := beDecode from_
  let hi := 256 ^ from_.length - 1
  let span := hi - lo
  if span = 0 ∨ n ≤ 1 then some [(from_, none)]
  else
    let step := span / n
    if step = 0 then some [(from_, none)] else splitLoop from_.length step lo n

/-! ## Pages -/

/-- `truncateAt`: drop the leaves past the end; the flag says whether any was dropped. -/
def truncateAt (r : LeafsResponse) (end_ : Option Bytes) : LeafsResponse × Bool :=
  match end_ with
  | none => (r, false)
  | some e =>
    if e = [] ∨ r.leaves = [] then (r, false)
    else
      let kept := r.leaves.rdropWhile (fun l => decide (e < l.1))
      ({ r with leaves := kept }, decide (kept.length < r.leaves.length))

/-- How a walk goes on after a page. -/
inductive Verdict where
  /-- the range is covered -/
  | stop
  /-- the next request -/
  | go (start : Bytes)
  /-- "empty response with more=true" -/
  | empty
  deriving DecidableEq

/-- The end of a turn of `runSegment` and of `walkStorage`, given the truncated response. -/
def verdict (done : Bool) (r : LeafsResponse) : Verdict :=
  if done || !r.more then .stop
  else
    match r.leaves.getLast? with
    | none => .empty
    | some l =>
      match incKey l.1 with
      | none => .stop
      | some k => .go k

/-- A cursor as a verdict. -/
def Verdict.ofNext : Option Bytes → Verdict
  | none => .stop
  | some k => .go k

/-- The leaves of a trie from `lo` to `hi`. -/
def InRange (t : Leaves) (lo : Bytes) (hi : Option Bytes) (l : Leaf) : Prop :=
  l ∈ t.list ∧ lo ≤ l.1 ∧ ∀ h, hi = some h → l.1 ≤ h

/-! ## Successor keys -/

theorem beDecode_zeros (bs : Bytes) : beDecode (bs.map (fun _ => 0)) = 0 := by
  induction bs with
  | nil => rfl
  | cons b bs ih => rw [List.map_cons, beDecode_cons, ih]; simp

/-- Without a carry out of the top byte the key counts up by one; with it the key was the
greatest. -/
theorem incKey_spec (k : Bytes) :
    (∀ k', incKey k = some k' → k'.length = k.length ∧ beDecode k' = beDecode k + 1) ∧
      (incKey k = none → beDecode k + 1 = 256 ^ k.length) := by
  induction k with
  | nil => exact ⟨fun k' h => (by cases h), fun _ => rfl⟩
  | cons b bs ih =>
    rw [incKey]
    cases hbs : incKey bs with
    | some bs' =>
      refine ⟨fun k' h => ?_, fun h => by cases h⟩
      obtain rfl : b :: bs' = k' := Option.some.inj h
      obtain ⟨hlen, hval⟩ := ih.1 bs' hbs
      rw [beDecode_cons, beDecode_cons, List.length_cons, List.length_cons, hlen, hval]
      exact ⟨rfl, by ring⟩
    | none =>
      have hmax := ih.2 hbs
      have hb := b.toNat_lt
      have hadd : (b + 1).toNat = (b.toNat + 1) % 256 := by
        rw [UInt8.toNat_add]
        rfl
      by_cases hne : b + 1 ≠ 0
      · have hval : (b + 1).toNat = b.toNat + 1 := by
          have hpos : (b + 1).toNat ≠ 0 := fun h => hne (UInt8.toNat_inj.mp h)
          omega
        dsimp only
        rw [if_pos hne]
        refine ⟨fun k' h => ?_, fun h => by cases h⟩
        obtain rfl : (b + 1) :: bs.map (fun _ => 0) = k' := Option.some.inj h
        rw [beDecode_cons, beDecode_cons, beDecode_zeros, List.length_cons, List.length_cons,
          List.length_map, hval]
        exact ⟨rfl, by rw [Nat.succ_mul]; omega⟩
      · have hval : b.toNat = 255 := by
          have hzero : (b + 1).toNat = 0 := by rw [not_not.mp hne]; rfl
          omega
        dsimp only
        rw [if_neg hne]
        refine ⟨fun k' h => (by cases h), fun _ => ?_⟩
        rw [beDecode_cons, hval, List.length_cons, Nat.pow_succ]
        omega

theorem length_incKey {k k' : Bytes} (h : incKey k = some k') : k'.length = k.length :=
  ((incKey_spec k).1 k' h).1

theorem lt_incKey {k k' : Bytes} (h : incKey k = some k') : k < k' := by
  obtain ⟨hlen, hval⟩ := (incKey_spec k).1 k' h
  exact (beDecode_lt_iff hlen.symm).mp (by omega)

/-- Nothing lies between a key and its successor. -/
theorem incKey_le {k k' q : Bytes} (h : incKey k = some k') (hq : q.length = k.length)
    (hlt : k < q) : k' ≤ q := by
  obtain ⟨hlen, hval⟩ := (incKey_spec k).1 k' h
  have := (beDecode_lt_iff hq.symm).mpr hlt
  exact (beDecode_le_iff (hlen.trans hq.symm)).mp (by omega)

/-- Nothing lies above the greatest key. -/
theorem le_of_incKey_none {k q : Bytes} (h : incKey k = none) (hq : q.length = k.length) :
    q ≤ k := by
  have hmax := (incKey_spec k).2 h
  have hlt := beDecode_lt q
  rw [hq] at hlt
  exact (beDecode_le_iff hq).mp (by omega)

theorem bytesToHash_of_length {b : Bytes} (h : b.length = 32) : (bytesToHash b).1 = b := by
  have hdrop : (bytesToHash b).1 = (List.replicate 32 0 ++ b).drop b.length := rfl
  rw [hdrop, h]
  exact List.drop_left' List.length_replicate

/-! ## What a page covers -/

theorem Leaves.mem_since {t : Leaves} {start : Bytes} {l : Leaf} :
    l ∈ t.since start ↔ l ∈ t.list ∧ start ≤ l.1 := by
  rw [Leaves.since, List.mem_filter, decide_eq_true_eq]

theorem Leaves.since_sorted (t : Leaves) (start : Bytes) :
    (t.since start).Pairwise (fun a b => a.1 < b.1) := t.sorted.filter _

/-- A key has one leaf. -/
theorem Leaves.eq_of_key (t : Leaves) {l l' : Leaf} (h : l ∈ t.list) (h' : l' ∈ t.list)
    (hk : l.1 = l'.1) : l = l' := by
  have hnodup : (t.list.map Prod.fst).Nodup :=
    List.pairwise_map.mpr (t.sorted.imp (fun h => ne_of_lt h))
  exact List.inj_on_of_nodup_map hnodup h h' hk

/-- A response is an initial part of what is left, and of a range only what lies past its end
is cut off. -/
theorem truncateAt_mem {t : Leaves} {start : Bytes} {hi : Option Bytes} {r : LeafsResponse}
    (hs : Serves t start r) (hhi : hi ≠ some []) {l : Leaf} :
    l ∈ (truncateAt r hi).1.leaves ↔ l ∈ r.leaves ∧ ∀ h, hi = some h → l.1 ≤ h := by
  cases hi with
  | none => simp [truncateAt]
  | some e =>
    have he : e ≠ [] := fun h => hhi (by rw [h])
    rw [truncateAt]
    by_cases hnil : r.leaves = []
    · simp [hnil]
    · rw [if_neg (not_or.mpr ⟨he, hnil⟩)]
      have hsorted := (t.since_sorted start).sublist hs.initial.sublist
      dsimp only
      rw [mem_rdropWhile hsorted (fun _ => decide_eq_true_iff)]
      simp

theorem truncateAt_subset {r : LeafsResponse} {hi : Option Bytes} :
    (truncateAt r hi).1.leaves ⊆ r.leaves := by
  cases hi with
  | none => exact List.Subset.refl _
  | some b =>
    rw [truncateAt]
    split
    · exact List.Subset.refl _
    · exact (List.rdropWhile_prefix _ _).subset

/-- A response the truncation leaves as it is, is the response. -/
theorem truncateAt_kept {r : LeafsResponse} {hi : Option Bytes}
    (h : (truncateAt r hi).2 = false) : (truncateAt r hi).1 = r := by
  cases hi with
  | none => rfl
  | some e =>
    rw [truncateAt] at h ⊢
    split at h
    · rename_i hc
      rw [if_pos hc]
    · rename_i hc
      rw [if_neg hc]
      have hlen := not_lt.mp (of_decide_eq_false h)
      have hpre := List.rdropWhile_prefix (fun l : Leaf => decide (e < l.1)) r.leaves
      rw [hpre.eq_of_length_le hlen]

theorem truncateAt_sorted {t : Leaves} {start : Bytes} {hi : Option Bytes} {r : LeafsResponse}
    (hs : Serves t start r) :
    (truncateAt r hi).1.leaves.Pairwise (fun a b => a.1 < b.1) := by
  have hsorted := (t.since_sorted start).sublist hs.initial.sublist
  cases hi with
  | none => exact hsorted
  | some e =>
    rw [truncateAt]
    split
    · exact hsorted
    · exact hsorted.sublist (List.rdropWhile_prefix _ _).sublist

/-- A leaf was dropped only if one lies past the end. -/
theorem truncateAt_dropped {r : LeafsResponse} {hi : Option Bytes}
    (h : (truncateAt r hi).2 = true) : ∃ e, hi = some e ∧ ∃ l ∈ r.leaves, e < l.1 := by
  cases hi with
  | none => cases h
  | some e =>
    refine ⟨e, rfl, ?_⟩
    rw [truncateAt] at h
    split at h
    · cases h
    · by_contra hcon
      have hself : r.leaves.rdropWhile (fun l => decide (e < l.1)) = r.leaves :=
        List.rdropWhile_eq_self_iff.mpr (fun hl hp =>
          hcon ⟨_, List.getLast_mem hl, by simpa using hp⟩)
      rw [hself] at h
      simp at h

/-- One turn of a walk: whatever the client answers with, the page and the cursor after it
leave no leaf of the range out. -/
theorem paged {t : Leaves} {lo start : Bytes} {hi : Option Bytes} {r : LeafsResponse}
    {done : Leaf → Prop} (hs : Serves t start r) (hlo : lo ≤ start) (hhi : hi ≠ some [])
    (h : Todo Prod.fst (InRange t lo hi) done [] (some start)) :
    ∃ next, verdict (truncateAt r hi).2 (truncateAt r hi).1 = .ofNext next ∧
      Todo Prod.fst (InRange t lo hi) done (truncateAt r hi).1.leaves next ∧
      ∀ k, next = some k → k.length = 32 ∧ start < k := by
  have hmem : ∀ l ∈ (truncateAt r hi).1.leaves, l ∈ t.since start ∧ InRange t lo hi l := by
    intro l hl
    obtain ⟨hr, hle⟩ := (truncateAt_mem hs hhi).mp hl
    have hsince := hs.initial.subset hr
    obtain ⟨ht, hstart⟩ := Leaves.mem_since.mp hsince
    exact ⟨hsince, ht, hlo.trans hstart, hle⟩
  have hpaged : ∀ next : Option Bytes,
      (∀ l ∈ t.since start, (∀ e, hi = some e → l.1 ≤ e) →
        l ∈ (truncateAt r hi).1.leaves ∨ ∃ k, next = some k ∧ k ≤ l.1) →
      (∀ l ∈ (truncateAt r hi).1.leaves, ∀ k, next = some k → l.1 < k) →
      Todo Prod.fst (InRange t lo hi) done (truncateAt r hi).1.leaves next :=
    fun next hall hahead => h.paged (truncateAt_sorted hs) (fun l hl => (hmem l hl).2)
      (fun l hl hge => hall l (Leaves.mem_since.mpr ⟨hl.1, hge⟩) hl.2.2) hahead
  rw [verdict]
  cases hd : (truncateAt r hi).2 with
  | true =>
    -- something past the end came back, so everything up to the end did
    refine ⟨none, rfl, hpaged none (fun l hl hle => Or.inl ?_) (fun _ _ k hk => (by cases hk)),
      fun k hk => (by cases hk)⟩
    obtain ⟨e, rfl, x, hx, hex⟩ := truncateAt_dropped hd
    refine (truncateAt_mem hs hhi).mpr ⟨?_, hle⟩
    by_contra hnot
    exact absurd (lt_of_mem_of_not_mem (t.since_sorted start) hs.initial hx hl hnot)
      (not_lt.mpr ((hle e rfl).trans hex.le))
  | false =>
    rw [truncateAt_kept hd] at hpaged hmem ⊢
    cases hm : r.more with
    | false =>
      have hlen := not_lt.mp (of_decide_eq_false (hs.more.symm.trans hm))
      have hall : r.leaves = t.since start := hs.initial.eq_of_length_le hlen
      exact ⟨none, rfl, hpaged none (fun l hl _ => Or.inl (hall ▸ hl))
        (fun _ _ k hk => (by cases hk)), fun k hk => (by cases hk)⟩
    | true =>
      have hlen := of_decide_eq_true (hs.more.symm.trans hm)
      have hne : r.leaves ≠ [] := by
        intro hnil
        rw [hs.nonempty hnil] at hlen
        simp at hlen
      rw [List.getLast?_eq_getLast_of_ne_nil hne]
      have hlast := hmem _ (List.getLast_mem hne)
      have hwidth := t.width _ (Leaves.mem_since.mp hlast.1).1
      -- the page is sorted, so its last key is its greatest
      have htop : ∀ l ∈ r.leaves, l.1 ≤ (r.leaves.getLast hne).1 := by
        intro l hl
        have hsorted := (t.since_sorted start).sublist hs.initial.sublist
        rw [← List.dropLast_append_getLast hne, List.pairwise_append] at hsorted
        rw [← List.dropLast_append_getLast hne] at hl
        rcases List.mem_append.mp hl with hin | hin
        · exact (hsorted.2.2 l hin _ (by simp)).le
        · exact (by simpa using hin : l = _) ▸ le_refl _
      cases hinc : incKey (r.leaves.getLast hne).1 with
      | none =>
        refine ⟨none, by simp [hinc, Verdict.ofNext], hpaged none (fun l hl _ => Or.inl ?_)
          (fun _ _ k hk => (by cases hk)), fun k hk => (by cases hk)⟩
        by_contra hnot
        have hlt := lt_of_mem_of_not_mem (t.since_sorted start) hs.initial (List.getLast_mem hne)
          hl hnot
        have hw := t.width _ (Leaves.mem_since.mp hl).1
        exact absurd (le_of_incKey_none hinc (hw.trans hwidth.symm)) (not_le.mpr hlt)
      | some k =>
        refine ⟨some k, by simp [hinc, Verdict.ofNext], hpaged (some k) (fun l hl _ => ?_) (fun l hl k' hk' => ?_),
          fun k' hk' => ?_⟩
        · by_cases hin : l ∈ r.leaves
          · exact Or.inl hin
          · have hlt := lt_of_mem_of_not_mem (t.since_sorted start) hs.initial
              (List.getLast_mem hne) hl hin
            have hw := t.width _ (Leaves.mem_since.mp hl).1
            exact Or.inr ⟨k, rfl, incKey_le hinc (hw.trans hwidth.symm) hlt⟩
        · obtain rfl := Option.some.inj hk'
          exact (htop l hl).trans_lt (lt_incKey hinc)
        · obtain rfl := Option.some.inj hk'
          exact ⟨(length_incKey hinc).trans hwidth,
            ((Leaves.mem_since.mp hlast.1).2).trans_lt (lt_incKey hinc)⟩

/-! ## Sub-ranges -/

/-- Ranges of `w`-byte keys that follow each other without a gap from the number `cur` on, the
last one without an end. -/
inductive Tiles (w : Nat) : Nat → List (Bytes × Option Bytes) → Prop
  | last {cur : Nat} (hcur : cur < 256 ^ w) : Tiles w cur [(beEncode w cur, none)]
  | cons {cur hi : Nat} {rest : List (Bytes × Option Bytes)} (hle : cur ≤ hi) (hhi : hi < 256 ^ w)
      (hrest : Tiles w (hi + 1) rest) : Tiles w cur ((beEncode w cur, some (beEncode w hi)) :: rest)

theorem pad_eq_some {w v : Nat} {k : Bytes} (h : pad w v = some k) :
    v < 256 ^ w ∧ k = beEncode w v := by
  unfold pad at h
  split at h
  · rename_i hv
    exact ⟨hv, (Option.some.inj h).symm⟩
  · cases h

theorem splitLoop_tiles {w step : Nat} {n cur : Nat} {ranges : List (Bytes × Option Bytes)}
    (h : splitLoop w step cur (n + 1) = some ranges) : Tiles w cur ranges := by
  induction n generalizing cur ranges with
  | zero =>
    unfold splitLoop at h
    cases hlo : pad w cur with
    | none => rw [hlo] at h; cases h
    | some lo =>
      rw [hlo] at h
      obtain ⟨hcur, rfl⟩ := pad_eq_some hlo
      rw [← Option.some.inj h]
      exact .last hcur
  | succ n ih =>
    unfold splitLoop at h
    split at h
    · rename_i hi lo rest hhi hlo hrest
      obtain ⟨hlt, rfl⟩ := pad_eq_some hhi
      obtain ⟨-, rfl⟩ := pad_eq_some hlo
      rw [← Option.some.inj h]
      exact .cons (Nat.le_add_right _ _) hlt (ih hrest)
    · cases h

/-- The sub-ranges of a giant tile the key space from the key on. -/
theorem splitRange_tiles {k : Bytes} {n : Nat} {ranges : List (Bytes × Option Bytes)}
    (h : splitRange k n = some ranges) : Tiles k.length (beDecode k) ranges := by
  have hwhole : Tiles k.length (beDecode k) [(k, none)] := by
    have hlast := Tiles.last (beDecode_lt k)
    rwa [beEncode_beDecode] at hlast
  unfold splitRange at h
  dsimp only at h
  split at h
  · rw [← Option.some.inj h]
    exact hwhole
  · rename_i hn
    split at h
    · rw [← Option.some.inj h]
      exact hwhole
    · obtain ⟨n', rfl⟩ : ∃ n', n = n' + 1 := ⟨n - 1, by omega⟩
      exact splitLoop_tiles h

namespace Tiles

variable {w cur : Nat} {ranges : List (Bytes × Option Bytes)} {r r' : Bytes × Option Bytes}

/-- Every range starts at or after the first and ends in a key. -/
theorem bounds (h : Tiles w cur ranges) (hr : r ∈ ranges) :
    r.1.length = w ∧ cur ≤ beDecode r.1 ∧ ∀ hi, r.2 = some hi → hi.length = w := by
  induction h with
  | last hcur =>
    obtain rfl := List.mem_singleton.mp hr
    refine ⟨length_beEncode _ _, (beDecode_beEncode_of_lt hcur).ge, fun hi hhi => ?_⟩
    cases hhi
  | @cons cur hi rest hle hhi hrest ih =>
    rcases List.mem_cons.mp hr with rfl | hr
    · have hcur : cur < 256 ^ w := hle.trans_lt hhi
      refine ⟨length_beEncode _ _, (beDecode_beEncode_of_lt hcur).ge, fun hi' hhi' => ?_⟩
      rw [← Option.some.inj hhi']
      exact length_beEncode _ _
    · obtain ⟨hlen, hge, hend⟩ := ih hr
      exact ⟨hlen, by omega, hend⟩

/-- No key is left out. -/
theorem covers (h : Tiles w cur ranges) {q : Bytes} (hq : q.length = w) (hge : cur ≤ beDecode q) :
    ∃ r ∈ ranges, r.1 ≤ q ∧ ∀ hi, r.2 = some hi → q ≤ hi := by
  induction h with
  | last hcur =>
    refine ⟨_, List.mem_singleton_self _, ?_, fun hi hhi => by cases hhi⟩
    refine (beDecode_le_iff ((length_beEncode _ _).trans hq.symm)).mp ?_
    rwa [beDecode_beEncode_of_lt hcur]
  | @cons cur hi rest hle hhi hrest ih =>
    by_cases hin : beDecode q ≤ hi
    · refine ⟨_, List.mem_cons_self, ?_, fun hi' hhi' => ?_⟩
      · refine (beDecode_le_iff ((length_beEncode _ _).trans hq.symm)).mp ?_
        rwa [beDecode_beEncode_of_lt (hle.trans_lt hhi)]
      · rw [← Option.some.inj hhi']
        refine (beDecode_le_iff (hq.trans (length_beEncode _ _).symm)).mp ?_
        rwa [beDecode_beEncode_of_lt hhi]
    · obtain ⟨r, hr, hbounds⟩ := ih (by omega)
      exact ⟨r, List.mem_cons_of_mem _ hr, hbounds⟩

/-- No range starts inside another. -/
theorem apart (h : Tiles w cur ranges) (hr : r ∈ ranges) (hr' : r' ∈ ranges) (hlt : r.1 < r'.1) :
    ∃ hi, r.2 = some hi ∧ hi < r'.1 := by
  induction h with
  | last hcur =>
    obtain rfl := List.mem_singleton.mp hr
    obtain rfl := List.mem_singleton.mp hr'
    exact absurd hlt (lt_irrefl _)
  | @cons cur hi rest hle hhi hrest ih =>
    have hcur : cur < 256 ^ w := hle.trans_lt hhi
    rcases List.mem_cons.mp hr with rfl | hr
    · rcases List.mem_cons.mp hr' with rfl | hr'
      · exact absurd hlt (lt_irrefl _)
      · obtain ⟨hlen, hge, -⟩ := hrest.bounds hr'
        refine ⟨_, rfl, (beDecode_lt_iff ((length_beEncode _ _).trans hlen.symm)).mp ?_⟩
        rw [beDecode_beEncode_of_lt hhi]
        omega
    · rcases List.mem_cons.mp hr' with rfl | hr'
      · obtain ⟨hlen, hge, -⟩ := hrest.bounds hr
        have hval := (beDecode_lt_iff (hlen.trans (length_beEncode _ _).symm)).mpr hlt
        rw [beDecode_beEncode_of_lt hcur] at hval
        omega
      · exact ih hr hr'

end Tiles

end Flatstate.Sync
