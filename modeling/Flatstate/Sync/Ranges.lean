import Flatstate.Sync.Leaves

set_option autoImplicit false

/-!
# Sync: the sub-ranges of a giant (`splitRange`)

A giant storage trie is walked as several sub-ranges of the rest of the key space.  The step
between two starts is the span over the number of ranges, rounded down, and each range takes
one key more than the step.  Near the top of the key space these extra keys can add up to more
than the rounding left over: the start of the last range then does not fit into a key, and
writing it out panics.
-/

namespace Flatstate.Sync

open Foundation Schema

/-- Ranges that partition the keys from `start` on: each bound has the width of a key, the
first starts at `start`, each later one right above the end of the one before it, none is
empty, the last has no end, and every key is in exactly one of them. -/
structure Partition (start : Bytes) (ranges : List (Bytes × Option Bytes)) : Prop where
  nonempty : ranges ≠ []
  width : ∀ r ∈ ranges, r.1.length = start.length ∧ ∀ hi, r.2 = some hi → hi.length = start.length
  first : ranges.head?.map Prod.fst = some start
  next : ranges.IsChain fun r r' => ∃ hi, r.2 = some hi ∧ beDecode r'.1 = beDecode hi + 1
  bounded : ∀ r ∈ ranges, ∀ hi, r.2 = some hi → r.1 ≤ hi
  last : ∀ r, ranges.getLast? = some r → r.2 = none
  exactlyOne : ∀ q : Bytes, q.length = start.length → start ≤ q →
    ∃! r, r ∈ ranges ∧ r.1 ≤ q ∧ ∀ hi, r.2 = some hi → q ≤ hi

namespace Tiles

variable {w cur : Nat} {ranges : List (Bytes × Option Bytes)} {r r' : Bytes × Option Bytes}

theorem head (h : Tiles w cur ranges) : ∃ hi rest, ranges = (beEncode w cur, hi) :: rest := by
  cases h with
  | last hcur => exact ⟨none, [], rfl⟩
  | cons hle hhi hrest => exact ⟨_, _, rfl⟩

theorem chain (h : Tiles w cur ranges) :
    ranges.IsChain fun r r' => ∃ hi, r.2 = some hi ∧ beDecode r'.1 = beDecode hi + 1 := by
  induction h with
  | last hcur => exact .singleton _
  | @cons cur hi rest hle hhi hrest ih =>
    cases hrest with
    | last hcur =>
      refine .cons_cons ⟨_, rfl, ?_⟩ ih
      rw [beDecode_beEncode_of_lt hhi, beDecode_beEncode_of_lt hcur]
    | cons hle' hhi' hrest' =>
      refine .cons_cons ⟨_, rfl, ?_⟩ ih
      rw [beDecode_beEncode_of_lt hhi, beDecode_beEncode_of_lt (hle'.trans_lt hhi')]

theorem nonempty_range (h : Tiles w cur ranges) (hr : r ∈ ranges) {hi : Bytes}
    (hhi : r.2 = some hi) : r.1 ≤ hi := by
  induction h with
  | last hcur =>
    obtain rfl := List.mem_singleton.mp hr
    cases hhi
  | @cons cur top rest hle htop hrest ih =>
    rcases List.mem_cons.mp hr with rfl | hr
    · obtain rfl := Option.some.inj hhi
      refine (beDecode_le_iff (by simp)).mp ?_
      rw [beDecode_beEncode_of_lt (hle.trans_lt htop), beDecode_beEncode_of_lt htop]
      exact hle
    · exact ih hr

theorem last_open (h : Tiles w cur ranges) (hr : ranges.getLast? = some r) : r.2 = none := by
  induction h with
  | last hcur =>
    obtain rfl := Option.some.inj hr
    rfl
  | cons hle hhi hrest ih =>
    obtain ⟨hi', rest', rfl⟩ := hrest.head
    rw [List.getLast?_cons_cons] at hr
    exact ih hr

/-- A start determines its range. -/
theorem eq_of_start (h : Tiles w cur ranges) (hr : r ∈ ranges) (hr' : r' ∈ ranges)
    (heq : r.1 = r'.1) : r = r' := by
  induction h with
  | last hcur => rw [List.mem_singleton.mp hr, List.mem_singleton.mp hr']
  | @cons cur hi rest hle hhi hrest ih =>
    have hcur : beDecode (beEncode w cur) = cur := beDecode_beEncode_of_lt (hle.trans_lt hhi)
    -- every later range starts above the first one
    have hlater : ∀ s ∈ rest, s.1 ≠ beEncode w cur := by
      intro s hs hstart
      have hge := (hrest.bounds hs).2.1
      rw [hstart, hcur] at hge
      omega
    rcases List.mem_cons.mp hr with rfl | hr
    · rcases List.mem_cons.mp hr' with rfl | hr'
      · rfl
      · exact absurd heq.symm (hlater r' hr')
    · rcases List.mem_cons.mp hr' with rfl | hr'
      · exact absurd heq (hlater r hr)
      · exact ih hr hr'

/-- Two ranges that share a key are one. -/
theorem eq_of_mem (h : Tiles w cur ranges) (hr : r ∈ ranges) (hr' : r' ∈ ranges) {q : Bytes}
    (hq : r.1 ≤ q ∧ ∀ hi, r.2 = some hi → q ≤ hi)
    (hq' : r'.1 ≤ q ∧ ∀ hi, r'.2 = some hi → q ≤ hi) : r = r' := by
  rcases lt_trichotomy r.1 r'.1 with hlt | heq | hgt
  · obtain ⟨hi, hhi, habove⟩ := h.apart hr hr' hlt
    exact absurd (hq.2 hi hhi) (not_le.mpr (habove.trans_le hq'.1))
  · exact h.eq_of_start hr hr' heq
  · obtain ⟨hi, hhi, habove⟩ := h.apart hr' hr hgt
    exact absurd (hq'.2 hi hhi) (not_le.mpr (habove.trans_le hq.1))

theorem partition {start : Bytes} (h : Tiles start.length (beDecode start) ranges) :
    Partition start ranges := by
  obtain ⟨top, rest, hranges⟩ := h.head
  have hfirst : ranges = (start, top) :: rest := by rw [hranges, beEncode_beDecode]
  refine ⟨by simp [hfirst], fun r hr => ?_, by simp [hfirst], h.chain,
    fun r hr hi => h.nonempty_range hr, fun r => h.last_open, fun q hq hge => ?_⟩
  · obtain ⟨hlen, -, hend⟩ := h.bounds hr
    exact ⟨hlen, hend⟩
  · obtain ⟨r, hr, hin⟩ := h.covers hq ((beDecode_le_iff hq.symm).mpr hge)
    exact ⟨r, ⟨hr, hin⟩, fun r' hr' => h.eq_of_mem hr'.1 hr hr'.2 hin⟩

end Tiles

/-! ## When the bounds fit -/

theorem pad_ne_none {w v : Nat} : pad w v ≠ none ↔ v < 256 ^ w := by
  unfold pad
  split
  · simp [*]
  · simp [*]

/-- The loop returns iff the start of its last range is a key. -/
theorem splitLoop_ne_none {w step n cur : Nat} :
    splitLoop w step cur (n + 1) ≠ none ↔ cur + n * (step + 1) < 256 ^ w := by
  induction n generalizing cur with
  | zero =>
    rw [Nat.zero_mul, Nat.add_zero, ← pad_ne_none]
    unfold splitLoop
    cases pad w cur with
    | none => simp
    | some lo => simp
  | succ n ih =>
    have hlast : cur + (n + 1) * (step + 1) = cur + step + 1 + n * (step + 1) := by ring
    rw [hlast, ← ih]
    cases hrest : splitLoop w step (cur + step + 1) (n + 1) with
    | none =>
      rw [splitLoop, hrest]
      refine iff_of_false (fun h => h ?_) (fun h => h rfl)
      split
      · rename_i heq
        cases heq
      · rfl
    | some rest =>
      -- the ranges before the last one end below its start
      have hlt := ih.mp (hrest ▸ Option.some_ne_none rest)
      have hhi : cur + step < 256 ^ w := by omega
      have hlo : cur < 256 ^ w := by omega
      rw [splitLoop, hrest]
      unfold pad
      rw [if_pos hhi, if_pos hlo]
      simp

/-- `splitRange` returns, and partitions the rest of the key space, exactly when fewer keys are
left than ranges are asked for, or the ranges before the last one take no more keys than are
left. -/
theorem splitRange_partitions_iff (start : Bytes) (n : Nat) :
    (∃ ranges, splitRange start n = some ranges ∧ Partition start ranges) ↔
      256 ^ start.length - 1 - beDecode start < n ∨
        (n - 1) * ((256 ^ start.length - 1 - beDecode start) / n + 1) ≤
          256 ^ start.length - 1 - beDecode start := by
  have hret : (∃ ranges, splitRange start n = some ranges ∧ Partition start ranges) ↔
      splitRange start n ≠ none := by
    rw [Option.ne_none_iff_exists']
    exact ⟨fun ⟨ranges, hs, _⟩ => ⟨ranges, hs⟩,
      fun ⟨ranges, hs⟩ => ⟨ranges, hs, (splitRange_tiles hs).partition⟩⟩
  rw [hret]
  have hlt := beDecode_lt start
  unfold splitRange
  dsimp only
  generalize hspan : 256 ^ start.length - 1 - beDecode start = span
  split
  · rename_i hsmall
    refine iff_of_true (by simp) ?_
    rcases hsmall with rfl | hn
    · rcases Nat.eq_zero_or_pos n with rfl | hpos
      · exact Or.inr (by simp)
      · exact Or.inl hpos
    · have hzero : n - 1 = 0 := by omega
      rw [hzero, Nat.zero_mul]
      exact Or.inr (Nat.zero_le _)
  · rename_i hlarge
    obtain ⟨-, hn⟩ := not_or.mp hlarge
    split
    · rename_i hstep
      have hfew : span < n := (Nat.div_eq_zero_iff.mp hstep).resolve_left (by omega)
      exact iff_of_true (by simp) (Or.inl hfew)
    · rename_i hstep
      have hmany : ¬ span < n := fun h => hstep (Nat.div_eq_of_lt h)
      obtain ⟨m, rfl⟩ : ∃ m, n = m + 1 := ⟨n - 1, by omega⟩
      rw [splitLoop_ne_none, Nat.add_sub_cancel, or_iff_right hmany]
      omega

/-- Seventeen keys are left below the top: sixteen ranges of two keys do not fit. -/
theorem splitRange_panics_near_top :
    splitRange (beEncode 32 (2 ^ 256 - 17)) 16 = none ∧
    ¬ ∀ start n, start.length = 32 → 1 ≤ n →
      ∃ ranges, splitRange start n = some ranges ∧ Partition start ranges := by
  have hnone : splitRange (beEncode 32 (2 ^ 256 - 17)) 16 = none := by decide +kernel
  refine ⟨hnone, fun hall => ?_⟩
  obtain ⟨ranges, hs, -⟩ := hall (beEncode 32 (2 ^ 256 - 17)) 16 (length_beEncode _ _) (by omega)
  rw [hnone] at hs
  cases hs

end Flatstate.Sync
