import Mathlib.Data.List.Pairwise
import Mathlib.Order.Lattice

set_option autoImplicit false

/-!
# Foundation: an ordered key/value map with a cursor

The map an embedded B+tree store presents to one transaction: bindings sorted
strictly by key, point reads and writes, and the cursor movements `SetRange`
(least key at or above), `Next` (least key above), `Prev` (greatest key below)
and `Last`.

The representation is the sorted binding list, with sortedness carried by the
structure, so that every value of the type is a legal map.  Two maps with the
same point reads are equal (`OrdMap.ext_get`), and each cursor movement is
specified by point reads alone, so that no later proof looks at the list.
-/

namespace Flatstate.Foundation

/-- A finite map with ordered keys. -/
@[ext]
structure OrdMap (κ ν : Type) [LinearOrder κ] where
  /-- The bindings. -/
  entries : List (κ × ν)
  /-- They are sorted strictly by key. -/
  sorted : entries.Pairwise (fun a b => a.1 < b.1)

namespace OrdMap

variable {κ ν : Type} [LinearOrder κ]

/-- The map without bindings. -/
def empty : OrdMap κ ν := ⟨[], List.Pairwise.nil⟩

/-- Point read. -/
def get (m : OrdMap κ ν) (k : κ) : Option ν :=
  (m.entries.find? (fun e => decide (e.1 = k))).map (·.2)

/-- Insert, or overwrite the binding of `k`. -/
def put (m : OrdMap κ ν) (k : κ) (v : ν) : OrdMap κ ν where
  entries := m.entries.filter (fun e => decide (e.1 < k)) ++
    (k, v) :: m.entries.filter (fun e => decide (k < e.1))
  sorted := by
    rw [List.pairwise_append]
    refine ⟨m.sorted.filter _, ?_, ?_⟩
    · rw [List.pairwise_cons]
      refine ⟨?_, m.sorted.filter _⟩
      intro e he
      simpa using (List.mem_filter.mp he).2
    · intro a ha b hb
      have hak : a.1 < k := by simpa using (List.mem_filter.mp ha).2
      rcases List.mem_cons.mp hb with rfl | hb
      · exact hak
      · exact hak.trans (by simpa using (List.mem_filter.mp hb).2)

/-- Remove the binding of `k`, if there is one. -/
def del (m : OrdMap κ ν) (k : κ) : OrdMap κ ν where
  entries := m.entries.filter (fun e => decide (e.1 ≠ k))
  sorted := m.sorted.filter _

/-- Cursor `SetRange`: the binding with the least key at or above `k`. -/
def setRange (m : OrdMap κ ν) (k : κ) : Option (κ × ν) :=
  m.entries.find? (fun e => decide (k ≤ e.1))

/-- Cursor `Prev` from a cursor at `k`: the binding with the greatest key below. -/
def prev (m : OrdMap κ ν) (k : κ) : Option (κ × ν) :=
  m.entries.reverse.find? (fun e => decide (e.1 < k))

/-- Cursor `Last`: the binding with the greatest key. -/
def last (m : OrdMap κ ν) : Option (κ × ν) :=
  m.entries.getLast?

/-- The bindings a cursor meets from `SetRange` at `k` on, with `Next` to the end. -/
def scan (m : OrdMap κ ν) (k : κ) : List (κ × ν) :=
  m.entries.filter (fun e => decide (k ≤ e.1))

/-! ## Point reads -/

theorem mem_entries_iff (m : OrdMap κ ν) (k : κ) (v : ν) :
    (k, v) ∈ m.entries ↔ m.get k = some v := by
  obtain ⟨l, hl⟩ := m
  simp only [get]
  induction l with
  | nil => simp
  | cons e l ih =>
    rw [List.pairwise_cons] at hl
    have ih := ih hl.2
    by_cases hek : e.1 = k
    · have hnot : ∀ w, (k, w) ∉ l := by
        intro w hw
        have := hl.1 _ hw
        rw [hek] at this
        exact lt_irrefl _ this
      rw [List.find?_cons_of_pos (by simpa using hek), List.mem_cons]
      constructor
      · rintro (h | h)
        · simp [← h]
        · exact absurd h (hnot v)
      · intro h
        have hv : e.2 = v := by simpa using h
        exact Or.inl (by rw [← hek, ← hv])
    · rw [List.find?_cons_of_neg (by simpa using hek), List.mem_cons, ← ih]
      constructor
      · rintro (h | h)
        · exact absurd (by rw [← h]) hek
        · exact h
      · exact Or.inr

@[simp] theorem get_empty (k : κ) : (empty : OrdMap κ ν).get k = none := rfl

theorem get_put (m : OrdMap κ ν) (k k' : κ) (v : ν) :
    (m.put k v).get k' = if k' = k then some v else m.get k' := by
  apply Option.ext
  intro w
  rw [← mem_entries_iff, put]
  simp only [List.mem_append, List.mem_filter, List.mem_cons, Prod.mk.injEq,
    decide_eq_true_eq, mem_entries_iff]
  by_cases hk : k' = k
  · subst hk
    simp [eq_comm]
  · simp only [hk, false_and, false_or, if_false]
    constructor
    · rintro (h | h) <;> exact h.1
    · intro h
      rcases lt_or_gt_of_ne hk with hlt | hgt
      · exact Or.inl ⟨h, hlt⟩
      · exact Or.inr ⟨h, hgt⟩

@[simp] theorem get_put_self (m : OrdMap κ ν) (k : κ) (v : ν) :
    (m.put k v).get k = some v := by
  rw [get_put, if_pos rfl]

theorem get_put_of_ne (m : OrdMap κ ν) {k k' : κ} (v : ν) (h : k' ≠ k) :
    (m.put k v).get k' = m.get k' := by
  rw [get_put, if_neg h]

theorem get_del (m : OrdMap κ ν) (k k' : κ) :
    (m.del k).get k' = if k' = k then none else m.get k' := by
  apply Option.ext
  intro w
  rw [← mem_entries_iff, del]
  simp only [List.mem_filter, decide_eq_true_eq, mem_entries_iff]
  by_cases hk : k' = k <;> simp [hk]

theorem get_del_of_ne (m : OrdMap κ ν) {k k' : κ} (h : k' ≠ k) :
    (m.del k).get k' = m.get k' := by
  rw [get_del, if_neg h]

/-- A map is determined by its point reads. -/
theorem ext_get {m m' : OrdMap κ ν} (h : ∀ k, m.get k = m'.get k) : m = m' := by
  have hmem : ∀ e, e ∈ m.entries ↔ e ∈ m'.entries := by
    intro ⟨k, v⟩
    rw [mem_entries_iff, mem_entries_iff, h k]
  have hnodup : ∀ n : OrdMap κ ν, n.entries.Nodup := by
    intro n
    refine n.sorted.imp ?_
    intro a b hab heq
    rw [heq] at hab
    exact lt_irrefl _ hab
  have hperm : m.entries.Perm m'.entries :=
    (List.perm_ext_iff_of_nodup (hnodup m) (hnodup m')).mpr hmem
  exact OrdMap.ext (hperm.eq_of_pairwise
    (fun a b _ _ hab hba => absurd hab (lt_asymm hba)) m.sorted m'.sorted)

/-- Puts in order. -/
def putAll (m : OrdMap κ ν) (ws : List (κ × ν)) : OrdMap κ ν := ws.foldl (fun m w => m.put w.1 w.2) m

/-- A key that is written gets the same value over any map, any other key keeps its own. -/
theorem get_putAll_congr {ws : List (κ × ν)} {m m' : OrdMap κ ν} {k : κ}
    (h : k ∈ ws.map Prod.fst ∨ m.get k = m'.get k) :
    (m.putAll ws).get k = (m'.putAll ws).get k := by
  induction ws generalizing m m' with
  | nil => simpa [putAll] using h
  | cons w ws ih =>
    refine ih ?_
    by_cases hk : k = w.1
    · exact Or.inr (by rw [hk, get_put_self, get_put_self])
    · rw [get_put_of_ne _ _ hk, get_put_of_ne _ _ hk]
      simpa [hk] using h

theorem get_putAll_of_not_mem {ws : List (κ × ν)} (m : OrdMap κ ν) {k : κ}
    (h : k ∉ ws.map Prod.fst) : (m.putAll ws).get k = m.get k := by
  induction ws generalizing m with
  | nil => rfl
  | cons w ws ih =>
    rw [List.map_cons, List.mem_cons, not_or] at h
    exact (ih (m.put w.1 w.2) h.2).trans (get_put_of_ne m w.2 h.1)

/-- Puts that are made again change nothing. -/
theorem putAll_putAll (m : OrdMap κ ν) (ws : List (κ × ν)) :
    (m.putAll ws).putAll ws = m.putAll ws := by
  refine ext_get (fun k => get_putAll_congr ?_)
  by_cases hk : k ∈ ws.map Prod.fst
  · exact Or.inl hk
  · exact Or.inr (get_putAll_of_not_mem m hk)

/-! ## Cursor movements -/

/-- The first binding of a sorted list that an upward-closed test accepts has the
least key among those it accepts. -/
theorem find_sorted {l : List (κ × ν)} (hl : l.Pairwise (fun a b => a.1 < b.1))
    {p : κ × ν → Bool} {e : κ × ν} (h : l.find? p = some e) :
    e ∈ l ∧ p e = true ∧ ∀ e' ∈ l, p e' = true → e.1 ≤ e'.1 := by
  obtain ⟨hp, pre, post, rfl, hpre⟩ := List.find?_eq_some_iff_append.mp h
  refine ⟨by simp, hp, ?_⟩
  intro e' he' hpe'
  rw [List.pairwise_append, List.pairwise_cons] at hl
  rcases List.mem_append.mp he' with hin | hin
  · have := hpre e' hin
    simp [hpe'] at this
  · rcases List.mem_cons.mp hin with rfl | hin
    · exact le_refl _
    · exact (hl.2.1.1 e' hin).le

theorem setRange_eq_some {m : OrdMap κ ν} {k k' : κ} {v : ν}
    (h : m.setRange k = some (k', v)) :
    m.get k' = some v ∧ k ≤ k' ∧ ∀ k'' w, m.get k'' = some w → k ≤ k'' → k' ≤ k'' := by
  obtain ⟨hmem, hp, hmin⟩ := find_sorted m.sorted h
  refine ⟨(mem_entries_iff m k' v).mp hmem, by simpa using hp, ?_⟩
  intro k'' w hw hle
  exact hmin (k'', w) ((mem_entries_iff m k'' w).mpr hw) (by simpa using hle)

theorem setRange_eq_none {m : OrdMap κ ν} {k : κ} (h : m.setRange k = none) :
    ∀ k' v, m.get k' = some v → k' < k := by
  intro k' v hv
  have := List.find?_eq_none.mp h (k', v) ((mem_entries_iff m k' v).mpr hv)
  simpa using this

theorem mem_scan {m : OrdMap κ ν} {k k' : κ} {v : ν} :
    (k', v) ∈ m.scan k ↔ m.get k' = some v ∧ k ≤ k' := by
  rw [scan, List.mem_filter, mem_entries_iff, decide_eq_true_eq]

theorem scan_sorted (m : OrdMap κ ν) (k : κ) : (m.scan k).Pairwise (fun a b => a.1 < b.1) :=
  m.sorted.filter _

/-- The mirror image of `find_sorted`, for a search from the high end. -/
theorem find_reverse_sorted {l : List (κ × ν)} (hl : l.Pairwise (fun a b => a.1 < b.1))
    {p : κ × ν → Bool} {e : κ × ν} (h : l.reverse.find? p = some e) :
    e ∈ l ∧ p e = true ∧ ∀ e' ∈ l, p e' = true → e'.1 ≤ e.1 := by
  obtain ⟨hp, pre, post, heq, hpre⟩ := List.find?_eq_some_iff_append.mp h
  have hl' : l = post.reverse ++ e :: pre.reverse := by
    have := congrArg List.reverse heq
    simpa using this
  subst hl'
  refine ⟨by simp, hp, ?_⟩
  intro e' he' hpe'
  rw [List.pairwise_append] at hl
  rcases List.mem_append.mp he' with hin | hin
  · exact (hl.2.2 e' hin e (by simp)).le
  · rcases List.mem_cons.mp hin with rfl | hin
    · exact le_refl _
    · have := hpre e' (List.mem_reverse.mp hin)
      simp [hpe'] at this

theorem prev_eq_some {m : OrdMap κ ν} {k k' : κ} {v : ν} (h : m.prev k = some (k', v)) :
    m.get k' = some v ∧ k' < k ∧ ∀ k'' w, m.get k'' = some w → k'' < k → k'' ≤ k' := by
  obtain ⟨hmem, hp, hmax⟩ := find_reverse_sorted m.sorted h
  refine ⟨(mem_entries_iff m k' v).mp hmem, by simpa using hp, ?_⟩
  intro k'' w hw hlt
  exact hmax (k'', w) ((mem_entries_iff m k'' w).mpr hw) (by simpa using hlt)

theorem prev_eq_none {m : OrdMap κ ν} {k : κ} (h : m.prev k = none) :
    ∀ k' v, m.get k' = some v → k ≤ k' := by
  intro k' v hv
  have hmem : (k', v) ∈ m.entries.reverse :=
    List.mem_reverse.mpr ((mem_entries_iff m k' v).mpr hv)
  have := List.find?_eq_none.mp h (k', v) hmem
  simpa using this

theorem last_eq_some {m : OrdMap κ ν} {k : κ} {v : ν} (h : m.last = some (k, v)) :
    m.get k = some v ∧ ∀ k' w, m.get k' = some w → k' ≤ k := by
  obtain ⟨pre, hpre⟩ := List.getLast?_eq_some_iff.mp h
  refine ⟨(mem_entries_iff m k v).mp (by simp [hpre]), ?_⟩
  intro k' w hw
  have hmem := (mem_entries_iff m k' w).mpr hw
  have hsorted := m.sorted
  rw [hpre, List.pairwise_append] at hsorted
  rw [hpre, List.mem_append] at hmem
  rcases hmem with hin | hin
  · exact (hsorted.2.2 _ hin (k, v) (by simp)).le
  · have : k' = k ∧ w = v := by simpa using hin
    exact this.1.le

theorem last_eq_none {m : OrdMap κ ν} (h : m.last = none) (k : κ) : m.get k = none := by
  have hnil : m.entries = [] := List.getLast?_eq_none_iff.mp h
  simp [get, hnil]

end OrdMap

end Flatstate.Foundation
