import Mathlib.Data.List.Basic
import Mathlib.Data.List.Perm.Subperm
import Mathlib.Data.List.Nodup
import Mathlib.Algebra.Order.Group.Multiset
import Mathlib.Algebra.BigOperators.Group.List.Basic

set_option autoImplicit false

/-!
# Foundation: finite tables

An association list in which no key occurs twice, for the maps of programs whose size
matters (a walk that visits no key twice ends within as many steps as there are keys).
The order of the entries has no meaning.
-/

namespace Flatstate.Foundation

/-- A finite map with its entries in some order. -/
structure Table (κ ν : Type) where
  entries : List (κ × ν)
  /-- no key occurs twice -/
  nodup : (entries.map Prod.fst).Nodup

namespace Table

variable {κ ν : Type}

def empty : Table κ ν := ⟨[], List.nodup_nil⟩

/-- The number of keys. -/
def size (t : Table κ ν) : Nat := t.entries.length

/-- The entries that pass a test. -/
def keep (t : Table κ ν) (p : κ → ν → Bool) : Table κ ν where
  entries := t.entries.filter (fun e => p e.1 e.2)
  nodup := t.nodup.sublist (List.filter_sublist.map Prod.fst)

variable [DecidableEq κ]

def get (t : Table κ ν) (k : κ) : Option ν := t.entries.lookup k

def erase (t : Table κ ν) (k : κ) : Table κ ν := t.keep (fun k' _ => k' ≠ k)

/-- Bind a key, replacing what it was bound to. -/
def set (t : Table κ ν) (k : κ) (v : ν) : Table κ ν where
  entries := (k, v) :: (t.erase k).entries
  nodup := by
    rw [List.map_cons, List.nodup_cons]
    refine ⟨fun hmem => ?_, (t.erase k).nodup⟩
    obtain ⟨e, he, hk⟩ := List.mem_map.mp hmem
    have hne := (List.mem_filter.mp he).2
    simp [hk] at hne

/-! ## Lookups -/

@[simp] theorem get_empty (k : κ) : (empty : Table κ ν).get k = none := rfl

theorem lookup_eq_some_iff {l : List (κ × ν)} (hl : (l.map Prod.fst).Nodup) {k : κ} {v : ν} :
    l.lookup k = some v ↔ (k, v) ∈ l := by
  induction l with
  | nil => simp
  | cons e l ih =>
    obtain ⟨k', v'⟩ := e
    rw [List.map_cons, List.nodup_cons] at hl
    rw [List.lookup_cons, List.mem_cons, Prod.mk.injEq]
    by_cases hk : k = k'
    · subst hk
      have hout : (k, v) ∉ l := fun hm => hl.1 (List.mem_map.mpr ⟨_, hm, rfl⟩)
      simp [hout, eq_comm]
    · have hbeq : (k == k') = false := by simpa using hk
      simp [hbeq, hk, ih hl.2]

theorem get_eq_some_iff {t : Table κ ν} {k : κ} {v : ν} : t.get k = some v ↔ (k, v) ∈ t.entries :=
  lookup_eq_some_iff t.nodup

theorem get_keep (t : Table κ ν) (p : κ → ν → Bool) (k : κ) :
    (t.keep p).get k = (t.get k).filter (p k) := by
  refine Option.ext (fun v => ?_)
  rw [get_eq_some_iff, Option.filter_eq_some_iff, get_eq_some_iff]
  exact List.mem_filter

theorem get_erase (t : Table κ ν) (k k' : κ) :
    (t.erase k).get k' = if k' = k then none else t.get k' := by
  rw [erase, get_keep]
  by_cases hk : k' = k
  · rw [if_pos hk]
    cases t.get k' <;> simp [Option.filter, hk]
  · rw [if_neg hk]
    cases t.get k' <;> simp [Option.filter, hk]

theorem get_set (t : Table κ ν) (k k' : κ) (v : ν) :
    (t.set k v).get k' = if k' = k then some v else t.get k' := by
  have hlook : (t.set k v).get k' = ((k, v) :: (t.erase k).entries).lookup k' := rfl
  rw [hlook, List.lookup_cons]
  by_cases hk : k' = k
  · simp [hk]
  · have hbeq : (k' == k) = false := by simpa using hk
    rw [if_neg hk, hbeq]
    exact (get_erase t k k').trans (if_neg hk)

@[simp] theorem get_set_self (t : Table κ ν) (k : κ) (v : ν) : (t.set k v).get k = some v := by
  rw [get_set, if_pos rfl]

theorem get_set_of_ne (t : Table κ ν) {k k' : κ} (v : ν) (h : k' ≠ k) :
    (t.set k v).get k' = t.get k' := by
  rw [get_set, if_neg h]

theorem get_set_eq_some_iff {t : Table κ ν} {k k' : κ} {v v' : ν} :
    (t.set k v).get k' = some v' ↔ k' = k ∧ v' = v ∨ k' ≠ k ∧ t.get k' = some v' := by
  rw [get_set]
  split
  · rename_i heq
    simp [heq, eq_comm]
  · rename_i hne
    simp [hne]

@[simp] theorem get_erase_self (t : Table κ ν) (k : κ) : (t.erase k).get k = none := by
  rw [get_erase, if_pos rfl]

theorem get_of_erase {t : Table κ ν} {k k' : κ} {v : ν} (h : (t.erase k).get k' = some v) :
    t.get k' = some v := by
  rw [get_erase] at h
  split at h
  · cases h
  · exact h

theorem get_erase_of_ne (t : Table κ ν) {k k' : κ} (h : k' ≠ k) : (t.erase k).get k' = t.get k' := by
  rw [get_erase, if_neg h]

/-- Bind keys in order. -/
def setAll (t : Table κ ν) (l : List (κ × ν)) : Table κ ν := l.foldl (fun t e => t.set e.1 e.2) t

theorem get_setAll_of_notMem {l : List (κ × ν)} (t : Table κ ν) {k : κ} (h : k ∉ l.map Prod.fst) :
    (t.setAll l).get k = t.get k := by
  induction l generalizing t with
  | nil => rfl
  | cons e l ih =>
    rw [List.map_cons, List.mem_cons, not_or] at h
    exact (ih (t.set e.1 e.2) h.2).trans (get_set_of_ne t e.2 h.1)

theorem get_setAll_of_mem {l : List (κ × ν)} (hl : (l.map Prod.fst).Nodup) (t : Table κ ν) {k : κ}
    {v : ν} (h : (k, v) ∈ l) : (t.setAll l).get k = some v := by
  induction l generalizing t with
  | nil => simp at h
  | cons e l ih =>
    rw [List.map_cons, List.nodup_cons] at hl
    rcases List.mem_cons.mp h with rfl | h
    · exact (get_setAll_of_notMem (t.set k v) hl.1).trans (get_set_self t k v)
    · exact ih hl.2 (t.set e.1 e.2) h

/-- A table is bound again from its entries, in whatever order. -/
theorem get_setAll_of_perm {t : Table κ ν} {l : List (κ × ν)} (h : l.Perm t.entries) (k : κ) :
    ((empty : Table κ ν).setAll l).get k = t.get k := by
  have hnodup : (l.map Prod.fst).Nodup := (h.map Prod.fst).nodup_iff.mpr t.nodup
  cases hk : t.get k with
  | some v => exact get_setAll_of_mem hnodup empty (h.mem_iff.mpr (get_eq_some_iff.mp hk))
  | none =>
    refine get_setAll_of_notMem empty fun hmem => ?_
    obtain ⟨e, he, rfl⟩ := List.mem_map.mp hmem
    have hsome : t.get e.1 = some e.2 := get_eq_some_iff.mpr (h.mem_iff.mp he)
    rw [hk] at hsome
    cases hsome

/-! ## Size -/

/-- Distinct keys that are all bound are at most as many as the table has. -/
theorem length_le_size {t : Table κ ν} {ks : List κ} (hks : ks.Nodup)
    (h : ∀ k ∈ ks, t.get k ≠ none) : ks.length ≤ t.size := by
  have hsub : ks ⊆ t.entries.map Prod.fst := by
    intro k hk
    obtain ⟨v, hv⟩ := Option.ne_none_iff_exists'.mp (h k hk)
    exact List.mem_map.mpr ⟨(k, v), get_eq_some_iff.mp hv, rfl⟩
  have hle := (hks.subperm hsub).length_le
  rwa [List.length_map] at hle

theorem mem_keys_iff {t : Table κ ν} {k : κ} : k ∈ t.entries.map Prod.fst ↔ t.get k ≠ none := by
  constructor
  · intro hk
    obtain ⟨e, he, rfl⟩ := List.mem_map.mp hk
    rw [get_eq_some_iff.mpr (show (e.1, e.2) ∈ t.entries from he)]
    simp
  · intro hk
    obtain ⟨v, hv⟩ := Option.ne_none_iff_exists'.mp hk
    exact List.mem_map.mpr ⟨(k, v), get_eq_some_iff.mp hv, rfl⟩

/-- A table that binds no more keys is no larger. -/
theorem size_le_size {ν' : Type} {t : Table κ ν} {t' : Table κ ν'}
    (h : ∀ k, t.get k ≠ none → t'.get k ≠ none) : t.size ≤ t'.size := by
  have hle := Table.length_le_size (t := t') t.nodup (fun k hk => h k (mem_keys_iff.mp hk))
  rwa [List.length_map] at hle

/-- And smaller if it misses one. -/
theorem size_lt_size {ν' : Type} {t : Table κ ν} {t' : Table κ ν'}
    (h : ∀ k, t.get k ≠ none → t'.get k ≠ none) {k : κ} (hk : t.get k = none)
    (hk' : t'.get k ≠ none) : t.size < t'.size := by
  have hnodup : (k :: t.entries.map Prod.fst).Nodup :=
    List.nodup_cons.mpr ⟨fun hm => mem_keys_iff.mp hm hk, t.nodup⟩
  have hle := length_le_size (t := t') hnodup (fun k'' hk'' => by
    rcases List.mem_cons.mp hk'' with rfl | hm
    · exact hk'
    · exact h k'' (mem_keys_iff.mp hm))
  rw [List.length_cons, List.length_map] at hle
  exact hle

/-! ## Everything a table holds

The things that the entries hold, counted; the order of the entries does not matter. -/

/-- All that the entries hold. -/
def items {β : Type} (t : Table κ ν) (f : κ → ν → Multiset β) : Multiset β :=
  (t.entries.map (fun e => f e.1 e.2)).sum

section Items

variable {β : Type} {f : κ → ν → Multiset β}

/-- Tables with the same bindings hold the same. -/
theorem items_congr {t t' : Table κ ν} (h : ∀ k, t'.get k = t.get k) : t'.items f = t.items f := by
  have hmem : ∀ e : κ × ν, e ∈ t'.entries ↔ e ∈ t.entries := by
    intro e
    rw [← get_eq_some_iff (t := t') (k := e.1) (v := e.2), h, get_eq_some_iff]
  have hperm : t'.entries.Perm t.entries :=
    (List.perm_ext_iff_of_nodup t'.nodup.of_map t.nodup.of_map).mpr hmem
  exact (hperm.map _).sum_eq

omit [DecidableEq κ] in
theorem items_empty : (empty : Table κ ν).items f = 0 := rfl

theorem items_set (t : Table κ ν) (k : κ) (v : ν) :
    (t.set k v).items f = f k v + (t.erase k).items f :=
  List.sum_cons

/-- What a binding holds, apart from the rest. -/
theorem items_eq {t : Table κ ν} {k : κ} {v : ν} (h : t.get k = some v) :
    t.items f = f k v + (t.erase k).items f := by
  rw [← items_set]
  refine (items_congr (fun k' => ?_)).symm
  rw [get_set]
  split
  · rename_i hk
    rw [hk, h]
  · rfl

theorem items_erase {t : Table κ ν} {k : κ} (h : t.get k = none) :
    (t.erase k).items f = t.items f := by
  refine items_congr (fun k' => ?_)
  rw [get_erase]
  split
  · rename_i hk
    rw [hk, h]
  · rfl

end Items

/-! ## Walks to a root

A table whose values point to other keys is a forest; a walk follows the pointers. -/

/-- The entries from `k` to the root, `k` first. -/
inductive Path (t : Table κ ν) (up : ν → κ) (root : κ) : κ → List (κ × ν) → Prop where
  | root : Path t up root root []
  | step {k : κ} {v : ν} {es : List (κ × ν)} (hk : k ≠ root) (hv : t.get k = some v)
      (hp : Path t up root (up v) es) : Path t up root k ((k, v) :: es)

namespace Path

variable {t : Table κ ν} {up : ν → κ} {root k : κ} {es : List (κ × ν)}

theorem bound (h : Path t up root k es) : ∀ e ∈ es, t.get e.1 = some e.2 := by
  induction h with
  | root => simp
  | step hk hv hp ih => exact List.forall_mem_cons.mpr ⟨hv, ih⟩

/-- The path of another table whose values point the same way. -/
theorem map (h : Path t up root k es) {ν' : Type} {t' : Table κ ν'} {up' : ν' → κ} {f : ν → ν'}
    (hup : ∀ v, up' (f v) = up v) (ht : ∀ e ∈ es, t'.get e.1 = some (f e.2)) :
    Path t' up' root k (es.map (fun e => (e.1, f e.2))) := by
  induction h with
  | root => exact .root
  | step hk hv hp ih =>
    rw [List.forall_mem_cons] at ht
    refine .step hk ht.1 ?_
    rw [hup]
    exact ih ht.2

/-- Where values are numbered and pointers lead to smaller numbers, numbers fall along
a path. -/
theorem num_lt (h : Path t up root k es) (num : ν → Nat)
    (hdec : ∀ k v v', t.get k = some v → t.get (up v) = some v' → num v' < num v) {v : ν}
    (hv : t.get k = some v) : ∀ e ∈ es, num e.2 ≤ num v := by
  induction h generalizing v with
  | root => simp
  | @step k v0 es hk hv0 hp ih =>
    obtain rfl : v0 = v := Option.some.inj (hv0.symm.trans hv)
    refine List.forall_mem_cons.mpr ⟨Nat.le_refl _, fun e he => ?_⟩
    cases hp with
    | root => cases he
    | step hk' hv' hp' =>
      have hlt := hdec k v0 _ hv0 hv'
      exact Nat.le_trans (ih hv' e he) (Nat.le_of_lt hlt)

/-- Such a path visits no key twice, so it is no longer than the table. -/
theorem length_le_size (h : Path t up root k es) (num : ν → Nat)
    (hdec : ∀ k v v', t.get k = some v → t.get (up v) = some v' → num v' < num v) :
    es.length ≤ t.size := by
  have hnodup : (es.map Prod.fst).Nodup := by
    induction h with
    | root => exact List.nodup_nil
    | @step k v es hk hv hp ih =>
      refine List.nodup_cons.mpr ⟨fun hm => ?_, ih⟩
      obtain ⟨e, he, hek⟩ := List.mem_map.mp hm
      have hbound := hp.bound e he
      rw [hek, hv] at hbound
      obtain rfl := Option.some.inj hbound
      cases hp with
      | root => cases he
      | step hk' hv' hp' =>
        have hle := (Path.step hk' hv' hp').num_lt num hdec hv' e he
        have hlt := hdec k _ _ hv hv'
        omega
  have hle := Table.length_le_size (t := t) hnodup (fun k' hk' => by
    obtain ⟨e, he, rfl⟩ := List.mem_map.mp hk'
    rw [h.bound e he]
    simp)
  rwa [List.length_map] at hle

end Path

end Table

end Flatstate.Foundation
