import Flatstate.Foundation.Table
import Mathlib.Algebra.BigOperators.Group.List.Basic
import Mathlib.Algebra.GroupWithZero.Nat

set_option autoImplicit false

/-!
# Foundation: processes and what they hold

Processes of one kind are a list in which a step replaces one of them.  What they hold of a
shared resource is counted by someone: by a semaphore, which knows how many hold it, or by a
table of counters, one for each key that is held.  The count stays right if every step
changes it with the process that moves (`countP_set_add`, `Tallies`), and a step that lowers
the rank of one process lowers the sum of the ranks (`sum_set_add`).
-/

namespace Flatstate.Foundation

/-! ## Replacing one process -/

section Processes

variable {α : Type} {l : List α} {i : Nat} {a : α}

theorem sum_set_add {M : Type} [AddCommMonoid M] (f : α → M) (h : l[i]? = some a) (b : α) :
    ((l.set i b).map f).sum + f a = (l.map f).sum + f b := by
  induction l generalizing i with
  | nil => simp at h
  | cons x l ih =>
    cases i with
    | zero =>
      obtain rfl : x = a := by simpa using h
      simp only [List.set_cons_zero, List.map_cons, List.sum_cons]
      ac_rfl
    | succ i =>
      have hrest := ih (i := i) (by simpa using h)
      simp only [List.set_cons_succ, List.map_cons, List.sum_cons]
      rw [add_assoc, hrest, add_assoc]

theorem sum_eraseIdx_add {M : Type} [AddCommMonoid M] (f : α → M) (h : l[i]? = some a) :
    ((l.eraseIdx i).map f).sum + f a = (l.map f).sum := by
  induction l generalizing i with
  | nil => simp at h
  | cons x l ih =>
    cases i with
    | zero =>
      obtain rfl : x = a := by simpa using h
      simp only [List.eraseIdx_cons_zero, List.map_cons, List.sum_cons]
      exact add_comm _ _
    | succ i =>
      have hrest := ih (i := i) (by simpa using h)
      simp only [List.eraseIdx_cons_succ, List.map_cons, List.sum_cons]
      rw [add_assoc, hrest]

/-- What one process holds is part of what all hold. -/
theorem le_sum (f : α → Nat) (h : l[i]? = some a) : f a ≤ (l.map f).sum := by
  have hadd := sum_eraseIdx_add f h
  omega

/-- What two of them hold is. -/
theorem add_le_sum (f : α → Nat) {j : Nat} {b : α} (h : l[i]? = some a) (h' : l[j]? = some b)
    (hij : i ≠ j) : f a + f b ≤ (l.map f).sum := by
  induction l generalizing i j with
  | nil => simp at h
  | cons x l ih =>
    rw [List.map_cons, List.sum_cons]
    cases i with
    | zero =>
      obtain rfl : x = a := by simpa using h
      cases j with
      | zero => exact absurd rfl hij
      | succ j => exact Nat.add_le_add_left (le_sum f (i := j) (by simpa using h')) _
    | succ i =>
      cases j with
      | zero =>
        obtain rfl : x = b := by simpa using h'
        have hrest := le_sum f (i := i) (a := a) (by simpa using h)
        omega
      | succ j =>
        have hrest := ih (i := i) (j := j) (by simpa using h) (by simpa using h') (by omega)
        omega

theorem countP_eq_sum (p : α → Bool) (l : List α) :
    l.countP p = (l.map (fun x => if p x then 1 else 0)).sum := by
  induction l with
  | nil => rfl
  | cons x l ih => rw [List.countP_cons, List.map_cons, List.sum_cons, ih, Nat.add_comm]

theorem countP_set_add (p : α → Bool) (h : l[i]? = some a) (b : α) :
    (l.set i b).countP p + (if p a then 1 else 0) = l.countP p + (if p b then 1 else 0) := by
  rw [countP_eq_sum, countP_eq_sum]
  exact sum_set_add (fun x => if p x then 1 else 0) h b

/-- A process that holds as much as the one it replaces. -/
theorem countP_set_of_eq {p : α → Bool} {b : α} (h : l[i]? = some a) (hp : p b = p a) :
    (l.set i b).countP p = l.countP p := by
  have hadd := countP_set_add p h b
  rw [hp] at hadd
  omega

theorem forall_mem_set {P : α → Prop} {b : α} (hl : ∀ x ∈ l, P x) (hb : P b) :
    ∀ x ∈ l.set i b, P x := by
  intro x hx
  rcases List.mem_or_eq_of_mem_set hx with hx | rfl
  · exact hl x hx
  · exact hb

/-- Who a process of the list after a step is. -/
theorem getElem?_set_cases {b x : α} {j : Nat} (h : (l.set i b)[j]? = some x) :
    j = i ∧ x = b ∨ j ≠ i ∧ l[j]? = some x := by
  rw [List.getElem?_set] at h
  split at h
  · rename_i hij
    split at h
    · exact Or.inl ⟨hij.symm, (Option.some.inj h).symm⟩
    · cases h
  · rename_i hij
    exact Or.inr ⟨fun hji => hij hji.symm, h⟩

theorem getElem?_concat_cases {b x : α} {j : Nat} (h : (l ++ [b])[j]? = some x) :
    j = l.length ∧ x = b ∨ l[j]? = some x := by
  rcases Nat.lt_or_ge j l.length with hj | hj
  · rw [List.getElem?_append_left hj] at h
    exact Or.inr h
  · rw [List.getElem?_append_right hj, List.getElem?_singleton] at h
    split at h
    · exact Or.inl ⟨by omega, (Option.some.inj h).symm⟩
    · cases h

theorem getElem?_concat_of_some {b x : α} {j : Nat} (h : l[j]? = some x) :
    (l ++ [b])[j]? = some x := by
  rw [List.getElem?_append_left (List.getElem?_eq_some_iff.mp h).1]
  exact h

end Processes

/-! ## Tables of counters -/

namespace Table

variable {κ : Type} [DecidableEq κ]

/-- The counter of a key; a key without one counts nothing. -/
def count (t : Table κ Nat) (k : κ) : Nat := (t.get k).getD 0

def incr (t : Table κ Nat) (k : κ) : Table κ Nat := t.set k (t.count k + 1)

/-- A counter that would fall to zero goes. -/
def decr (t : Table κ Nat) (k : κ) : Table κ Nat :=
  if t.count k ≤ 1 then t.erase k else t.set k (t.count k - 1)

theorem count_incr (t : Table κ Nat) (k k' : κ) :
    (t.incr k).count k' = t.count k' + if k' = k then 1 else 0 := by
  rw [count, incr, get_set]
  by_cases hk : k' = k
  · rw [if_pos hk, if_pos hk, hk]
    rfl
  · rw [if_neg hk, if_neg hk]
    rfl

theorem count_decr (t : Table κ Nat) (k k' : κ) :
    (t.decr k).count k' = t.count k' - if k' = k then 1 else 0 := by
  unfold decr
  by_cases hk : k' = k
  · subst hk
    rw [if_pos rfl]
    split
    · rename_i hle
      rw [count, get_erase_self, Option.getD_none]
      omega
    · rw [count, get_set_self, Option.getD_some]
  · rw [if_neg hk, Nat.sub_zero]
    split
    · rw [count, get_erase_of_ne t hk, count]
    · rw [count, get_set_of_ne t _ hk, count]

end Table

/-- The counters count the processes that hold each key, and none stands at zero. -/
structure Tallies {α κ : Type} [DecidableEq κ] (holds : α → Option κ) (l : List α)
    (t : Table κ Nat) : Prop where
  count : ∀ k, t.count k = l.countP (fun a => holds a = some k)
  pos : ∀ k, t.get k ≠ some 0

namespace Tallies

variable {α κ : Type} [DecidableEq κ] {holds : α → Option κ} {l : List α} {t : Table κ Nat}

theorem start : Tallies holds [] Table.empty := ⟨fun _ => rfl, fun _ => by simp⟩

/-- A process joins that holds nothing. -/
theorem join (h : Tallies holds l t) {a : α} (ha : holds a = none) : Tallies holds (l ++ [a]) t := by
  refine ⟨fun k => ?_, h.pos⟩
  rw [List.countP_append, h.count]
  simp [ha]

/-- A process joins with a key. -/
theorem joinWith (h : Tallies holds l t) {a : α} {k : κ} (ha : holds a = some k) :
    Tallies holds (l ++ [a]) (t.incr k) := by
  refine ⟨fun k' => ?_, fun k' hz => ?_⟩
  · rw [Table.count_incr, List.countP_append, h.count]
    by_cases hk : k' = k
    · simp [ha, hk]
    · have hk' : ¬ k = k' := fun he => hk he.symm
      simp [ha, hk, hk']
  · rw [Table.incr, Table.get_set_eq_some_iff] at hz
    rcases hz with ⟨-, hz⟩ | ⟨-, hz⟩
    · omega
    · exact h.pos k' hz

/-- A process moves and keeps what it holds. -/
theorem keep (h : Tallies holds l t) {i : Nat} {a b : α} (hi : l[i]? = some a)
    (hab : holds b = holds a) : Tallies holds (l.set i b) t := by
  refine ⟨fun k => ?_, h.pos⟩
  rw [h.count]
  exact (countP_set_of_eq hi (by simp only [hab])).symm

/-- A process gives its key back. -/
theorem release (h : Tallies holds l t) {i : Nat} {a b : α} {k : κ} (hi : l[i]? = some a)
    (ha : holds a = some k) (hb : holds b = none) : Tallies holds (l.set i b) (t.decr k) := by
  refine ⟨fun k' => ?_, fun k' hz => ?_⟩
  · have hadd := countP_set_add (fun x => decide (holds x = some k')) hi b
    simp only [ha, hb, Option.some.injEq, decide_eq_true_eq] at hadd
    rw [Table.count_decr, h.count]
    by_cases hk : k' = k
    · simp [hk] at hadd ⊢
      omega
    · have hk' : ¬ k = k' := fun he => hk he.symm
      simp [hk, hk'] at hadd ⊢
      omega
  · unfold Table.decr at hz
    split at hz
    · exact h.pos k' (Table.get_of_erase hz)
    · rename_i hgt
      rcases Table.get_set_eq_some_iff.mp hz with ⟨-, hz⟩ | ⟨-, hz⟩
      · omega
      · exact h.pos k' hz

/-- Nothing is held, so there is no counter. -/
theorem get_eq_none (h : Tallies holds l t) {k : κ} (hl : ∀ a ∈ l, holds a ≠ some k) :
    t.get k = none := by
  have hzero : t.count k = 0 := by
    rw [h.count, List.countP_eq_zero]
    intro a ha
    simpa using hl a ha
  cases hk : t.get k with
  | none => rfl
  | some n =>
    rw [Table.count, hk] at hzero
    obtain rfl : n = 0 := hzero
    exact absurd hk (h.pos k)

end Tallies

end Flatstate.Foundation
