import Mathlib.Order.Lattice

set_option autoImplicit false

/-!
# Versioned values

A versioned value is a partial function from version numbers to values: the
versions at which it was written.  `latest f n` is the newest write at or before
version `n`, with its version.
-/

namespace Flatstate.Foundation

variable {α : Type}

/-- The newest write at or before version `n`. -/
def latest (f : Nat → Option α) : Nat → Option (Nat × α)
  | 0 => (f 0).map (fun v => (0, v))
  | n + 1 =>
    match f (n + 1) with
    | some v => some (n + 1, v)
    | none => latest f n

theorem latest_succ_of_some {f : Nat → Option α} {n : Nat} {v : α} (h : f (n + 1) = some v) :
    latest f (n + 1) = some (n + 1, v) := by
  rw [latest, h]

theorem latest_succ_of_none {f : Nat → Option α} {n : Nat} (h : f (n + 1) = none) :
    latest f (n + 1) = latest f n := by
  rw [latest, h]

theorem latest_eq_none_iff {f : Nat → Option α} {n : Nat} :
    latest f n = none ↔ ∀ i, i ≤ n → f i = none := by
  induction n with
  | zero =>
    simp only [latest, Option.map_eq_none_iff]
    constructor
    · intro h i hi
      rwa [Nat.le_zero.mp hi]
    · intro h
      exact h 0 (Nat.le_refl 0)
  | succ n ih =>
    cases hf : f (n + 1) with
    | some v =>
      rw [latest_succ_of_some hf]
      simp only [reduceCtorEq, false_iff]
      intro h
      simp [h (n + 1) (Nat.le_refl _)] at hf
    | none =>
      rw [latest_succ_of_none hf, ih]
      constructor
      · intro h i hi
        rcases Nat.le_succ_iff.mp hi with hi | rfl
        · exact h i hi
        · exact hf
      · intro h i hi
        exact h i (Nat.le_succ_of_le hi)

theorem latest_eq_some_iff {f : Nat → Option α} {n i : Nat} {v : α} :
    latest f n = some (i, v) ↔ i ≤ n ∧ f i = some v ∧ ∀ j, i < j → j ≤ n → f j = none := by
  induction n with
  | zero =>
    simp only [latest, Option.map_eq_some_iff, Prod.mk.injEq, Nat.le_zero]
    constructor
    · rintro ⟨w, hw, rfl, rfl⟩
      exact ⟨rfl, hw, fun j h1 h2 => absurd h2 (Nat.ne_of_gt h1)⟩
    · rintro ⟨rfl, hv, -⟩
      exact ⟨v, hv, rfl, rfl⟩
  | succ n ih =>
    cases hf : f (n + 1) with
    | some w =>
      rw [latest_succ_of_some hf]
      constructor
      · intro h
        obtain ⟨rfl, rfl⟩ := Prod.mk.inj (Option.some.inj h)
        exact ⟨Nat.le_refl _, hf, fun j h1 h2 => absurd h1 (Nat.not_lt.mpr h2)⟩
      · rintro ⟨hi, hv, hlast⟩
        -- a write below `n + 1` would leave no room for the one at `n + 1`
        rcases Nat.lt_or_eq_of_le hi with hlt | rfl
        · rw [hlast (n + 1) hlt (Nat.le_refl _)] at hf
          cases hf
        · rw [hv] at hf
          rw [Option.some.inj hf]
    | none =>
      rw [latest_succ_of_none hf, ih]
      constructor
      · rintro ⟨hi, hv, hlast⟩
        refine ⟨Nat.le_succ_of_le hi, hv, fun j h1 h2 => ?_⟩
        rcases Nat.le_succ_iff.mp h2 with h2 | rfl
        · exact hlast j h1 h2
        · exact hf
      · rintro ⟨hi, hv, hlast⟩
        rcases Nat.le_succ_iff.mp hi with hi | rfl
        · exact ⟨hi, hv, fun j h1 h2 => hlast j h1 (Nat.le_succ_of_le h2)⟩
        · rw [hv] at hf
          cases hf

/-- Versions above the newest write do not matter. -/
theorem latest_eq_of_none_above {f : Nat → Option α} {m n : Nat} (hmn : m ≤ n)
    (h : ∀ i, m < i → i ≤ n → f i = none) : latest f n = latest f m := by
  induction n with
  | zero => rw [Nat.le_zero.mp hmn]
  | succ n ih =>
    rcases Nat.le_succ_iff.mp hmn with hle | rfl
    · rw [latest_succ_of_none (h (n + 1) (Nat.lt_succ_of_le hle) (Nat.le_refl _))]
      exact ih hle (fun i h1 h2 => h i h1 (Nat.le_succ_of_le h2))
    · rfl

end Flatstate.Foundation
