import Mathlib.Data.List.Basic
import Mathlib.Data.List.Induction

set_option autoImplicit false

/-!
# Foundation: post-image diffs and lagging pins

A *diff* gives new values to some keys and says nothing about the others.
Because it records post-images, applying it fixes the value of every key it
touches no matter what was there before.  Two families of facts follow.

* A chain of diffs over a base valuation: looking a key up from the newest diff
  down to the base gives the value of the fold (`applyAll_eq_stack`), and a key no
  diff of a stretch touches keeps its value across that stretch
  (`height_eq_of_untouched`).

* A *pin* is a cached value.  A set of pins lags at height `F` when every pinned
  value is the key's value at some height from `F` up to the end of the chain
  (`Lags`).  Lagging is kept when the chain grows, when a fresh value is pinned,
  when two pin sets are merged, and — the reason for the whole notion — when the
  next diff is applied to the pinned keys only, even though some of the pinned
  values were already newer than that diff (`Lags.advance`).  Pins taken at the
  height the diffs are applied at stay exact (`Exact.applyPinned`).

Keys may have values of different types, so everything is stated for a family
`V` over the keys.
-/

namespace Flatstate.Foundation

variable {K : Type} {V : K → Type}

/-- A total valuation of the keys. -/
abbrev Valuation (V : K → Type) := (k : K) → V k

/-- New values for some of the keys. -/
abbrev Diff (V : K → Type) := (k : K) → Option (V k)

namespace Diff

/-- The valuation after a diff. -/
def apply (d : Diff V) (σ : Valuation V) : Valuation V := fun k => (d k).getD (σ k)

/-- The diff that touches nothing. -/
def empty : Diff V := fun _ => none

/-- One diff on top of another. -/
def upon (newer older : Diff V) : Diff V := fun k => (newer k).or (older k)

/-- The valuation after a list of diffs, oldest first. -/
def applyAll (ds : List (Diff V)) (σ : Valuation V) : Valuation V :=
  ds.foldl (fun σ d => d.apply σ) σ

/-- A list of diffs, oldest first, folded into one diff. -/
def stack (ds : List (Diff V)) : Diff V :=
  ds.foldl (fun acc d => d.upon acc) empty

@[simp] theorem apply_empty (σ : Valuation V) : (empty : Diff V).apply σ = σ := rfl

theorem apply_of_some {d : Diff V} {k : K} {v : V k} (h : d k = some v) (σ : Valuation V) :
    d.apply σ k = v := by
  simp [apply, h]

theorem apply_of_none {d : Diff V} {k : K} (h : d k = none) (σ : Valuation V) :
    d.apply σ k = σ k := by
  simp [apply, h]

theorem apply_upon (newer older : Diff V) (σ : Valuation V) :
    (newer.upon older).apply σ = newer.apply (older.apply σ) := by
  funext k
  simp only [apply, upon]
  cases newer k <;> simp

@[simp] theorem applyAll_nil (σ : Valuation V) : applyAll [] σ = σ := rfl

@[simp] theorem applyAll_cons (d : Diff V) (ds : List (Diff V)) (σ : Valuation V) :
    applyAll (d :: ds) σ = applyAll ds (d.apply σ) := rfl

theorem applyAll_append (ds es : List (Diff V)) (σ : Valuation V) :
    applyAll (ds ++ es) σ = applyAll es (applyAll ds σ) := by
  simp [applyAll]

@[simp] theorem stack_nil : stack ([] : List (Diff V)) = empty := rfl

theorem stack_concat (ds : List (Diff V)) (d : Diff V) :
    stack (ds ++ [d]) = d.upon (stack ds) := by
  simp [stack]

/-- Reading through a stack is reading the fold. -/
theorem applyAll_eq_stack (ds : List (Diff V)) (σ : Valuation V) :
    applyAll ds σ = (stack ds).apply σ := by
  induction ds using List.reverseRecOn with
  | nil => rfl
  | append_singleton ds d ih =>
    rw [applyAll_append, stack_concat, apply_upon, ← ih]
    rfl

theorem stack_eq_none_iff (ds : List (Diff V)) (k : K) :
    stack ds k = none ↔ ∀ d ∈ ds, d k = none := by
  induction ds using List.reverseRecOn with
  | nil => simp [empty]
  | append_singleton ds d ih =>
    rw [stack_concat]
    simp only [upon, Option.or_eq_none_iff, ih, List.mem_append, List.mem_singleton]
    constructor
    · rintro ⟨h1, h2⟩ e (he | rfl)
      · exact h2 e he
      · exact h1
    · intro h
      exact ⟨h d (Or.inr rfl), fun e he => h e (Or.inl he)⟩

theorem applyAll_of_untouched {ds : List (Diff V)} {k : K} (h : ∀ d ∈ ds, d k = none)
    (σ : Valuation V) : applyAll ds σ k = σ k := by
  rw [applyAll_eq_stack, apply_of_none ((stack_eq_none_iff ds k).mpr h)]

/-! ## Heights -/

/-- The valuation at height `n` of a chain of diffs. -/
def height (ds : List (Diff V)) (σ : Valuation V) (n : Nat) : Valuation V :=
  applyAll (ds.take n) σ

@[simp] theorem height_zero (ds : List (Diff V)) (σ : Valuation V) : height ds σ 0 = σ := rfl

theorem height_length (ds : List (Diff V)) (σ : Valuation V) :
    height ds σ ds.length = applyAll ds σ := by
  simp [height]

theorem height_succ {ds : List (Diff V)} {n : Nat} {d : Diff V} (h : ds[n]? = some d)
    (σ : Valuation V) : height ds σ (n + 1) = d.apply (height ds σ n) := by
  rw [height, List.take_add_one, h, applyAll_append]
  rfl

theorem height_append_of_le {ds : List (Diff V)} (es : List (Diff V)) {n : Nat}
    (h : n ≤ ds.length) (σ : Valuation V) : height (ds ++ es) σ n = height ds σ n := by
  rw [height, List.take_append_of_le_length h, height]

/-- A key that no diff of a stretch touches keeps its value across the stretch. -/
theorem height_eq_of_untouched {ds : List (Diff V)} {σ : Valuation V} {k : K} {i j : Nat}
    (hij : i ≤ j) (h : ∀ n d, i ≤ n → n < j → ds[n]? = some d → d k = none) :
    height ds σ j k = height ds σ i k := by
  induction j with
  | zero =>
    have : i = 0 := by omega
    rw [this]
  | succ j ih =>
    rcases Nat.eq_or_lt_of_le hij with heq | hlt
    · rw [heq]
    · have ih := ih (by omega) (fun n d h1 h2 => h n d h1 (by omega))
      cases hd : ds[j]? with
      | none =>
        have hlen : ds.length ≤ j := List.getElem?_eq_none_iff.mp hd
        rw [← ih, height, height, List.take_of_length_le (by omega),
          List.take_of_length_le hlen]
      | some d =>
        rw [height_succ hd, apply_of_none (h j d (by omega) (by omega) hd), ih]

/-! ## Lagging pins -/

/-- Every pinned value is the value of its key at some height from `F` on. -/
def Lags (ds : List (Diff V)) (σ : Valuation V) (F : Nat) (p : Diff V) : Prop :=
  ∀ k v, p k = some v → ∃ j, F ≤ j ∧ j ≤ ds.length ∧ v = height ds σ j k

/-- Apply a diff to the pinned keys only. -/
def applyPinned (d : Diff V) (p : Diff V) : Diff V := fun k => (p k).map (fun v => (d k).getD v)

namespace Lags

variable {ds : List (Diff V)} {σ : Valuation V} {F : Nat} {p : Diff V}

/-- Lagging survives growth of the chain. -/
theorem append (h : Lags ds σ F p) (es : List (Diff V)) : Lags (ds ++ es) σ F p := by
  intro k v hv
  obtain ⟨j, hF, hj, rfl⟩ := h k v hv
  refine ⟨j, hF, ?_, ?_⟩
  · rw [List.length_append]
    omega
  · rw [height_append_of_le es hj]

/-- The next diff, applied to the pinned keys only, keeps the pins lagging one
height further up.  A pin that was already newer than the diff is set back by it
or left alone; either way it is the value at some height that is not below. -/
theorem advance (h : Lags ds σ F p) {d : Diff V} (hd : ds[F]? = some d) :
    Lags ds σ (F + 1) (applyPinned d p) := by
  have hlt : F < ds.length := (List.getElem?_eq_some_iff.mp hd).1
  intro k v hv
  obtain ⟨w, hw, rfl⟩ := Option.map_eq_some_iff.mp hv
  obtain ⟨j, hF, hj, rfl⟩ := h k w hw
  cases hdk : d k with
  | some x =>
    refine ⟨F + 1, Nat.le_refl _, hlt, ?_⟩
    rw [height_succ hd, apply_of_some hdk]
    rfl
  | none =>
    rcases Nat.eq_or_lt_of_le hF with rfl | hFj
    · refine ⟨F + 1, Nat.le_refl _, hlt, ?_⟩
      rw [height_succ hd, apply_of_none hdk]
      rfl
    · exact ⟨j, hFj, hj, rfl⟩

/-- Fewer pins lag as well. -/
theorem mono (h : Lags ds σ F p) {q : Diff V} (hqp : ∀ k v, q k = some v → p k = some v) :
    Lags ds σ F q :=
  fun k v hv => h k v (hqp k v hv)

end Lags

/-! ## Exact pins -/

/-- Every pinned value is the value of its key. -/
def Exact (p : Diff V) (σ : Valuation V) : Prop := ∀ k v, p k = some v → v = σ k

theorem Exact.empty (σ : Valuation V) : Exact Diff.empty σ := by
  intro k v h
  cases h

/-- Applying a diff to the pinned keys follows the valuation. -/
theorem Exact.applyPinned {p : Diff V} {σ : Valuation V} (h : Exact p σ) (d : Diff V) :
    Exact (Diff.applyPinned d p) (d.apply σ) := by
  intro k v hv
  obtain ⟨w, hw, rfl⟩ := Option.map_eq_some_iff.mp hv
  rw [h k w hw, Diff.apply]

end Diff

end Flatstate.Foundation
