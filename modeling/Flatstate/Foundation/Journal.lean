import Mathlib.Logic.Function.Basic

set_option autoImplicit false

/-!
# Foundation: states with an undo journal

A state logs an entry with every change, and an entry says how to undo its change.  Undoing
need not give the old state back, only one that is the same for an observer.  A snapshot is a
length of the journal; reverting to it undoes the entries above it, newest first.

`Back s s₀` says that undoing what `s` has logged since `s₀` leads back to `s₀`.  A stack of
snapshots is a chain of such steps, which every further change extends at its top.
-/

namespace Flatstate.Foundation

/-- States of type `σ` with a journal of entries of type `ε`. -/
structure Journaled (σ ε : Type) where
  log : σ → List ε
  undo : ε → σ → σ
  /-- the states are the same for an observer -/
  Same : σ → σ → Prop
  refl : ∀ s, Same s s
  trans : ∀ {s t u}, Same s t → Same t u → Same s u
  undo_same : ∀ {s t} (e : ε), Same s t → Same (undo e s) (undo e t)

namespace Journaled

variable {σ ε : Type} (J : Journaled σ ε)

/-- Undo some entries, the last one first. -/
def unwind (es : List ε) (s : σ) : σ := es.foldr J.undo s

/-- What was logged since `s₀` undoes what was changed since. -/
def Back (s s₀ : σ) : Prop := ∃ es, J.log s = J.log s₀ ++ es ∧ J.Same (J.unwind es s) s₀

/-- Snapshots of a state, newest first, each of which leads back to the next. -/
def Stacked (s : σ) : List σ → Prop
  | [] => True
  | s₀ :: older => J.Back s s₀ ∧ Stacked s₀ older

variable {J} {s s₀ t u : σ}

theorem unwind_same (es : List ε) (h : J.Same s t) : J.Same (J.unwind es s) (J.unwind es t) := by
  induction es with
  | nil => exact h
  | cons e es ih => exact J.undo_same e ih

theorem Back.of_same (hlog : J.log s = J.log t) (h : J.Same s t) : J.Back s t :=
  ⟨[], by rw [List.append_nil, hlog], h⟩

theorem Back.refl (s : σ) : J.Back s s := Back.of_same rfl (J.refl s)

theorem Back.trans (h : J.Back s t) (h' : J.Back t u) : J.Back s u := by
  obtain ⟨es, hlog, hsame⟩ := h
  obtain ⟨es', hlog', hsame'⟩ := h'
  refine ⟨es' ++ es, by rw [hlog, hlog', List.append_assoc], ?_⟩
  have happ : J.unwind (es' ++ es) s = J.unwind es' (J.unwind es s) := List.foldr_append
  rw [happ]
  exact J.trans (unwind_same es' hsame) hsame'

/-- One entry. -/
theorem Back.single {e : ε} (hlog : J.log s = J.log t ++ [e]) (h : J.Same (J.undo e s) t) :
    J.Back s t :=
  ⟨[e], hlog, h⟩

/-- Undoing the entries above the length of a snapshot leads back to it. -/
theorem Back.unwind_drop (h : J.Back s s₀) :
    J.Same (J.unwind ((J.log s).drop (J.log s₀).length) s) s₀ ∧
      (J.log s).take (J.log s₀).length = J.log s₀ := by
  obtain ⟨es, hlog, hsame⟩ := h
  rw [hlog, List.drop_left' rfl, List.take_left' rfl]
  exact ⟨hsame, rfl⟩

/-- A change extends the stack at its top. -/
theorem Stacked.extend {snaps : List σ} (hb : J.Back t s) (h : J.Stacked s snaps) :
    J.Stacked t snaps := by
  cases snaps with
  | nil => trivial
  | cons s₀ older => exact ⟨hb.trans h.1, h.2⟩

theorem Stacked.split {newer older : List σ} (h : J.Stacked s (newer ++ s₀ :: older)) :
    J.Back s s₀ ∧ J.Stacked s₀ older := by
  induction newer generalizing s with
  | nil => exact h
  | cons t newer ih =>
    obtain ⟨hb, hrest⟩ := h
    exact ⟨hb.trans (ih hrest).1, (ih hrest).2⟩

end Journaled

end Flatstate.Foundation
