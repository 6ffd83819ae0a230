import Mathlib.Data.List.Basic

set_option autoImplicit false

/-!
# Foundation: writes behind a buffer

A writer hands its writes on in order and some prefix of them is committed; a crash loses the
rest.  A property of the committed state that must survive every crash has to hold after
every prefix of what is still pending: `Along`.  Committing a prefix keeps it without further
proof, so that only those who add writes have something to show.
-/

namespace Flatstate.Foundation

section Along

variable {σ ω : Type} (run : σ → ω → σ)

/-- `P` holds now and after each of the pending writes. -/
def Along (P : σ → Prop) : σ → List ω → Prop
  | s, [] => P s
  | s, w :: ws => P s ∧ Along P (run s w) ws

variable {run} {P Q : σ → Prop} {s : σ} {ws vs : List ω}

theorem Along.now (h : Along run P s ws) : P s := by
  cases ws with
  | nil => exact h
  | cons w ws => exact h.1

theorem along_append :
    Along run P s (ws ++ vs) ↔ Along run P s ws ∧ Along run P (ws.foldl run s) vs := by
  induction ws generalizing s with
  | nil => exact ⟨fun h => ⟨h.now, h⟩, fun h => h.2⟩
  | cons w ws ih =>
    constructor
    · rintro ⟨h, hrest⟩
      exact ⟨⟨h, (ih.mp hrest).1⟩, (ih.mp hrest).2⟩
    · rintro ⟨⟨h, hrest⟩, hlast⟩
      exact ⟨h, ih.mpr ⟨hrest, hlast⟩⟩

/-- What holds along all writes holds when they are done. -/
theorem Along.done (h : Along run P s ws) : P (ws.foldl run s) := by
  induction ws generalizing s with
  | nil => exact h
  | cons w ws ih => exact ih h.2

/-- A step-wise argument: each of the added writes keeps `P`. -/
theorem Along.of_keeps {G : ω → Prop} (hP : P s) (hws : ∀ w ∈ ws, G w)
    (hkeep : ∀ s w, G w → P s → P (run s w)) : Along run P s ws := by
  induction ws generalizing s with
  | nil => exact hP
  | cons w ws ih =>
    exact ⟨hP, ih (hkeep s w (hws w (by simp)) hP) (fun v hv => hws v (by simp [hv]))⟩

theorem Along.imp (h : Along run P s ws) (hPQ : ∀ s, P s → Q s) : Along run Q s ws := by
  induction ws generalizing s with
  | nil => exact hPQ s h
  | cons w ws ih => exact ⟨hPQ s h.1, ih h.2⟩

/-- Two states that no write and no reader tells apart. -/
theorem Along.congr {R : σ → σ → Prop} {s' : σ} (h : Along run P s ws) (hR : R s s')
    (hrun : ∀ s s' w, R s s' → R (run s w) (run s' w)) (hP : ∀ s s', R s s' → P s → P s') :
    Along run P s' ws := by
  induction ws generalizing s s' with
  | nil => exact hP s s' hR h
  | cons w ws ih => exact ⟨hP s s' hR h.1, ih h.2 (hrun s s' w hR)⟩

theorem foldl_congr_rel {R : σ → σ → Prop} {s' : σ} (hR : R s s')
    (hrun : ∀ s s' w, R s s' → R (run s w) (run s' w)) :
    R (ws.foldl run s) (ws.foldl run s') := by
  induction ws generalizing s s' with
  | nil => exact hR
  | cons w ws ih => exact ih (hrun s s' w hR)

/-- What every write keeps, all of them keep. -/
theorem foldl_keeps {G : ω → Prop} (hP : P s) (hws : ∀ w ∈ ws, G w)
    (hkeep : ∀ s w, G w → P s → P (run s w)) : P (ws.foldl run s) :=
  (Along.of_keeps hP hws hkeep).done

end Along

end Flatstate.Foundation
