import Mathlib.Data.List.DropRight
import Mathlib.Data.List.Forall2
import Mathlib.Data.List.Pairwise
import Mathlib.Order.Lattice

set_option autoImplicit false

/-!
# Foundation: walking a sorted range page by page

A walk asks for the elements of a range at or after a cursor, works through the page it
gets, and moves the cursor.  `Todo` is its invariant between any two elements: everything of
the range is done, on the rest of the page, or at or after the next cursor.  The elements are
done in the order of their keys, so what is done is at all times closed downwards
(`Todo.below`), and a walk without a next cursor leaves nothing out (`Todo.all`).
-/

namespace Flatstate.Foundation

section Paging

variable {α κ : Type} [LinearOrder κ] (key : α → κ)

/-- The walk over `range` has done what `done` says, has `rest` of the page left and goes on
at `next`, if at all. -/
structure Todo (range : α → Prop) (done : α → Prop) (rest : List α) (next : Option κ) : Prop where
  sorted : rest.Pairwise (fun a b => key a < key b)
  mem : ∀ a ∈ rest, range a
  covered : ∀ a, range a → done a ∨ a ∈ rest ∨ ∃ k, next = some k ∧ k ≤ key a
  ahead : ∀ a ∈ rest, ∀ k, next = some k → key a < k

namespace Todo

variable {key} {range done done' : α → Prop} {rest page : List α} {next : Option κ} {start : κ}
  {a : α}

theorem mono (h : Todo key range done rest next) (hd : ∀ a, range a → done a → done' a) :
    Todo key range done' rest next where
  sorted := h.sorted
  mem := h.mem
  covered a ha := (h.covered a ha).imp_left (hd a ha)
  ahead := h.ahead

/-- A walk may start wherever everything below is done. -/
theorem resume (h : ∀ a, range a → key a < start → done a) :
    Todo key range done [] (some start) where
  sorted := List.Pairwise.nil
  mem a ha := by simp at ha
  covered a ha := (lt_or_ge (key a) start).imp (h a ha) (fun hge => Or.inr ⟨start, rfl, hge⟩)
  ahead a ha := by simp at ha

/-- When an element is at hand, everything below it is done. -/
theorem below (h : Todo key range done (a :: rest) next) {b : α} (hb : range b)
    (hlt : key b < key a) : done b := by
  rcases h.covered b hb with hd | hmem | ⟨k, hk, hle⟩
  · exact hd
  · rcases List.mem_cons.mp hmem with rfl | hmem
    · exact absurd hlt (lt_irrefl _)
    · exact absurd hlt (lt_asymm ((List.pairwise_cons.mp h.sorted).1 b hmem))
  · exact absurd (hlt.trans (h.ahead a (by simp) k hk)) (not_lt.mpr hle)

/-- The element at hand has been done. -/
theorem tail (h : Todo key range done (a :: rest) next) (ha : done a) :
    Todo key range done rest next where
  sorted := (List.pairwise_cons.mp h.sorted).2
  mem b hb := h.mem b (by simp [hb])
  covered b hb := by
    rcases h.covered b hb with hd | hmem | hk
    · exact Or.inl hd
    · rcases List.mem_cons.mp hmem with rfl | hmem
      · exact Or.inl ha
      · exact Or.inr (Or.inl hmem)
    · exact Or.inr (Or.inr hk)
  ahead b hb := h.ahead b (by simp [hb])

/-- A whole page has been done. -/
theorem emptied (h : Todo key range done rest next) (hd : ∀ a ∈ rest, done a) :
    Todo key range done [] next := by
  induction rest with
  | nil => exact h
  | cons a rest ih =>
    exact ih (h.tail (hd a (by simp))) (fun b hb => hd b (by simp [hb]))

/-- The walk is over. -/
theorem all (h : Todo key range done [] none) (ha : range a) : done a := by
  rcases h.covered a ha with hd | hmem | ⟨k, hk, -⟩
  · exact hd
  · simp at hmem
  · cases hk

/-- Below the cursor everything is done. -/
theorem before (h : Todo key range done [] (some start)) (ha : range a) (hlt : key a < start) :
    done a := by
  rcases h.covered a ha with hd | hmem | ⟨k, hk, hle⟩
  · exact hd
  · simp at hmem
  · exact absurd hlt (not_lt.mpr (Option.some.inj hk ▸ hle))

/-- A page that starts at the cursor and leaves nothing out before the next one. -/
theorem paged (h : Todo key range done [] (some start))
    (hsorted : page.Pairwise (fun a b => key a < key b)) (hmem : ∀ a ∈ page, range a)
    (hall : ∀ a, range a → start ≤ key a → a ∈ page ∨ ∃ k, next = some k ∧ k ≤ key a)
    (hahead : ∀ a ∈ page, ∀ k, next = some k → key a < k) :
    Todo key range done page next where
  sorted := hsorted
  mem := hmem
  covered a ha := by
    rcases h.covered a ha with hd | hnil | ⟨k, hk, hle⟩
    · exact Or.inl hd
    · simp at hnil
    · exact Or.inr (hall a ha (Option.some.inj hk ▸ hle))
  ahead := hahead

end Todo

variable {key}

/-- Cutting a sorted page off at `e` from the high end keeps what is at or below `e`. -/
theorem mem_rdropWhile {page : List α} {e : κ} {a : α} {past : α → Bool}
    (hsorted : page.Pairwise (fun a b => key a < key b)) (hpast : ∀ b, past b = true ↔ e < key b) :
    a ∈ page.rdropWhile past ↔ a ∈ page ∧ key a ≤ e := by
  induction page using List.reverseRecOn with
  | nil => simp
  | append_singleton page x ih =>
    rw [List.pairwise_append] at hsorted
    by_cases hx : e < key x
    · rw [List.rdropWhile_concat_pos _ _ _ ((hpast x).mpr hx), ih hsorted.1]
      constructor
      · rintro ⟨hmem, hle⟩
        exact ⟨by simp [hmem], hle⟩
      · rintro ⟨hmem, hle⟩
        rcases List.mem_append.mp hmem with hin | hin
        · exact ⟨hin, hle⟩
        · obtain rfl : a = x := by simpa using hin
          exact absurd hx (not_lt.mpr hle)
    · rw [List.rdropWhile_concat_neg _ _ _ (fun h => hx ((hpast x).mp h))]
      refine ⟨fun hmem => ⟨hmem, ?_⟩, fun h => h.1⟩
      rcases List.mem_append.mp hmem with hin | hin
      · exact (hsorted.2.2 a hin x (by simp)).le.trans (not_lt.mp hx)
      · obtain rfl : a = x := by simpa using hin
        exact not_lt.mp hx

/-- What lies behind an initial part of a sorted list is above all of it. -/
theorem lt_of_mem_of_not_mem {page l : List α} {a b : α}
    (hsorted : l.Pairwise (fun a b => key a < key b)) (hpre : page <+: l) (ha : a ∈ page)
    (hb : b ∈ l) (hnot : b ∉ page) : key a < key b := by
  obtain ⟨rest, rfl⟩ := hpre
  rcases List.mem_append.mp hb with hin | hin
  · exact absurd hin hnot
  · exact (List.pairwise_append.mp hsorted).2.2 a ha b hin

end Paging

/-! ## Decoding a page -/

/-- A page that decodes, decodes element by element. -/
theorem forall₂_of_mapM {ε α β : Type} {f : α → Except ε β} {page : List α} {out : List β}
    (h : page.mapM f = .ok out) : List.Forall₂ (fun a b => f a = .ok b) page out := by
  induction page generalizing out with
  | nil =>
    rw [List.mapM_nil] at h
    obtain rfl : [] = out := Except.ok.inj h
    exact List.Forall₂.nil
  | cons a page ih =>
    rw [List.mapM_cons] at h
    cases ha : f a with
    | error e =>
      rw [ha] at h
      cases h
    | ok b =>
      cases hp : page.mapM f with
      | error e =>
        rw [ha, hp] at h
        cases h
      | ok bs =>
        rw [ha, hp] at h
        obtain rfl : b :: bs = out := Except.ok.inj h
        exact List.Forall₂.cons ha (ih hp)

/-- A page all of whose elements decode, decodes. -/
theorem exists_mapM_ok {ε α β : Type} {f : α → Except ε β} {page : List α}
    (h : ∀ a ∈ page, ∃ b, f a = .ok b) : ∃ out, page.mapM f = .ok out := by
  induction page with
  | nil => exact ⟨[], rfl⟩
  | cons a page ih =>
    rw [List.forall_mem_cons] at h
    obtain ⟨b, hb⟩ := h.1
    obtain ⟨bs, hbs⟩ := ih h.2
    refine ⟨b :: bs, ?_⟩
    rw [List.mapM_cons, hb, hbs]
    rfl

theorem exists_of_map_ok {ε α β : Type} {f : α → β} {x : Except ε α} {b : β}
    (h : x.map f = .ok b) : ∃ a, x = .ok a ∧ f a = b := by
  cases x with
  | error e => cases h
  | ok a => exact ⟨a, rfl, Except.ok.inj h⟩

theorem exists_of_mem_right {α β : Type} {R : α → β → Prop} {l : List α} {l' : List β} {b : β}
    (h : List.Forall₂ R l l') (hb : b ∈ l') : ∃ a ∈ l, R a b := by
  induction h with
  | nil => simp at hb
  | cons hab _ ih =>
    rcases List.mem_cons.mp hb with rfl | hb
    · exact ⟨_, by simp, hab⟩
    · obtain ⟨a, ha, hR⟩ := ih hb
      exact ⟨a, by simp [ha], hR⟩

/-- What is ordered before decoding is ordered afterwards. -/
theorem pairwise_of_forall₂ {α β : Type} {R : α → β → Prop} {S : α → α → Prop} {T : β → β → Prop}
    {l : List α} {l' : List β} (h : List.Forall₂ R l l') (hl : l.Pairwise S)
    (hT : ∀ a b a' b', a ∈ l → b ∈ l → R a a' → R b b' → S a b → T a' b') : l'.Pairwise T := by
  induction h with
  | nil => exact List.Pairwise.nil
  | @cons a a' l l' haa' hrest ih =>
    rw [List.pairwise_cons] at hl ⊢
    refine ⟨fun b' hb' => ?_, ih hl.2 fun a b a' b' ha hb => hT a b a' b' (by simp [ha]) (by simp [hb])⟩
    obtain ⟨b, hb, hbb'⟩ := exists_of_mem_right hrest hb'
    exact hT a b a' b' (by simp) (by simp [hb]) haa' hbb' (hl.1 b hb)

/-- A scan that stops at the first misfit meets everything all of whose predecessors fit. -/
theorem mem_takeWhile_of_sorted {α κ : Type} [LinearOrder κ] {key : α → κ} {l : List α} {a : α}
    {fits : α → Bool} (hl : l.Pairwise (fun a b => key a < key b)) (ha : a ∈ l)
    (hfits : ∀ b ∈ l, key b ≤ key a → fits b = true) : a ∈ l.takeWhile fits := by
  induction l with
  | nil => simp at ha
  | cons b l ih =>
    rw [List.pairwise_cons] at hl
    rcases List.mem_cons.mp ha with rfl | ha
    · rw [List.takeWhile_cons_of_pos (hfits a (by simp) le_rfl)]
      exact List.mem_cons_self
    · rw [List.takeWhile_cons_of_pos (hfits b (by simp) (hl.1 a ha).le)]
      exact List.mem_cons_of_mem _ (ih hl.2 ha fun c hc => hfits c (by simp [hc]))

end Flatstate.Foundation
