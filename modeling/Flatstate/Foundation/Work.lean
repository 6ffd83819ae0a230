import Flatstate.Foundation.Holders
import Mathlib.Logic.Hydra

set_option autoImplicit false

/-!
# Foundation: work that comes to an end

What is left to do is a multiset of pieces of work, and a step replaces one of them by any
number of smaller ones.  The pieces are numbered tokens and programs, which are as large as
their runs are long: where a program branches over infinitely many answers, no number bounds
them.
-/

namespace Flatstate.Foundation

open Relation (CutExpand)

/-- A piece of work. -/
inductive Work (P : Type) where
  | token (n : Nat)
  | run (p : P)

/-- A program is larger than the least token, and smaller than all others. -/
inductive Work.Less {P : Type} (next : P → P → Prop) : Work P → Work P → Prop where
  | token {m n : Nat} (h : m < n) : Less next (.token m) (.token n)
  | start (p : P) (n : Nat) : Less next (.run p) (.token (n + 1))
  | go {p p' : P} (h : next p' p) : Less next (.run p') (.run p)
  | stop (p : P) : Less next (.token 0) (.run p)

theorem Work.less_wf {P : Type} {next : P → P → Prop} (hwf : WellFounded next) :
    WellFounded (Work.Less next) := by
  have hzero : Acc (Work.Less next) (.token 0) := by
    refine ⟨_, fun w h => ?_⟩
    cases h with
    | token h => exact absurd h (Nat.not_lt_zero _)
  have hrun : ∀ p, Acc (Work.Less next) (.run p) := by
    intro p
    induction p using hwf.induction with
    | _ p ih =>
      refine ⟨_, fun w h => ?_⟩
      cases h with
      | go h => exact ih _ h
      | stop => exact hzero
  have htoken : ∀ n, Acc (Work.Less next) (.token n) := by
    intro n
    induction n using Nat.strong_induction_on with
    | _ n ih =>
      refine ⟨_, fun w h => ?_⟩
      cases h with
      | token h => exact ih _ h
      | start p n => exact hrun p
  refine ⟨fun w => ?_⟩
  cases w with
  | token n => exact htoken n
  | run p => exact hrun p

/-- A step of one process is a step of the sum. -/
theorem cutExpand_sum_set {α β : Type} {r : β → β → Prop} {l : List α} {i : Nat} {a b : α}
    (f : α → Multiset β) (h : l[i]? = some a) (hc : CutExpand r (f b) (f a)) :
    CutExpand r ((l.set i b).map f).sum (l.map f).sum := by
  obtain ⟨t, x, ht, heq⟩ := hc
  refine ⟨t, x, ht, add_right_cancel (b := f a) ?_⟩
  calc ((l.set i b).map f).sum + {x} + f a = ((l.set i b).map f).sum + f a + {x} :=
        add_right_comm _ _ _
    _ = (l.map f).sum + (f b + {x}) := by rw [sum_set_add f h b, add_assoc]
    _ = (l.map f).sum + t + f a := by rw [heq, add_comm (f a), add_assoc]

end Flatstate.Foundation
