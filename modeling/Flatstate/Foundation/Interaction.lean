import Mathlib.Order.WellFounded

set_option autoImplicit false

/-!
# Foundation: programs that ask questions

A program over an interface is a tree: it returns, or asks one of the questions `Q` and goes
on with the answer.  It can be run where every question has a fixed answer (`eval`), and where
each time it is asked any answer of a kind may come (`Ends`), and on a machine whose state
answers and moves on (`run`).  A program over one interface becomes one over another if its
questions are programs of the other, with a state that is handed on from one to the next
(`handle`).
-/

namespace Flatstate.Foundation

/-- A program with questions `Q`, answers `A`, and a result. -/
inductive Prog (Q : Type) (A : Q → Type) (α : Type) where
  | ret (a : α)
  | ask (q : Q) (k : A q → Prog Q A α)

namespace Prog

variable {Q Q' : Type} {A : Q → Type} {A' : Q' → Type} {α β σ τ μ : Type}

/-- One program after another. -/
def bind : Prog Q A α → (α → Prog Q A β) → Prog Q A β
  | .ret a, f => f a
  | .ask q k, f => .ask q fun a => (k a).bind f

/-- The result of a program where every question has its answer. -/
def eval (env : (q : Q) → A q) : Prog Q A α → α
  | .ret a => a
  | .ask q k => (k (env q)).eval env

/-- The results of a program where a question is answered, each time, by anything that is
`ok`. -/
inductive Ends (ok : (q : Q) → A q → Prop) : Prog Q A α → α → Prop where
  | ret (a : α) : Ends ok (.ret a) a
  | ask {q : Q} {k : A q → Prog Q A α} {a : A q} {r : α} (ha : ok q a) (h : Ends ok (k a) r) :
      Ends ok (.ask q k) r

/-- A program on a machine whose state answers its questions. -/
def run (step : σ → (q : Q) → A q × σ) : Prog Q A α → σ → α × σ
  | .ret a, s => (a, s)
  | .ask q k, s => run step (k (step s q).1) (step s q).2

/-- A program that asks only what its mode allows, whatever the answers are. -/
inductive Follows (next : μ → Q → Option μ) : μ → Prog Q A α → Prop where
  | ret (m : μ) (a : α) : Follows next m (.ret a)
  | ask {m m' : μ} {q : Q} {k : A q → Prog Q A α} (hnext : next m q = some m')
      (h : ∀ x, Follows next m' (k x)) : Follows next m (.ask q k)

/-- A program whose questions are programs of another interface. -/
def handle (h : (q : Q) → σ → Prog Q' A' (A q × σ)) : Prog Q A α → σ → Prog Q' A' (α × σ)
  | .ret a, s => .ret (a, s)
  | .ask q k, s => (h q s).bind fun r => handle h (k r.1) r.2

/-- A program whose questions are some of those of another interface. -/
def embed (f : Q → Q') (g : (q : Q) → A' (f q) → A q) : Prog Q A α → Prog Q' A' α
  | .ret a => .ret a
  | .ask q k => .ask (f q) fun a => (k (g q a)).embed f g

/-- What a program goes on with after an answer. -/
inductive Next : Prog Q A α → Prog Q A α → Prop where
  | mk (q : Q) (k : A q → Prog Q A α) (a : A q) : Next (k a) (.ask q k)

/-- No program asks forever. -/
theorem next_wf : WellFounded (Next : Prog Q A α → Prog Q A α → Prop) := by
  refine ⟨fun p => ?_⟩
  induction p with
  | ret a => exact ⟨_, fun _ h => (by cases h)⟩
  | ask q k ih =>
    refine ⟨_, fun p h => ?_⟩
    cases h with
    | mk _ _ a => exact ih a

@[simp] theorem eval_ret (env : (q : Q) → A q) (a : α) : (Prog.ret a).eval env = a := rfl

@[simp] theorem eval_ask (env : (q : Q) → A q) (q : Q) (k : A q → Prog Q A α) :
    (Prog.ask q k).eval env = (k (env q)).eval env := rfl

@[simp] theorem eval_bind (env : (q : Q) → A q) (p : Prog Q A α) (f : α → Prog Q A β) :
    (p.bind f).eval env = (f (p.eval env)).eval env := by
  induction p with
  | ret a => rfl
  | ask q k ih => exact ih (env q)

section Ends

variable {ok : (q : Q) → A q → Prop}

theorem ends_ret {a r : α} : Ends ok (.ret a) r ↔ r = a := by
  refine ⟨fun h => ?_, fun h => h ▸ .ret r⟩
  cases h with
  | ret => rfl

theorem ends_ask {q : Q} {k : A q → Prog Q A α} {r : α} :
    Ends ok (.ask q k) r ↔ ∃ a, ok q a ∧ Ends ok (k a) r := by
  constructor
  · intro h
    cases h with
    | ask ha h => exact ⟨_, ha, h⟩
  · rintro ⟨a, ha, h⟩
    exact .ask ha h

theorem ends_bind {p : Prog Q A α} {f : α → Prog Q A β} {r : β} :
    Ends ok (p.bind f) r ↔ ∃ a, Ends ok p a ∧ Ends ok (f a) r := by
  induction p with
  | ret a =>
    constructor
    · intro h
      exact ⟨a, .ret a, h⟩
    · rintro ⟨a', ha, h⟩
      rw [ends_ret.mp ha] at h
      exact h
  | ask q k ih =>
    rw [bind, ends_ask]
    constructor
    · rintro ⟨x, hx, h⟩
      obtain ⟨a, ha, hr⟩ := (ih x).mp h
      exact ⟨a, .ask hx ha, hr⟩
    · rintro ⟨a, ha, hr⟩
      obtain ⟨x, hx, h⟩ := ends_ask.mp ha
      exact ⟨x, hx, (ih x).mpr ⟨a, h, hr⟩⟩

/-- Fixed answers are one way to answer. -/
theorem ends_eval {env : (q : Q) → A q} (henv : ∀ q, ok q (env q)) (p : Prog Q A α) :
    Ends ok p (p.eval env) := by
  induction p with
  | ret a => exact .ret a
  | ask q k ih => exact .ask (henv q) (ih (env q))

end Ends

/-- Two machines agree on a program if they agree on what it may ask. -/
theorem run_agrees {f : σ → (q : Q) → A q × σ} {g : τ → (q : Q) → A q × τ}
    {next : μ → Q → Option μ} {R : μ → σ → τ → Prop}
    (hstep : ∀ m q m' s t, next m q = some m' → R m s t →
      (f s q).1 = (g t q).1 ∧ R m' (f s q).2 (g t q).2)
    {p : Prog Q A α} {m : μ} (hp : Follows next m p) {s : σ} {t : τ} (h : R m s t) :
    (p.run f s).1 = (p.run g t).1 ∧ ∃ m', R m' (p.run f s).2 (p.run g t).2 := by
  induction hp generalizing s t with
  | ret m a => exact ⟨rfl, m, h⟩
  | ask hnext _ ih =>
    obtain ⟨hans, hR⟩ := hstep _ _ _ s t hnext h
    rw [run, run, ← hans]
    exact ih _ hR

section Handle

variable {ok : (q : Q') → A' q → Prop} {h : (q : Q) → σ → Prog Q' A' (A q × σ)}

/-- What every question keeps, every run keeps. -/
theorem handle_keeps {P : σ → Prop} (hP : ∀ q s r, P s → Ends ok (h q s) r → P r.2)
    (p : Prog Q A α) {s : σ} {r : α × σ} (hs : P s) (hr : Ends ok (p.handle h s) r) : P r.2 := by
  induction p generalizing s with
  | ret a =>
    rw [ends_ret.mp hr]
    exact hs
  | ask q k ih =>
    obtain ⟨x, hx, hr⟩ := ends_bind.mp hr
    exact ih x.1 (hP q s x hs hx) hr

/-- If a question that ends well has its fixed outcome, and what has gone wrong stays wrong,
then a run that ends well has its fixed outcome. -/
theorem handle_agrees {env : (q : Q') → A' q} {P : σ → Prop}
    (hback : ∀ q s r, Ends ok (h q s) r → P r.2 → P s)
    (hone : ∀ q s r, Ends ok (h q s) r → P r.2 → r = (h q s).eval env)
    (p : Prog Q A α) {s : σ} {r : α × σ} (hr : Ends ok (p.handle h s) r) (hP : P r.2) :
    r = (p.handle h s).eval env := by
  -- the state before the rest of a run that ends well is a good one
  have hgood : ∀ (p : Prog Q A α) (s : σ), Ends ok (p.handle h s) r → P s := by
    intro p
    induction p with
    | ret a =>
      intro s hr
      rw [ends_ret.mp hr] at hP
      exact hP
    | ask q k ih =>
      intro s hr
      obtain ⟨x, hx, hr⟩ := ends_bind.mp hr
      exact hback q s x hx (ih x.1 x.2 hr)
  induction p generalizing s with
  | ret a => exact ends_ret.mp hr
  | ask q k ih =>
    obtain ⟨x, hx, hr⟩ := ends_bind.mp hr
    rw [handle, eval_bind, ← hone q s x hx (hgood (k x.1) x.2 hr)]
    exact ih x.1 hr

end Handle

end Prog

end Flatstate.Foundation
