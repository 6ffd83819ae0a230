import Flatstate.Sync.Log

set_option autoImplicit false

/-!
# Sync: the account phase loses nothing

A segment worker enqueues the rows of its accounts in key order, each queue row before its
account row, and its final bundle last.  So whatever prefix is committed, the accounts of a
segment that are in the store are an initial part of it, each with its queue row, and the
greatest of them is a safe place to resume.
-/

namespace Flatstate.Sync

open Foundation Schema Store

section

variable (c : Config) (x : Chain)

/-- The account leaves of segment `i`, by their first key byte. -/
def InSeg (i : UInt8) (l : Leaf) : Prop := l ∈ (x.accounts c).list ∧ l.1.head? = some i

/-- The account of a leaf is in the store. -/
def Stored (e : Env) (l : Leaf) : Prop :=
  ∃ acc, x.rlpAccount l.2 = some acc ∧ Has c e (.baseAccount (bytesToHash l.1) acc.row)

/-- Every account of the segment is in the store. -/
def Covers (i : UInt8) (e : Env) : Prop := ∀ l, InSeg c x i l → Stored c x e l

/-- What every store on the way looks like.  `es` says which queue rows phase 2 has given
up. -/
structure Ordered (es : List Event) (e : Env) : Prop where
  closed : ∀ i l l', InSeg c x i l → InSeg c x i l' → l.1 < l'.1 → Stored c x e l' → Stored c x e l
  queued : ∀ l ∈ (x.accounts c).list, ∀ acc, x.rlpAccount l.2 = some acc →
    x.hasStorage acc = true → Stored c x e l →
    row e (.storageQueue (bytesToHash l.1)) = some acc.root.1 ∨ .dequeue (bytesToHash l.1) ∈ es

end

variable {c : Config} {x : Chain} {es : List Event} {e e' : Env} {l l' : Leaf} {i : UInt8}

/-! ## Segments are ranges -/

theorem segStart_le_iff {k : Bytes} (hk : k.length = 32) :
    segStart i ≤ k ∧ k ≤ segEnd i ↔ k.head? = some i := by
  cases k with
  | nil => simp at hk
  | cons b k =>
    have hlen : k.length = 31 := by simpa using hk
    rw [segStart, segEnd, cons_le_cons, cons_le_cons, List.head?_cons, Option.some.injEq]
    constructor
    · rintro ⟨hlo | ⟨rfl, -⟩, hhi⟩
      · rcases hhi with hhi | ⟨rfl, -⟩
        · exact absurd hlo (lt_asymm hhi)
        · rfl
      · rfl
    · rintro rfl
      have hlow : beDecode (List.replicate 31 0) ≤ beDecode k := by
        rw [show beDecode (List.replicate 31 0) = 0 from by decide]
        exact Nat.zero_le _
      have hhigh : beDecode k ≤ beDecode (List.replicate 31 0xff) := by
        have hlt := beDecode_lt k
        rw [hlen] at hlt
        rw [show beDecode (List.replicate 31 0xff) = 256 ^ 31 - 1 from by decide +kernel]
        omega
      exact ⟨Or.inr ⟨rfl, (beDecode_le_iff (by simp [hlen])).mp hlow⟩,
        Or.inr ⟨rfl, (beDecode_le_iff (by simp [hlen])).mp hhigh⟩⟩

theorem inSeg_eq : InSeg c x i = InRange (x.accounts c) (segStart i) (some (segEnd i)) := by
  funext l
  rw [InSeg, InRange]
  apply propext
  constructor
  · rintro ⟨hl, hhead⟩
    obtain ⟨hlo, hhi⟩ := (segStart_le_iff ((x.accounts c).width l hl)).mpr hhead
    exact ⟨hl, hlo, fun h hh => Option.some.inj hh ▸ hhi⟩
  · rintro ⟨hl, hlo, hhi⟩
    exact ⟨hl, (segStart_le_iff ((x.accounts c).width l hl)).mp ⟨hlo, hhi _ rfl⟩⟩

/-! ## Stored accounts -/

theorem genuine_account {acc : StateAccount} (hl : l ∈ (x.accounts c).list)
    (hacc : x.rlpAccount l.2 = some acc) :
    Genuine c x (.baseAccount (bytesToHash l.1) acc.row) := ⟨acc, ⟨l, hl, rfl, hacc⟩, rfl⟩

theorem Stored.foldl (hl : l ∈ (x.accounts c).list) {ops : List BlOp}
    (hops : ∀ op ∈ ops, GenuineOp c x op) (h : Stored c x e l) :
    Stored c x (ops.foldl BlOp.run e) l := by
  obtain ⟨acc, hacc, hhas⟩ := h
  exact ⟨acc, hacc, hhas.foldl (genuine_account hl hacc) rfl hops⟩

theorem Stored.agree (hl : l ∈ (x.accounts c).list) (hag : Agree e e') (h : Stored c x e l) :
    Stored c x e' l := by
  obtain ⟨acc, hacc, hhas⟩ := h
  exact ⟨acc, hacc, hhas.agree (genuine_account hl hacc) hag⟩

theorem Covers.foldl {ops : List BlOp} (hops : ∀ op ∈ ops, GenuineOp c x op)
    (h : Covers c x i e) : Covers c x i (ops.foldl BlOp.run e) :=
  fun l hl => (h l hl).foldl hl.1 hops

theorem Covers.agree (hag : Agree e e') (h : Covers c x i e) : Covers c x i e' :=
  fun l hl => (h l hl).agree hl.1 hag

/-- In an exact store an account row is that of its leaf. -/
theorem Exact.stored (h : Exact c x e) (hl : l ∈ (x.accounts c).list)
    (hne : row e (.baseAccount (bytesToHash l.1)) ≠ none) : Stored c x e l := by
  obtain ⟨v, hv⟩ := Option.ne_none_iff_exists'.mp hne
  obtain ⟨r, hr, ht, hval⟩ := h (.baseAccount (bytesToHash l.1)) v (by rw [Row.space]; decide) hv
  cases r with
  | baseAccount a row =>
    obtain rfl := Row.baseAccount.inj ht
    obtain ⟨acc, ⟨l', hl', ha, hacc⟩, rfl⟩ := hr
    obtain rfl := (x.accounts c).eq_of_key hl' hl (key_of_bytesToHash hl' hl ha)
    exact ⟨acc, hacc, hv.trans hval.symm⟩
  | _ => cases ht

theorem stored_run_of_ne {r : LoadRow} (h : Row.baseAccount (bytesToHash l.1) ≠ r.target c.height) :
    Stored c x ((r.op c.height).run e) l ↔ Stored c x e l := by
  have hrow := row_run_of_ne e h
  constructor
  · rintro ⟨acc, hacc, hhas⟩
    exact ⟨acc, hacc, hrow.symm.trans hhas⟩
  · rintro ⟨acc, hacc, hhas⟩
    exact ⟨acc, hacc, hrow.trans hhas⟩

/-! ## One row more -/

namespace Ordered

theorem mono {es' : List Event} (h : Ordered c x es e) (hsub : ∀ ev ∈ es, ev ∈ es') :
    Ordered c x es' e :=
  ⟨h.closed, fun l hl acc hacc hst hs => (h.queued l hl acc hacc hst hs).imp_right (hsub _)⟩

theorem unmeta (es : List Event) : Unmeta (Ordered c x es) := by
  intro e e' hag h
  have hback : ∀ l ∈ (x.accounts c).list, Stored c x e' l → Stored c x e l :=
    fun l hl hs => hs.agree hl hag.symm
  constructor
  · intro i l l' hl hl' hlt hs
    exact (h.closed i l l' hl hl' hlt (hback l' hl'.1 hs)).agree hl.1 hag
  · intro l hl acc hacc hst hs
    rw [← hag.row (r := .storageQueue _) (by rw [Row.space]; decide)]
    exact h.queued l hl acc hacc hst (hback l hl hs)

/-- A row that is no account row keeps the order, if what it does to a queue row is right. -/
theorem other (h : Ordered c x es e) {r : LoadRow} (hacct : ∀ a, r.target c.height ≠ .baseAccount a)
    (hqueue : ∀ l ∈ (x.accounts c).list, ∀ acc, x.rlpAccount l.2 = some acc →
      Row.storageQueue (bytesToHash l.1) = r.target c.height →
        r.value = some acc.root.1 ∨ Event.dequeue (bytesToHash l.1) ∈ es) :
    Ordered c x es ((r.op c.height).run e) := by
  have hst : ∀ l, Stored c x ((r.op c.height).run e) l ↔ Stored c x e l :=
    fun l => stored_run_of_ne (hacct _).symm
  constructor
  · intro i l l' hl hl' hlt hs
    exact (hst l).mpr (h.closed i l l' hl hl' hlt ((hst l').mp hs))
  · intro l hl acc hacc hstorage hs
    rw [row_run]
    split
    · rename_i heq
      exact hqueue l hl acc hacc heq
    · exact h.queued l hl acc hacc hstorage ((hst l).mp hs)

/-- Code and slot rows do not matter. -/
theorem quiet (h : Ordered c x es e) {r : LoadRow} (hacct : ∀ a, r.target c.height ≠ .baseAccount a)
    (hqueue : ∀ a, r.target c.height ≠ .storageQueue a) :
    Ordered c x es ((r.op c.height).run e) :=
  h.other hacct fun _ _ _ _ heq => absurd heq.symm (hqueue _)

theorem queue (h : Ordered c x es e) {a root : Hash} (hr : Genuine c x (.queueStorage a root)) :
    Ordered c x es (((LoadRow.queueStorage a root).op c.height).run e) := by
  obtain ⟨acc', hacc', -, rfl⟩ := hr
  refine h.other (by simp [LoadRow.target]) fun l hl acc hacc heq => ?_
  obtain rfl : bytesToHash l.1 = a := Row.storageQueue.inj heq
  rw [IsAccount.unique ⟨l, hl, rfl, hacc⟩ hacc']
  exact Or.inl rfl

theorem dequeue (h : Ordered c x es e) {a : Hash} (hin : Event.dequeue a ∈ es) :
    Ordered c x es (((LoadRow.dequeueStorage a).op c.height).run e) := by
  refine h.other (by simp [LoadRow.target]) fun l hl acc hacc heq => ?_
  obtain rfl : bytesToHash l.1 = a := Row.storageQueue.inj heq
  exact Or.inr hin

/-- The next account of its segment, behind its queue row. -/
theorem account (h : Ordered c x es e) {acc : StateAccount} (hl : l ∈ (x.accounts c).list)
    (hacc : x.rlpAccount l.2 = some acc)
    (hbelow : ∀ i l', InSeg c x i l → InSeg c x i l' → l'.1 < l.1 → Stored c x e l')
    (hqueue : x.hasStorage acc = true →
      row e (.storageQueue (bytesToHash l.1)) = some acc.root.1) :
    Ordered c x es (((LoadRow.baseAccount (bytesToHash l.1) acc.row).op c.height).run e) := by
  have hgen := genuine_account hl hacc
  have hkeep : ∀ l' ∈ (x.accounts c).list, Stored c x e l' →
      Stored c x (((LoadRow.baseAccount (bytesToHash l.1) acc.row).op c.height).run e) l' := by
    rintro l' hl' ⟨acc', hacc', hhas⟩
    exact ⟨acc', hacc', hhas.run (genuine_account hl' hacc') rfl hgen⟩
  -- what is stored was stored before, or is the new account
  have hcases : ∀ l' ∈ (x.accounts c).list,
      Stored c x (((LoadRow.baseAccount (bytesToHash l.1) acc.row).op c.height).run e) l' →
        l' = l ∨ Stored c x e l' := by
    intro l' hl' hs
    by_cases heq : bytesToHash l'.1 = bytesToHash l.1
    · exact Or.inl ((x.accounts c).eq_of_key hl' hl (key_of_bytesToHash hl' hl heq))
    · exact Or.inr ((stored_run_of_ne (by simpa [LoadRow.target] using heq)).mp hs)
  constructor
  · intro i l₁ l₂ h₁ h₂ hlt hs
    rcases hcases l₂ h₂.1 hs with rfl | hs
    · exact hkeep l₁ h₁.1 (hbelow i l₁ h₂ h₁ hlt)
    · exact hkeep l₁ h₁.1 (h.closed i l₁ l₂ h₁ h₂ hlt hs)
  · intro l' hl' acc' hacc' hstorage hs
    rw [row_run_of_ne e (by simp [LoadRow.target])]
    rcases hcases l' hl' hs with rfl | hs
    · obtain rfl := Option.some.inj (hacc.symm.trans hacc')
      exact Or.inl (hqueue hstorage)
    · exact h.queued l' hl' acc' hacc' hstorage hs

theorem empty : Ordered c x es OrdMap.empty := by
  have hno : ∀ l, ¬ Stored c x OrdMap.empty l := by
    rintro l ⟨acc, -, hhas⟩
    rw [Has, row_empty] at hhas
    cases hhas
  exact ⟨fun i l l' _ _ _ hs => absurd hs (hno l'), fun l _ acc _ _ hs => absurd hs (hno l)⟩

end Ordered

/-! ## The rows of an account -/

theorem handleAccount_ok {claims claims' : List Hash} {rows : List LoadRow}
    (h : handleAccount x claims l = .ok (rows, claims')) :
    ∃ acc, x.rlpAccount l.2 = some acc ∧
      ∃ code : List LoadRow, rows = code ++ accountRows x (bytesToHash l.1) acc ∧
        ∀ r ∈ code, ∃ hash blob, r = .code hash blob ∧ x.code hash = some blob := by
  rw [handleAccount] at h
  split at h
  · cases h
  · cases hacc : x.rlpAccount l.2 with
    | none => rw [hacc] at h; cases h
    | some acc =>
      rw [hacc] at h
      refine ⟨acc, rfl, ?_⟩
      dsimp only at h
      split at h
      · cases hcode : x.code (bytesToHash acc.codeHash) with
        | none => rw [hcode] at h; cases h
        | some blob =>
          rw [hcode] at h
          obtain ⟨rfl, -⟩ := Prod.mk.inj (Except.ok.inj h)
          refine ⟨[.code (bytesToHash acc.codeHash) blob], rfl, fun r hr => ?_⟩
          exact ⟨_, blob, by simpa using hr, hcode⟩
      · obtain ⟨rfl, -⟩ := Prod.mk.inj (Except.ok.inj h)
        exact ⟨[], rfl, fun r hr => by simp at hr⟩

/-- The bundle holds the rows of the leaf. -/
def RowsOf (x : Chain) (rows : List LoadRow) (l : Leaf) : Prop :=
  ∃ claims claims', handleAccount x claims l = .ok (rows, claims')

theorem RowsOf.genuine {rows : List LoadRow} (h : RowsOf x rows l) (hl : l ∈ (x.accounts c).list) :
    ∀ r ∈ rows, Genuine c x r := by
  obtain ⟨claims, claims', h⟩ := h
  obtain ⟨acc, hacc, code, rfl, hcode⟩ := handleAccount_ok h
  have hin : IsAccount c x (bytesToHash l.1) acc := ⟨l, hl, rfl, hacc⟩
  intro r hr
  rcases List.mem_append.mp hr with hr | hr
  · obtain ⟨hash, blob, rfl, hblob⟩ := hcode r hr
    exact hblob
  · rw [accountRows] at hr
    split at hr
    · rename_i hst
      rcases List.mem_append.mp hr with hr | hr
      · obtain rfl : r = _ := by simpa using hr
        exact ⟨acc, hin, hst, rfl⟩
      · obtain rfl : r = _ := by simpa using hr
        exact ⟨acc, hin, rfl⟩
    · obtain rfl : r = _ := by simpa using hr
      exact ⟨acc, hin, rfl⟩

/-- A property that code and queue rows keep, and the account row behind its queue row, holds
along the bundle of an account. -/
theorem RowsOf.along {P : Env → Prop} {rows : List LoadRow} (h : RowsOf x rows l)
    (hl : l ∈ (x.accounts c).list) (he : P e)
    (hcode : ∀ e hash blob, Genuine c x (.code hash blob) → P e →
      P (((LoadRow.code hash blob).op c.height).run e))
    (hqueue : ∀ e a root, Genuine c x (.queueStorage a root) → P e →
      P (((LoadRow.queueStorage a root).op c.height).run e))
    (hacct : ∀ e' acc, x.rlpAccount l.2 = some acc →
      (∀ l' ∈ (x.accounts c).list, Stored c x e l' → Stored c x e' l') →
      (x.hasStorage acc = true → row e' (.storageQueue (bytesToHash l.1)) = some acc.root.1) →
      P e' → P (((LoadRow.baseAccount (bytesToHash l.1) acc.row).op c.height).run e')) :
    Along BlOp.run P e (rows.map (LoadRow.op c.height)) := by
  have hgen := h.genuine (c := c) hl
  obtain ⟨claims, claims', h⟩ := h
  obtain ⟨acc, hacc, code, rfl, hcodes⟩ := handleAccount_ok h
  have hops : ∀ rs : List LoadRow, (∀ r ∈ rs, Genuine c x r) →
      ∀ op ∈ rs.map (LoadRow.op c.height), GenuineOp c x op := by
    intro rs hrs op hop
    obtain ⟨r, hr, rfl⟩ := List.mem_map.mp hop
    exact ⟨r, hrs r hr, rfl⟩
  have hcgen : ∀ r ∈ code, Genuine c x r := fun r hr => hgen r (by simp [hr])
  have hfirst : Along BlOp.run P e (code.map (LoadRow.op c.height)) := by
    refine Along.of_keeps (G := fun op => ∃ hash blob, Genuine c x (.code hash blob) ∧
      op = (LoadRow.code hash blob).op c.height) he ?_ ?_
    · intro op hop
      obtain ⟨r, hr, rfl⟩ := List.mem_map.mp hop
      obtain ⟨hash, blob, rfl, hblob⟩ := hcodes r hr
      exact ⟨hash, blob, hblob, rfl⟩
    · rintro e op ⟨hash, blob, hblob, rfl⟩ hP
      exact hcode e hash blob hblob hP
  have hstored : ∀ l' ∈ (x.accounts c).list, Stored c x e l' →
      Stored c x ((code.map (LoadRow.op c.height)).foldl BlOp.run e) l' :=
    fun l' hl' hs => hs.foldl hl' (hops code hcgen)
  rw [List.map_append]
  refine along_append.mpr ⟨hfirst, ?_⟩
  rw [accountRows] at hgen ⊢
  split
  · rename_i hst
    rw [if_pos hst] at hgen
    have hq : Genuine c x (.queueStorage (bytesToHash l.1) acc.root) := hgen _ (by simp)
    refine ⟨hfirst.done, hqueue _ _ _ hq hfirst.done, ?_⟩
    refine hacct _ acc hacc (fun l' hl' hs => ?_) (fun _ => ?_) (hqueue _ _ _ hq hfirst.done)
    · exact (stored_run_of_ne (by simp [LoadRow.target])).mpr (hstored l' hl' hs)
    · exact has_run_self (c := c) _ (.queueStorage (bytesToHash l.1) acc.root)
  · rename_i hst
    exact ⟨hfirst.done, hacct _ acc hacc hstored (fun h => absurd h hst) hfirst.done⟩

/-- With its bundle an account is in the store. -/
theorem RowsOf.stored {rows : List LoadRow} (h : RowsOf x rows l) :
    Stored c x ((rows.map (LoadRow.op c.height)).foldl BlOp.run e) l := by
  obtain ⟨claims, claims', h⟩ := h
  obtain ⟨acc, hacc, code, rfl, -⟩ := handleAccount_ok h
  refine ⟨acc, hacc, ?_⟩
  rw [accountRows, ← List.append_assoc, List.map_append, List.foldl_append]
  exact has_run_self _ _

/-! ## Segment workers -/

/-- The entry is about the leaf. -/
def SlotOf (x : Chain) : Slot → Leaf → Prop
  | .leaf l', l => l' = l
  | .rows rows, l => RowsOf x rows l

/-- Where a worker stands, with the store as it will be. -/
def SegInv (c : Config) (x : Chain) (i : UInt8) (e : Env) : SegWorker → Prop
  | .queued start =>
    segStart i ≤ start.getD (segStart i) ∧
      Todo Prod.fst (InSeg c x i) (Stored c x e) [] (some (start.getD (segStart i)))
  | .asking start =>
    segStart i ≤ start ∧ Todo Prod.fst (InSeg c x i) (Stored c x e) [] (some start)
  | .handling slots v =>
    ∃ page next, v = .ofNext next ∧ List.Forall₂ (SlotOf x) slots page ∧
      (∀ k, next = some k → segStart i ≤ k) ∧
      Todo Prod.fst (InSeg c x i) (Stored c x e) page next
  | .sending rows v =>
    ∃ rest next, v = .ofNext next ∧ List.Forall₂ (RowsOf x) rows rest ∧
      (∀ k, next = some k → segStart i ≤ k) ∧
      Todo Prod.fst (InSeg c x i) (Stored c x e) rest next
  | .closing | .ended => Covers c x i e

theorem SegInv.mono {w : SegWorker} (h : SegInv c x i e w)
    (hkeep : ∀ l, InSeg c x i l → Stored c x e l → Stored c x e' l) : SegInv c x i e' w := by
  cases w with
  | queued start | asking start => exact ⟨h.1, h.2.mono hkeep⟩
  | handling slots v =>
    obtain ⟨page, next, hv, hslots, hnext, htodo⟩ := h
    exact ⟨page, next, hv, hslots, hnext, htodo.mono hkeep⟩
  | sending rows v =>
    obtain ⟨rest, next, hv, hrows, hnext, htodo⟩ := h
    exact ⟨rest, next, hv, hrows, hnext, htodo.mono hkeep⟩
  | closing | ended => exact fun l hl => hkeep l hl (h l hl)

/-- One entry is replaced, the others keep what is said about them. -/
theorem forall₂_replace {α β : Type} {R S : α → β → Prop} {before after : List α} {a a' : α}
    {l : List β} (h : List.Forall₂ R (before ++ a :: after) l) (hrest : ∀ a b, R a b → S a b)
    (ha : ∀ b, R a b → S a' b) : List.Forall₂ S (before ++ a' :: after) l := by
  induction before generalizing l with
  | nil =>
    cases h with
    | cons hab htail => exact List.Forall₂.cons (ha _ hab) (htail.imp hrest)
  | cons b before ih =>
    cases h with
    | cons hab htail => exact List.Forall₂.cons (hrest _ _ hab) (ih htail)

theorem Verdict.ofNext_eq_go {next : Option Bytes} {k : Bytes} (h : Verdict.go k = .ofNext next) :
    next = some k := by
  cases next with
  | none => cases h
  | some k' => rw [Verdict.go.inj h]

theorem Verdict.ofNext_eq_stop {next : Option Bytes} (h : Verdict.stop = .ofNext next) :
    next = none := by
  cases next with
  | none => rfl
  | some k' => cases h

/-- The account whose rows are sent next: everything below it in its segment is stored. -/
theorem SegInv.sends {rs : List LoadRow} {rows : List (List LoadRow)} {v : Verdict}
    (h : SegInv c x i e (.sending (rs :: rows) v)) :
    ∃ l, RowsOf x rs l ∧ InSeg c x i l ∧
      ∀ l', InSeg c x i l' → l'.1 < l.1 → Stored c x e l' := by
  obtain ⟨rest, next, -, hrows, -, htodo⟩ := h
  cases hrows with
  | cons hrs htail =>
    exact ⟨_, hrs, htodo.mem _ (by simp), fun l' hl' hlt => htodo.below hl' hlt⟩

/-- A step of a worker, with the store as it will be after what it sends. -/
theorem SegInv.step {w w' : SegWorker} {claims claims' : List Hash} {out : Option Bundle}
    (hstep : SegStep c x i (w, claims) out (w', claims')) (h : SegInv c x i e w)
    (hrows : ∀ b l, out = some b → InSeg c x i l → RowsOf x b.apply l → Stored c x e' l)
    (hkeep : ∀ l, InSeg c x i l → Stored c x e l → Stored c x e' l) : SegInv c x i e' w' := by
  cases hstep with
  | page hserve =>
    obtain ⟨hlo, htodo⟩ := h.mono hkeep
    rw [inSeg_eq] at htodo
    obtain ⟨next, hv, htodo, hnext⟩ := paged hserve hlo (by simp [segEnd]) htodo
    rw [← inSeg_eq] at htodo
    refine ⟨_, next, hv, ?_, fun k hk => hlo.trans (hnext k hk).2.le, htodo⟩
    rw [List.forall₂_map_left_iff]
    exact List.forall₂_same.mpr (fun l _ => rfl)
  | handle hrows' =>
    obtain ⟨page, next, hv, hslots, hnext, htodo⟩ := h.mono hkeep
    refine ⟨page, next, hv, forall₂_replace hslots (fun _ _ => id) ?_, hnext, htodo⟩
    rintro l rfl
    exact ⟨_, _, hrows'⟩
  | handled =>
    obtain ⟨page, next, hv, hslots, hnext, htodo⟩ := h.mono hkeep
    rw [List.forall₂_map_left_iff] at hslots
    exact ⟨page, next, hv, hslots, hnext, htodo⟩
  | send =>
    obtain ⟨rest, next, hv, hforall, hnext, htodo⟩ := h
    cases hforall with
    | cons hrs htail =>
      have hl := htodo.mem _ List.mem_cons_self
      exact ⟨_, next, hv, htail, hnext, (htodo.mono hkeep).tail (hrows _ _ rfl hl hrs)⟩
  | again =>
    obtain ⟨rest, next, hv, hforall, hnext, htodo⟩ := h.mono hkeep
    cases hforall
    obtain rfl := Verdict.ofNext_eq_go hv
    exact ⟨hnext _ rfl, htodo⟩
  | last =>
    obtain ⟨rest, next, hv, hforall, hnext, htodo⟩ := h.mono hkeep
    cases hforall
    obtain rfl := Verdict.ofNext_eq_stop hv
    exact fun l hl => htodo.all hl
  | close => exact h.mono hkeep

/-! ## The bitmap -/

theorem segBit_inj : ∀ p < 8, ∀ q < 8,
    (1 <<< UInt8.ofNat p : UInt8) &&& (1 <<< UInt8.ofNat q) ≠ 0 → p = q := by
  decide

theorem or_and_ne_zero {b m n : UInt8} (h : (b ||| m) &&& n ≠ 0) : b &&& n ≠ 0 ∨ m &&& n ≠ 0 := by
  have hdist : (b ||| m) &&& n = (b &&& n) ||| (m &&& n) :=
    UInt8.toNat_inj.mp (by simp [Nat.and_or_distrib_right])
  by_contra hcon
  obtain ⟨hb, hm⟩ := not_or.mp hcon
  exact h (hdist.trans (UInt8.or_eq_zero_iff.mpr ⟨not_not.mp hb, not_not.mp hm⟩))

/-- Marking a segment sets no other bit. -/
theorem segDone_markSeg {bitmap : Bytes} {j : UInt8} (h : segDone (markSeg bitmap i) j = true) :
    j = i ∨ segDone bitmap j = true := by
  rw [segDone, decide_eq_true_eq, List.getD_eq_getElem?_getD, markSeg, List.getElem?_modify] at h
  rw [segDone, decide_eq_true_eq, List.getD_eq_getElem?_getD]
  cases hj : bitmap[j.toNat / 8]? with
  | none =>
    rw [hj] at h
    exact Or.inr h
  | some b =>
    rw [hj] at h
    by_cases hbyte : i.toNat / 8 = j.toNat / 8
    · simp only [hbyte, if_true, Option.map_eq_map, Option.map_some, Option.getD_some] at h
      rcases or_and_ne_zero h with h | h
      · exact Or.inr h
      · have hbit := segBit_inj _ (Nat.mod_lt _ (by decide)) _ (Nat.mod_lt _ (by decide)) h
        exact Or.inl (UInt8.toNat_inj.mp (by omega))
    · simp only [hbyte, if_false, Option.map_eq_map, Option.map_some, Option.getD_some] at h
      exact Or.inr h

theorem length_markSeg (bitmap : Bytes) (i : UInt8) : (markSeg bitmap i).length = bitmap.length :=
  List.length_modify ..

/-- The store with the buffer committed. -/
def Load.buffered (s : Load) : Env := s.bl.ops.foldl BlOp.run s.db

/-- Every final bundle comes after the accounts of its segment. -/
def Finals (c : Config) (x : Chain) : Env → List Bundle → Prop
  | _, [] => True
  | e, b :: bs =>
    (∀ i, b.final = some i →
      Covers c x i ((b.apply.map (LoadRow.op c.height)).foldl BlOp.run e)) ∧
    Finals c x ((b.apply.map (LoadRow.op c.height)).foldl BlOp.run e) bs

theorem Finals.agree {q : List Bundle} (hag : Agree e e') (h : Finals c x e q) :
    Finals c x e' q := by
  induction q generalizing e e' with
  | nil => trivial
  | cons b q ih =>
    exact ⟨fun i hi => (h.1 i hi).agree (hag.foldl _), ih (hag.foldl _) h.2⟩

theorem finals_send {q : List Bundle} {b : Bundle} (h : Finals c x e q)
    (hb : ∀ i, b.final = some i → Covers c x i (((q.flatMap Bundle.apply ++ b.apply).map
      (LoadRow.op c.height)).foldl BlOp.run e)) : Finals c x e (q ++ [b]) := by
  induction q generalizing e with
  | nil => exact ⟨by simpa using hb, trivial⟩
  | cons b' q ih =>
    refine ⟨h.1, ih h.2 fun i hi => ?_⟩
    have hcov := hb i hi
    rwa [List.flatMap_cons, List.append_assoc, List.map_append, List.foldl_append] at hcov

/-- What the bitmaps say is true: in memory of what is buffered, in the store of what is
committed. -/
structure BitInv (c : Config) (x : Chain) (s : Load) : Prop where
  width : s.bitmap.length = 32
  finals : Finals c x s.buffered s.queue
  bits : ∀ i, segDone s.bitmap i = true → Covers c x i s.buffered
  progress : ∀ p, s.bl.progress = some p → p = s.bitmap
  stored : ∀ p, row s.db .baselineProgress = some p →
    p.length = 32 ∧ ∀ i, segDone p i = true → Covers c x i s.db

namespace BitInv

variable {s s' : Load}

theorem of_queue (h : BitInv c x s) (hbl : s'.bl = s.bl) (hdb : s'.db = s.db)
    (hmap : s'.bitmap = s.bitmap) (hfin : Finals c x s.buffered s'.queue) : BitInv c x s' where
  width := hmap ▸ h.width
  finals := by rwa [Load.buffered, hbl, hdb]
  bits := by
    rw [hmap, Load.buffered, hbl, hdb]
    exact h.bits
  progress := by
    rw [hmap, hbl]
    exact h.progress
  stored := hdb ▸ h.stored

/-- The rows of the loader are not the progress row. -/
theorem progress_row {ops : List BlOp} (hops : ∀ op ∈ ops, GenuineOp c x op) (e : Env) :
    row (ops.foldl BlOp.run e) .baselineProgress = row e .baselineProgress := by
  refine foldl_keeps (P := fun e' => row e' .baselineProgress = row e .baselineProgress) rfl hops ?_
  rintro e' op ⟨r, hr, rfl⟩ heq
  refine (row_run_of_ne e' fun ht => ?_).trans heq
  exact hr.target_space c.height (ht ▸ rfl)

/-- A flush commits the bitmap together with everything it is about. -/
theorem flush (h : BitInv c x s) (hgen : ∀ op ∈ s.ops, GenuineOp c x op) : BitInv c x s.flush := by
  have hops : ∀ op ∈ s.bl.ops, GenuineOp c x op := fun op hop =>
    hgen op (List.mem_append_left _ hop)
  have hag : Agree s.buffered (s.bl.flushed s.db) := Agree.flushed s.bl s.db
  rw [Load.flush_eq]
  refine ⟨h.width, h.finals.agree hag, fun i hi => (h.bits i hi).agree hag,
    fun p hp => (by cases hp), fun p hp => ?_⟩
  cases hpr : s.bl.progress with
  | none =>
    have hrow : row (s.bl.flushed s.db) .baselineProgress = row s.db .baselineProgress := by
      rw [Baseline.flushed, hpr]
      exact progress_row hops s.db
    obtain ⟨hlen, hcov⟩ := h.stored p (hrow.symm.trans hp)
    exact ⟨hlen, fun i hi => ((hcov i hi).foldl hops).agree hag⟩
  | some p' =>
    have hrow : row (s.bl.flushed s.db) .baselineProgress = some p' := by
      rw [Baseline.flushed, hpr]
      exact OrdMap.get_put_self _ _ _
    obtain rfl : p' = p := Option.some.inj (hrow.symm.trans hp)
    obtain rfl := h.progress p' hpr
    exact ⟨h.width, fun i hi => (h.bits i hi).agree hag⟩

/-- A row goes from the head of the line into the buffer. -/
theorem load (h : BitInv c x s) (hs : s.bl.s = c.height) (hgen : ∀ op ∈ s.ops, GenuineOp c x op)
    {r : LoadRow} {cur : Option Bundle} {phase : Phase}
    (hrows : s.rows = r :: ({ s with cur, phase } : Load).rows)
    (hfin : Finals c x ((r.op c.height).run s.buffered) (cur.toList ++ s.writes)) :
    BitInv c x { s.load r with cur, phase } := by
  have hr : GenuineOp c x (r.op s.bl.s) := hgen _ (by simp [Load.ops, hrows])
  have hbuf : ({ s.push r with cur, phase } : Load).buffered = (r.op c.height).run s.buffered := by
    simp [Load.buffered, Load.push, hs]
  have hpush : BitInv c x { s.push r with cur, phase } := by
    refine ⟨h.width, by rw [hbuf]; exact hfin, fun i hi => ?_, h.progress, h.stored⟩
    rw [hbuf, ← hs]
    have hops : ∀ op ∈ [r.op s.bl.s], GenuineOp c x op := by simpa using hr
    exact (h.bits i hi).foldl hops
  rcases s.load_line r cur phase with hl | hl
  · rw [hl]
    exact hpush
  · rw [hl]
    exact hpush.flush fun op hop => hgen op (Load.ops_push hrows ▸ hop)

/-- A bundle that is applied; a final one sets its bit. -/
theorem applied (h : BitInv c x s) {b : Bundle} (hcur : s.cur = some b) (hrows : b.apply = []) :
    BitInv c x { s.mark b.final with cur := none } := by
  have hqueue : s.queue = b :: s.writes := by rw [Load.queue, hcur]; rfl
  have hfin := h.finals
  rw [hqueue, Finals, hrows] at hfin
  cases hb : b.final with
  | none => exact h.of_queue rfl rfl rfl hfin.2
  | some i =>
    have hcov : Covers c x i s.buffered := hfin.1 i hb
    refine ⟨(length_markSeg _ _).trans h.width, hfin.2, fun j hj => ?_, fun p hp => ?_, h.stored⟩
    · rcases segDone_markSeg hj with rfl | hj
      · exact hcov
      · exact h.bits j hj
    · exact (Option.some.inj hp).symm

end BitInv

/-! ## Storage tasks, as far as their rows go -/

section

variable (c : Config) (x : Chain)

/-- The queue row of an account with storage. -/
def QueueRow (a root : Hash) : Prop :=
  ∃ acc, IsAccount c x a acc ∧ x.hasStorage acc = true ∧ root = acc.root

/-- Slot rows of an account. -/
def SlotRows (a : Hash) (rows : List LoadRow) : Prop :=
  ∀ r ∈ rows, Genuine c x r ∧ ∃ k v, r = .baseSlot a k v

/-- A walker sends slot rows. -/
def WalkerRows (a : Hash) : Walker → Prop
  | .sending rows _ _ _ => SlotRows c x a rows
  | _ => True

def TaskRows (a : Hash) : TaskState → Prop
  | .warming w => WalkerRows c x a w
  | .fanned ws => ∀ w ∈ ws, WalkerRows c x a w
  | _ => True

/-- The rows of the queue that phase 2 has in its hands. -/
structure QueueInv (s : Load) : Prop where
  left : ∀ rows last, s.phase = .spawning rows last → ∀ row ∈ rows, QueueRow c x row.1 row.2
  tasks : ∀ t ∈ s.tasks, QueueRow c x t.addrHash t.root ∧ TaskRows c x t.addrHash t.state

end

/-- The rows of a page of storage leaves. -/
theorem slotRows_of_page {a root : Hash} {start : Bytes} {hi : Option Bytes} {r : LeafsResponse}
    {rows : List LoadRow} (hq : QueueRow c x a root) (hserve : Serves (x.trie root a) start r)
    (hrows : (truncateAt r hi).1.leaves.mapM (slotLeafRow x a) = .ok rows) : SlotRows c x a rows := by
  intro row hrow
  obtain ⟨m, hm, hslot⟩ := exists_of_mem_right (forall₂_of_mapM hrows) hrow
  obtain ⟨content, -, rfl⟩ := slotLeafRow_shape hslot
  obtain ⟨acc, hacc, hst, rfl⟩ := hq
  have hmem := (Leaves.mem_since.mp (hserve.initial.subset (truncateAt_subset hm))).1
  exact ⟨⟨acc, hacc, hst, m, hmem, hslot⟩, _, _, rfl⟩

theorem WalkerRows.step {a root : Hash} {maxReqs : Nat} {db : Env} {w w' : Walker}
    {out : Option Bundle} (hq : QueueRow c x a root)
    (hstep : WalkStep c x db a root maxReqs w out w') : WalkerRows c x a w' := by
  cases hstep with
  | @resume start end_ =>
    rw [resumeAt]
    split
    · split
      · trivial
      · split
        · trivial
        · split
          · trivial
          · split <;> trivial
    · trivial
  | capped hcap => trivial
  | page hcap hserve hrows => exact slotRows_of_page hq hserve hrows
  | @send rows v end_ n => cases v <;> trivial

theorem TaskRows.step {a root : Hash} {db : Env} {st st' : TaskState} {out : Option Bundle}
    {ev : Option Event} (hq : QueueRow c x a root) (h : TaskRows c x a st)
    (hstep : TaskStep c x db a root st out ev st') : TaskRows c x a st' := by
  cases hstep with
  | warm hstep => exact WalkerRows.step hq hstep
  | whole => trivial
  | fan hsplit =>
    intro w hw
    obtain ⟨r, -, rfl⟩ := List.mem_map.mp hw
    trivial
  | sub hstep =>
    intro w hw
    rcases List.mem_append.mp hw with hw | hw
    · exact h w (by simp [hw])
    · rcases List.mem_cons.mp hw with rfl | hw
      · exact WalkerRows.step hq hstep
      · exact h w (by simp [hw])
  | joined hall => trivial
  | dequeue => trivial

/-- What a task sends: slot rows, or in the end the deletion of its queue row. -/
theorem TaskRows.sends {a root : Hash} {db : Env} {st st' : TaskState} {b : Bundle}
    {ev : Option Event} (h : TaskRows c x a st) (hstep : TaskStep c x db a root st (some b) ev st') :
    b.final = none ∧ b.barrier = false ∧
      (SlotRows c x a b.apply ∨ b.apply = [.dequeueStorage a] ∧ ev = some (.dequeue a)) := by
  cases hstep with
  | warm hstep =>
    cases hstep with
    | send => exact ⟨rfl, rfl, Or.inl h⟩
  | sub hstep =>
    cases hstep with
    | @send rows v end_ n =>
      have hw : WalkerRows c x a (.sending rows v end_ n) := h _ (by simp)
      exact ⟨rfl, rfl, Or.inl hw⟩
  | dequeue => exact ⟨rfl, rfl, Or.inr ⟨rfl, rfl⟩⟩

/-- What a segment worker sends. -/
theorem SegStep.sends {w w' : SegWorker} {claims claims' : List Hash} {b : Bundle}
    (hstep : SegStep c x i (w, claims) (some b) (w', claims')) :
    b.barrier = false ∧ (b.final = none ∧ (∃ rows v, w = .sending (b.apply :: rows) v) ∨
      b.final = some i ∧ b.apply = [] ∧ w = .closing) := by
  cases hstep with
  | send => exact ⟨rfl, Or.inl ⟨rfl, _, _, rfl⟩⟩
  | close => exact ⟨rfl, Or.inr ⟨rfl, rfl, rfl⟩⟩

end Flatstate.Sync
