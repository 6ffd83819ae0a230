import Flatstate.Sync.Resume

set_option autoImplicit false

/-!
# Sync: the storage phase

A storage task walks its trie from the bottom; a giant is split where the warm-up stopped, and
each sub-range is walked from its own start.  So at any time the committed slots of an account
are an initial part of the trie, except above the starts of sub-ranges: a leaf is missing below
a committed one only if some split had a sub-range start between the two (`Slots.closed`).

A sub-range walk of a later run takes the greatest committed slot of its range for a watermark.
That is sound as long as no other split of the same trie had a sub-range start inside the range.
A split depends on where the warm-up stopped, and so on how the peers cut their responses.
-/

namespace Flatstate.Sync

open Foundation Schema Store

section

variable (c : Config) (x : Chain)

/-- The slot row of a storage leaf is in the store. -/
def SlotStored (e : Env) (a : Hash) (m : Leaf) : Prop := ∃ r, slotLeafRow x a m = .ok r ∧ Has c e r

/-- All slots of a storage trie are in the store. -/
def Complete (e : Env) (a root : Hash) : Prop := ∀ m ∈ (x.trie root a).list, SlotStored c x e a m

/-- Some split of the account had a sub-range start above `lo` and not above `hi`. -/
def SplitBetween (es : List Event) (a : Hash) (lo hi : Bytes) : Prop :=
  ∃ k ranges, Event.fan a k ∈ es ∧ splitRange k c.splitWays = some ranges ∧
    ∃ r ∈ ranges, lo < r.1 ∧ r.1 ≤ hi

/-- What every store on the way looks like, as far as slots go. -/
structure Slots (es : List Event) (e : Env) : Prop where
  closed : ∀ a root, QueueRow c x a root → ∀ m ∈ (x.trie root a).list,
    ∀ m' ∈ (x.trie root a).list, m'.1 < m.1 → SlotStored c x e a m →
    SlotStored c x e a m' ∨ SplitBetween c es a m'.1 m.1
  drained : ∀ a root, QueueRow c x a root → row e (.storageQueue a) = none →
    row e (.baseAccount a) ≠ none → Complete c x e a root

/-- All splits of an account are at the same key. -/
def Agreed (es : List Event) : Prop :=
  ∀ a k k', Event.fan a k ∈ es → Event.fan a k' ∈ es → k = k'

end

variable {c : Config} {x : Chain} {es : List Event} {e e' : Env} {a root : Hash} {m m' : Leaf}

/-! ## Stored slots -/

theorem QueueRow.unique {root' : Hash} (h : QueueRow c x a root) (h' : QueueRow c x a root') :
    root = root' := by
  obtain ⟨acc, hacc, -, rfl⟩ := h
  obtain ⟨acc', hacc', -, rfl⟩ := h'
  rw [hacc.unique hacc']

theorem slotLeafRow_target {r : LoadRow} (h : slotLeafRow x a m = .ok r) (height : UInt64) :
    r.target height = .baseSlot a (bytesToHash m.1) := by
  obtain ⟨content, -, rfl⟩ := slotLeafRow_shape h
  rfl

theorem genuine_slot {r : LoadRow} (hq : QueueRow c x a root) (hm : m ∈ (x.trie root a).list)
    (h : slotLeafRow x a m = .ok r) : Genuine c x r ∧ fixedRow r = true := by
  obtain ⟨content, -, rfl⟩ := slotLeafRow_shape h
  obtain ⟨acc, hacc, hst, rfl⟩ := hq
  exact ⟨⟨acc, hacc, hst, m, hm, h⟩, rfl⟩

theorem SlotStored.foldl (hq : QueueRow c x a root) (hm : m ∈ (x.trie root a).list)
    {ops : List BlOp} (hops : ∀ op ∈ ops, GenuineOp c x op) (h : SlotStored c x e a m) :
    SlotStored c x (ops.foldl BlOp.run e) a m := by
  obtain ⟨r, hr, hhas⟩ := h
  obtain ⟨hgen, hfix⟩ := genuine_slot hq hm hr
  exact ⟨r, hr, hhas.foldl hgen hfix hops⟩

theorem SlotStored.run (hq : QueueRow c x a root) (hm : m ∈ (x.trie root a).list) {r : LoadRow}
    (hr : Genuine c x r) (h : SlotStored c x e a m) : SlotStored c x ((r.op c.height).run e) a m := by
  obtain ⟨r', hr', hhas⟩ := h
  obtain ⟨hgen, hfix⟩ := genuine_slot hq hm hr'
  exact ⟨r', hr', hhas.run hgen hfix hr⟩

theorem SlotStored.agree (hq : QueueRow c x a root) (hm : m ∈ (x.trie root a).list)
    (hag : Agree e e') (h : SlotStored c x e a m) : SlotStored c x e' a m := by
  obtain ⟨r, hr, hhas⟩ := h
  exact ⟨r, hr, hhas.agree (genuine_slot hq hm hr).1 hag⟩

theorem slotStored_run_of_ne {r : LoadRow}
    (h : r.target c.height ≠ .baseSlot a (bytesToHash m.1))
    (hs : SlotStored c x ((r.op c.height).run e) a m) : SlotStored c x e a m := by
  obtain ⟨r', hr', hhas⟩ := hs
  have hrow : row ((r.op c.height).run e) (r'.target c.height) = row e (r'.target c.height) := by
    refine row_run_of_ne e ?_
    rw [slotLeafRow_target hr']
    exact h.symm
  exact ⟨r', hr', hrow.symm.trans hhas⟩

/-- In an exact store a slot row is that of its leaf. -/
theorem Exact.slotStored (h : Exact c x e) (hq : QueueRow c x a root) {k : Hash}
    (hne : row e (.baseSlot a k) ≠ none) :
    ∃ m ∈ (x.trie root a).list, m.1 = k.1 ∧ SlotStored c x e a m := by
  obtain ⟨v, hv⟩ := Option.ne_none_iff_exists'.mp hne
  obtain ⟨r, hr, ht, hval⟩ := h (.baseSlot a k) v (by rw [Row.space]; decide) hv
  cases r with
  | baseSlot a' k' v' =>
    obtain ⟨rfl, rfl⟩ := Row.baseSlot.inj ht
    obtain ⟨acc, hacc, hst, m, hm, hrow⟩ := hr
    obtain rfl := hq.unique ⟨acc, hacc, hst, rfl⟩
    obtain ⟨-, rfl, -⟩ := slotLeafRow_ok hrow
    refine ⟨m, hm, (bytesToHash_of_length (Leaves.width _ m hm)).symm, _, hrow, hv.trans hval.symm⟩
  | _ => cases ht

/-- After genuine rows are written, each of them is there. -/
theorem has_of_mem_rows {rows : List LoadRow} (hrows : ∀ r ∈ rows, Genuine c x r) {r : LoadRow}
    (hr : r ∈ rows) (hfix : fixedRow r = true) :
    Has c ((rows.map (LoadRow.op c.height)).foldl BlOp.run e) r := by
  induction rows generalizing e with
  | nil => simp at hr
  | cons r' rows ih =>
    rw [List.forall_mem_cons] at hrows
    rw [List.map_cons, List.foldl_cons]
    by_cases hin : r ∈ rows
    · exact ih hrows.2 hin
    · obtain rfl : r = r' := (List.mem_cons.mp hr).resolve_right hin
      refine (has_run_self e r).foldl hrows.1 hfix fun op hop => ?_
      obtain ⟨r', hr', rfl⟩ := List.mem_map.mp hop
      exact ⟨r', hrows.2 r' hr', rfl⟩

/-! ## One row more -/

namespace Slots

theorem mono {es' : List Event} (h : Slots c x es e) (hsub : ∀ ev ∈ es, ev ∈ es') :
    Slots c x es' e := by
  refine ⟨fun a root hq m hm m' hm' hlt hs => ?_, h.drained⟩
  rcases h.closed a root hq m hm m' hm' hlt hs with hst | ⟨k, ranges, hfan, hsplit⟩
  · exact Or.inl hst
  · exact Or.inr ⟨k, ranges, hsub _ hfan, hsplit⟩

theorem unmeta (es : List Event) : Unmeta (Slots c x es) := by
  intro e e' hag h
  constructor
  · intro a root hq m hm m' hm' hlt hs
    exact (h.closed a root hq m hm m' hm' hlt (hs.agree hq hm hag.symm)).imp_left
      fun hst => hst.agree hq hm' hag
  · intro a root hq hqueue hacct m hm
    rw [← hag.row (r := .storageQueue a) (by rw [Row.space]; decide)] at hqueue
    rw [← hag.row (r := .baseAccount a) (by rw [Row.space]; decide)] at hacct
    exact (h.drained a root hq hqueue hacct m hm).agree hq hm hag

theorem empty : Slots c x es OrdMap.empty := by
  constructor
  · rintro a root hq m hm m' hm' hlt ⟨r, hr, hhas⟩
    obtain ⟨content, -, rfl⟩ := slotLeafRow_shape hr
    rw [Has, row_empty] at hhas
    cases hhas
  · intro a root hq hqueue hacct
    exact absurd (row_empty _) hacct

/-- A row keeps the order of the slots if it is no slot row, or nothing below it is missing but
for a split; it keeps the queue honest if it deletes the queue row of a complete account only,
and adds an account with storage only behind its queue row. -/
theorem run (h : Slots c x es e) {r : LoadRow} (hr : Genuine c x r)
    (hslot : ∀ a root, QueueRow c x a root → ∀ m ∈ (x.trie root a).list,
      r.target c.height = .baseSlot a (bytesToHash m.1) → ∀ m' ∈ (x.trie root a).list,
      m'.1 < m.1 → SlotStored c x e a m' ∨ SplitBetween c es a m'.1 m.1)
    (hqueue : ∀ a root, QueueRow c x a root → r.target c.height = .storageQueue a →
      r.value = none → Complete c x e a root)
    (hacct : ∀ a root, QueueRow c x a root → r.target c.height = .baseAccount a →
      row e (.storageQueue a) ≠ none) : Slots c x es ((r.op c.height).run e) := by
  constructor
  · intro a root hq m hm m' hm' hlt hs
    have hbefore : SlotStored c x e a m' ∨ SplitBetween c es a m'.1 m.1 := by
      by_cases ht : r.target c.height = .baseSlot a (bytesToHash m.1)
      · exact hslot a root hq m hm ht m' hm' hlt
      · exact h.closed a root hq m hm m' hm' hlt (slotStored_run_of_ne ht hs)
    exact hbefore.imp_left fun hst => hst.run hq hm' hr
  · intro a root hq hnone hne
    have hbefore : Complete c x e a root := by
      rw [row_run] at hnone
      split at hnone
      · rename_i ht
        exact hqueue a root hq ht.symm hnone
      · refine h.drained a root hq hnone ?_
        rw [row_run] at hne
        split at hne
        · rename_i ht
          exact absurd hnone (hacct a root hq ht.symm)
        · exact hne
    exact fun m hm => (hbefore m hm).run hq hm hr

theorem code (h : Slots c x es e) {hash : Hash} {blob : Bytes}
    (hr : Genuine c x (.code hash blob)) :
    Slots c x es (((LoadRow.code hash blob).op c.height).run e) := by
  refine h.run hr ?_ ?_ ?_ <;> simp [LoadRow.target]

theorem queue (h : Slots c x es e) {a root : Hash} (hr : Genuine c x (.queueStorage a root)) :
    Slots c x es (((LoadRow.queueStorage a root).op c.height).run e) := by
  refine h.run hr ?_ ?_ ?_ <;> simp [LoadRow.target, LoadRow.value]

/-- An account row behind its queue row. -/
theorem account (h : Slots c x es e) {l : Leaf} {acc : StateAccount}
    (hl : l ∈ (x.accounts c).list) (hacc : x.rlpAccount l.2 = some acc)
    (hqueue : x.hasStorage acc = true →
      row e (.storageQueue (bytesToHash l.1)) = some acc.root.1) :
    Slots c x es (((LoadRow.baseAccount (bytesToHash l.1) acc.row).op c.height).run e) := by
  refine h.run (genuine_account hl hacc) (by simp [LoadRow.target]) (by simp [LoadRow.target]) ?_
  rintro a root ⟨acc', hacc', hst, -⟩ ht
  obtain rfl := Row.baseAccount.inj ht
  obtain rfl := hacc'.unique ⟨l, hl, rfl, hacc⟩
  rw [hqueue hst]
  simp

/-- A queue row is deleted once its account is complete. -/
theorem dequeue (h : Slots c x es e) (hq : QueueRow c x a root) (hall : Complete c x e a root) :
    Slots c x es (((LoadRow.dequeueStorage a).op c.height).run e) := by
  have hgen : Genuine c x (.dequeueStorage a) := by
    obtain ⟨acc, hacc, hst, -⟩ := hq
    exact ⟨acc, hacc, hst⟩
  refine h.run hgen (by simp [LoadRow.target]) ?_ (by simp [LoadRow.target])
  intro a' root' hq' ht _
  obtain rfl := Row.storageQueue.inj ht
  obtain rfl := hq.unique hq'
  exact hall

/-- The next slot of a walk, all slots below it being there but for a split. -/
theorem slot (h : Slots c x es e) (hq : QueueRow c x a root) (hm : m ∈ (x.trie root a).list)
    {r : LoadRow} (hr : slotLeafRow x a m = .ok r)
    (hbelow : ∀ m' ∈ (x.trie root a).list, m'.1 < m.1 →
      SlotStored c x e a m' ∨ SplitBetween c es a m'.1 m.1) :
    Slots c x es ((r.op c.height).run e) := by
  have ht := slotLeafRow_target hr c.height
  refine h.run (genuine_slot hq hm hr).1 ?_ (by simp [ht]) (by simp [ht])
  intro a' root' hq' m₁ hm₁ ht' m' hm' hlt
  rw [ht] at ht'
  obtain ⟨rfl, hkey⟩ := Row.baseSlot.inj ht'
  obtain rfl := hq.unique hq'
  obtain rfl := Leaves.eq_of_key _ hm hm₁ (key_of_bytesToHash hm hm₁ hkey)
  exact hbelow m' hm' hlt

/-- The page of a walk from `lo`: it is in key order, and below `lo` only a split has left
anything out. -/
theorem along_page (h : Slots c x es e) (hq : QueueRow c x a root) {lo : Bytes}
    {hi next : Option Bytes} {page : List Leaf} {rows : List LoadRow}
    (hrows : List.Forall₂ (fun m r => slotLeafRow x a m = .ok r) page rows)
    (htodo : Todo Prod.fst (InRange (x.trie root a) lo hi) (SlotStored c x e a) page next)
    (hfloor : ∀ k q : Bytes, k < lo → lo ≤ q → SplitBetween c es a k q) :
    Along BlOp.run (Slots c x es) e (rows.map (LoadRow.op c.height)) := by
  -- along the page, with the leaf at hand done before the next
  induction hrows generalizing e with
  | nil => exact h
  | @cons m r page rows hr hrest ih =>
    obtain ⟨hm, hlo, hhi⟩ := htodo.mem m List.mem_cons_self
    have hgen := (genuine_slot hq hm hr).1
    have hnext : Slots c x es ((r.op c.height).run e) := by
      refine h.slot hq hm hr fun m' hm' hlt => ?_
      rcases lt_or_ge m'.1 lo with hlt' | hge
      · exact Or.inr (hfloor _ _ hlt' hlo)
      · exact Or.inl (htodo.below ⟨hm', hge, fun h hh => hlt.le.trans (hhi h hh)⟩ hlt)
    refine ⟨h, ih hnext ?_⟩
    have hkeep : Todo Prod.fst (InRange (x.trie root a) lo hi)
        (SlotStored c x ((r.op c.height).run e) a) (m :: page) next :=
      htodo.mono fun m' hm' hs => hs.run hq hm'.1 hgen
    exact hkeep.tail ⟨r, hr, has_run_self e r⟩

/-- The watermark of a range no split cuts: everything of the range up to it is there. -/
theorem watermark (h : Slots c x es e) (hex : Exact c x e) (hq : QueueRow c x a root) {lo : Bytes}
    {hi : Option Bytes} (hhi : ∀ b, hi = some b → b.length = 32)
    (hwhole : ∀ k q : Bytes, lo ≤ k → (∀ b, hi = some b → q ≤ b) → ¬ SplitBetween c es a k q)
    {wm : Hash} (hwm : maxBaseSlot e a lo hi = some wm)
    (hm : InRange (x.trie root a) lo hi m) (hle : m.1 ≤ wm.1) : SlotStored c x e a m := by
  obtain ⟨hrow, -, htop⟩ := maxBaseSlot_eq_some hwm
  obtain ⟨m₀, hm₀, hkey, hs⟩ := hex.slotStored hq hrow
  rcases lt_or_eq_of_le hle with hlt | heq
  · rw [← hkey] at hlt htop
    refine (h.closed a root hq m₀ hm₀ m hm.1 hlt hs).resolve_right ?_
    exact hwhole _ _ hm.2.1 fun b hb => sliceKey_of_length (hhi b hb) ▸ htop b hb
  · rw [Leaves.eq_of_key _ hm.1 hm₀ (heq.trans hkey.symm)]
    exact hs

end Slots

/-! ## Walkers -/

section

variable (c : Config) (x : Chain)

/-- Where a walk of the range from `lo` to `hi` stands, with the store as it will be. -/
def WalkInv (a root : Hash) (cap : Nat) (lo : Bytes) (hi : Option Bytes) (e : Env) : Walker → Prop
  | .opening start end_ => start = lo ∧ end_ = hi
  | .asking start end_ n =>
    end_ = hi ∧ lo ≤ start ∧ (0 < n → start.length = 32) ∧
      Todo Prod.fst (InRange (x.trie root a) lo hi) (SlotStored c x e a) [] (some start)
  | .sending rows v end_ _ =>
    end_ = hi ∧ ∃ page next, v = .ofNext next ∧
      List.Forall₂ (fun m r => slotLeafRow x a m = .ok r) page rows ∧
      (∀ k, next = some k → k.length = 32 ∧ lo ≤ k) ∧
      Todo Prod.fst (InRange (x.trie root a) lo hi) (SlotStored c x e a) page next
  | .ended none => ∀ m, InRange (x.trie root a) lo hi m → SlotStored c x e a m
  | .ended (some k) =>
    0 < cap ∧ k.length = 32 ∧
      Todo Prod.fst (InRange (x.trie root a) lo hi) (SlotStored c x e a) [] (some k)
  | .failed => True

/-- Where a storage task stands. -/
def TaskInv (es : List Event) (a root : Hash) (e : Env) : TaskState → Prop
  | .warming w => WalkInv c x a root c.splitAfter [] none e w
  | .fanned ws =>
    ∃ k ranges, Event.fan a k ∈ es ∧ k.length = 32 ∧ splitRange k c.splitWays = some ranges ∧
      (∀ m ∈ (x.trie root a).list, m.1 < k → SlotStored c x e a m) ∧
      List.Forall₂ (fun w r => r ∈ ranges ∧ WalkInv c x a root 0 r.1 r.2 e w) ws ranges
  | .dequeuing => Complete c x e a root
  | .ended => True

end

theorem WalkInv.mono {cap : Nat} {lo : Bytes} {hi : Option Bytes} {w : Walker}
    (h : WalkInv c x a root cap lo hi e w)
    (hkeep : ∀ m ∈ (x.trie root a).list, SlotStored c x e a m → SlotStored c x e' a m) :
    WalkInv c x a root cap lo hi e' w := by
  have hin : ∀ m, InRange (x.trie root a) lo hi m → SlotStored c x e a m → SlotStored c x e' a m :=
    fun m hm => hkeep m hm.1
  cases w with
  | opening start end_ => exact h
  | asking start end_ n =>
    obtain ⟨hend, hlo, hlen, htodo⟩ := h
    exact ⟨hend, hlo, hlen, htodo.mono hin⟩
  | sending rows v end_ n =>
    obtain ⟨hend, page, next, hv, hrows, hnext, htodo⟩ := h
    exact ⟨hend, page, next, hv, hrows, hnext, htodo.mono hin⟩
  | ended next =>
    cases next with
    | none => exact fun m hm => hin m hm (h m hm)
    | some k =>
      obtain ⟨hcap, hlen, htodo⟩ := h
      exact ⟨hcap, hlen, htodo.mono hin⟩
  | failed => trivial

theorem TaskInv.mono {es' : List Event} {st : TaskState} (h : TaskInv c x es a root e st)
    (hes : ∀ ev ∈ es, ev ∈ es')
    (hkeep : ∀ m ∈ (x.trie root a).list, SlotStored c x e a m → SlotStored c x e' a m) :
    TaskInv c x es' a root e' st := by
  cases st with
  | warming w => exact WalkInv.mono h hkeep
  | fanned ws =>
    obtain ⟨k, ranges, hfan, hlen, hsplit, hbelow, hws⟩ := h
    refine ⟨k, ranges, hes _ hfan, hlen, hsplit, fun m hm hlt => hkeep m hm (hbelow m hm hlt), ?_⟩
    exact hws.imp fun w r hwr => ⟨hwr.1, hwr.2.mono hkeep⟩
  | dequeuing => exact fun m hm => hkeep m hm (h m hm)
  | ended => trivial

/-- Where a walk begins. -/
theorem WalkInv.resume {cap : Nat} {lo : Bytes} {hi : Option Bytes} {db : Env}
    (hwm : cap = 0 → c.noStorageResume = false → ∀ wm, maxBaseSlot db a lo hi = some wm →
      ∀ m, InRange (x.trie root a) lo hi m → m.1 ≤ wm.1 → SlotStored c x e a m) :
    WalkInv c x a root cap lo hi e (resumeAt c db a cap lo hi) := by
  have hbottom : WalkInv c x a root cap lo hi e (.asking lo hi 0) := by
    refine ⟨rfl, le_rfl, fun hn => absurd hn (lt_irrefl 0), .resume fun m hm hlt => ?_⟩
    exact absurd hlt (not_lt.mpr hm.2.1)
  unfold resumeAt
  split
  · rename_i hcond
    split
    · exact hbottom
    · rename_i wm hsome
      have hdone := hwm hcond.1 hcond.2 wm hsome
      have hwidth : ∀ m, InRange (x.trie root a) lo hi m → m.1.length = wm.1.length :=
        fun m hm => (Leaves.width _ m hm.1).trans wm.2.symm
      split
      · rename_i hinc
        exact fun m hm => hdone m hm (le_of_incKey_none hinc (hwidth m hm))
      · rename_i next hinc
        have hbelow : ∀ m, InRange (x.trie root a) lo hi m → m.1 < next → SlotStored c x e a m :=
          fun m hm hlt => hdone m hm (not_lt.mp fun hgt =>
            absurd hlt (not_lt.mpr (incKey_le hinc (hwidth m hm) hgt)))
        split
        · rename_i hend
          obtain ⟨b, hb, -, hlt⟩ := hend
          exact fun m hm => hbelow m hm ((hm.2.2 b hb).trans_lt hlt)
        · split
          · rename_i hlt
            exact ⟨rfl, hlt.le, fun hn => absurd hn (lt_irrefl 0), .resume hbelow⟩
          · exact hbottom
  · exact hbottom

/-- A step of a walk, with the store as it will be after what it sends. -/
theorem WalkInv.step {cap : Nat} {lo : Bytes} {hi : Option Bytes} {db : Env} {w w' : Walker}
    {out : Option Bundle} (hstep : WalkStep c x db a root cap w out w')
    (h : WalkInv c x a root cap lo hi e w) (hhi : ∀ b, hi = some b → b.length = 32)
    (hwm : cap = 0 → c.noStorageResume = false → ∀ wm, maxBaseSlot db a lo hi = some wm →
      ∀ m, InRange (x.trie root a) lo hi m → m.1 ≤ wm.1 → SlotStored c x e a m)
    (hsent : ∀ b, out = some b → ∀ m r, r ∈ b.apply → slotLeafRow x a m = .ok r →
      m ∈ (x.trie root a).list → SlotStored c x e' a m)
    (hkeep : ∀ m ∈ (x.trie root a).list, SlotStored c x e a m → SlotStored c x e' a m) :
    WalkInv c x a root cap lo hi e' w' := by
  cases hstep with
  | resume =>
    obtain ⟨rfl, rfl⟩ := h
    exact (WalkInv.resume hwm).mono hkeep
  | capped hcap =>
    obtain ⟨-, -, hlen, htodo⟩ := h.mono hkeep
    exact ⟨hcap.1, hlen (hcap.1.trans_le hcap.2), htodo⟩
  | page hcap hserve hrows =>
    obtain ⟨rfl, hlo, -, htodo⟩ := h.mono hkeep
    obtain ⟨next, hv, htodo, hnext⟩ := paged hserve hlo (fun hb => by cases hhi [] hb) htodo
    exact ⟨rfl, _, next, hv, forall₂_of_mapM hrows,
      fun k hk => ⟨(hnext k hk).1, hlo.trans (hnext k hk).2.le⟩, htodo⟩
  | @send rows v end_ n =>
    obtain ⟨rfl, page, next, rfl, hforall, hnext, htodo⟩ := h
    have hdone : ∀ m ∈ page, SlotStored c x e' a m := by
      intro m hm
      obtain ⟨r, hr, hmr⟩ := exists_of_mem_right hforall.flip hm
      exact hsent _ rfl m r hr hmr (htodo.mem m hm).1
    have hempty := (htodo.mono fun m hm => hkeep m hm.1).emptied hdone
    cases next with
    | none => exact fun m hm => hempty.all hm
    | some k => exact ⟨rfl, (hnext k rfl).2, fun _ => (hnext k rfl).1, hempty⟩

/-- The leaves of the page a walk sends. -/
theorem WalkInv.sends {cap : Nat} {lo : Bytes} {hi : Option Bytes} {db : Env} {w w' : Walker}
    {b : Bundle} (hstep : WalkStep c x db a root cap w (some b) w')
    (h : WalkInv c x a root cap lo hi e w) :
    ∃ page next, List.Forall₂ (fun m r => slotLeafRow x a m = .ok r) page b.apply ∧
      Todo Prod.fst (InRange (x.trie root a) lo hi) (SlotStored c x e a) page next := by
  cases hstep with
  | send =>
    obtain ⟨-, page, next, -, hforall, -, htodo⟩ := h
    exact ⟨page, next, hforall, htodo⟩

/-! ## Tasks -/

section Task

variable {db : Env} {st st' : TaskState} {out : Option Bundle} {ev : Option Event}

/-- Within a sub-range of a split no split of the account starts another. -/
theorem not_splitBetween (hag : Agreed es) {k : Bytes} {ranges : List (Bytes × Option Bytes)}
    (hfan : Event.fan a k ∈ es) (hsplit : splitRange k c.splitWays = some ranges)
    {r : Bytes × Option Bytes} (hr : r ∈ ranges) {lo hi : Bytes} (hlo : r.1 ≤ lo)
    (hhi : ∀ b, r.2 = some b → hi ≤ b) : ¬ SplitBetween c es a lo hi := by
  rintro ⟨k', ranges', hfan', hsplit', r', hr', hlt, hle⟩
  obtain rfl := hag a k k' hfan hfan'
  obtain rfl := Option.some.inj (hsplit.symm.trans hsplit')
  obtain ⟨b, hb, hlt'⟩ := (splitRange_tiles hsplit).apart hr hr' (hlo.trans_lt hlt)
  exact absurd (hle.trans (hhi b hb)) (not_le.mpr hlt')

/-- What the watermarks of a task rely on: the committed slots, the splits so far, and that the
committed slots are in the store as it will be. -/
structure Resumable (c : Config) (x : Chain) (es : List Event) (a root : Hash) (db e : Env) :
    Prop where
  queue : QueueRow c x a root
  slots : Slots c x es db
  exact : Exact c x db
  agreed : c.noStorageResume = true ∨ Agreed es
  fans : ∀ k, Event.fan a k ∈ es → 0 < c.splitAfter
  ahead : ∀ m ∈ (x.trie root a).list, SlotStored c x db a m → SlotStored c x e a m

/-- The watermark of a sub-range skips nothing that is not committed. -/
theorem Resumable.sub (h : Resumable c x es a root db e) {k : Bytes}
    {ranges : List (Bytes × Option Bytes)} (hfan : Event.fan a k ∈ es) (hlen : k.length = 32)
    (hsplit : splitRange k c.splitWays = some ranges) {r : Bytes × Option Bytes} (hr : r ∈ ranges)
    (hresume : c.noStorageResume = false) {wm : Hash} (hwm : maxBaseSlot db a r.1 r.2 = some wm)
    {m : Leaf} (hm : InRange (x.trie root a) r.1 r.2 m) (hle : m.1 ≤ wm.1) :
    SlotStored c x db a m := by
  have hag : Agreed es := h.agreed.resolve_left fun htrue => by
    rw [hresume] at htrue
    cases htrue
  refine h.slots.watermark h.exact h.queue (fun b hb => ?_) (fun k' q hlo hhi => ?_) hwm hm hle
  · rw [← hlen]
    exact ((splitRange_tiles hsplit).bounds hr).2.2 b hb
  · exact not_splitBetween hag hfan hsplit hr hlo hhi

/-- A warm-up takes a watermark only where no giant is ever split. -/
theorem Resumable.warm (h : Resumable c x es a root db e) (hcap : c.splitAfter = 0) {wm : Hash}
    (hwm : maxBaseSlot db a [] none = some wm) {m : Leaf}
    (hm : InRange (x.trie root a) [] none m) (hle : m.1 ≤ wm.1) : SlotStored c x db a m := by
  refine h.slots.watermark h.exact h.queue (fun b hb => by cases hb) ?_ hwm hm hle
  rintro k q - - ⟨k', ranges, hfan, -⟩
  have hpos := h.fans k' hfan
  omega

theorem TaskInv.step (hstep : TaskStep c x db a root st out ev st')
    (h : TaskInv c x es a root e st) (hres : Resumable c x es a root db e)
    (hsent : ∀ b, out = some b → ∀ m r, r ∈ b.apply → slotLeafRow x a m = .ok r →
      m ∈ (x.trie root a).list → SlotStored c x e' a m)
    (hkeep : ∀ m ∈ (x.trie root a).list, SlotStored c x e a m → SlotStored c x e' a m) :
    TaskInv c x (es ++ ev.toList) a root e' st' := by
  cases hstep with
  | warm hstep =>
    refine WalkInv.step hstep h (fun b hb => by cases hb) ?_ hsent hkeep
    exact fun hcap _ wm hwm m hm hle => hres.ahead m hm.1 (hres.warm hcap hwm hm hle)
  | whole =>
    exact fun m hm => hkeep m hm (h m ⟨hm, not_lt.mp (List.not_lt_nil _), fun b hb => by cases hb⟩)
  | @fan start ranges hsplit =>
    obtain ⟨-, hlen, htodo⟩ := h
    refine ⟨start, ranges, by simp, hlen, hsplit, fun m hm hlt => hkeep m hm ?_, ?_⟩
    · exact htodo.before ⟨hm, not_lt.mp (List.not_lt_nil _), fun b hb => by cases hb⟩ hlt
    · rw [List.forall₂_map_left_iff]
      exact List.forall₂_same.mpr fun r hr => ⟨hr, rfl, rfl⟩
  | sub hstep =>
    obtain ⟨k, ranges, hfan, hlen, hsplit, hbelow, hws⟩ := h
    refine ⟨k, ranges, by simp [hfan], hlen, hsplit, fun m hm hlt => hkeep m hm (hbelow m hm hlt), ?_⟩
    refine forall₂_replace hws (fun w r hwr => ⟨hwr.1, hwr.2.mono hkeep⟩) ?_
    rintro r ⟨hr, hwalk⟩
    refine ⟨hr, hwalk.step hstep (fun b hb => ?_) ?_ hsent hkeep⟩
    · rw [← hlen]
      exact ((splitRange_tiles hsplit).bounds hr).2.2 b hb
    · exact fun _ hresume wm hwm m hm hle =>
        hres.ahead m hm.1 (hres.sub hfan hlen hsplit hr hresume hwm hm hle)
  | joined hall =>
    obtain ⟨k, ranges, -, hlen, hsplit, hbelow, hws⟩ := h
    intro m hm
    refine hkeep m hm ?_
    rcases lt_or_ge m.1 k with hlt | hge
    · exact hbelow m hm hlt
    · have hwidth : m.1.length = k.length := (Leaves.width _ m hm).trans hlen.symm
      obtain ⟨r, hr, hlo, hhi⟩ := (splitRange_tiles hsplit).covers hwidth
        ((beDecode_le_iff hwidth.symm).mpr hge)
      obtain ⟨w, hw, -, hwalk⟩ := exists_of_mem_right hws hr
      rw [hall w hw] at hwalk
      exact hwalk m ⟨hm, hlo, hhi⟩
  | dequeue => trivial

/-- What a task sends keeps the order of slots and the queue honest. -/
theorem TaskInv.along {b : Bundle} (hstep : TaskStep c x db a root st (some b) ev st')
    (h : TaskInv c x es a root e st) (hq : QueueRow c x a root) (hslots : Slots c x es e) :
    Along BlOp.run (Slots c x es) e (b.apply.map (LoadRow.op c.height)) := by
  cases hstep with
  | warm hstep =>
    obtain ⟨page, next, hrows, htodo⟩ := WalkInv.sends hstep h
    exact hslots.along_page hq hrows htodo fun k q hlt => absurd hlt (List.not_lt_nil k)
  | sub hstep =>
    obtain ⟨k, ranges, hfan, -, hsplit, -, hws⟩ := h
    obtain ⟨r, -, hr, hwalk⟩ := exists_of_mem_right hws.flip (List.mem_append_right _ List.mem_cons_self)
    obtain ⟨page, next, hrows, htodo⟩ := hwalk.sends hstep
    exact hslots.along_page hq hrows htodo fun k' q hlt hle =>
      ⟨k, ranges, hfan, hsplit, r, hr, hlt, hle⟩
  | dequeue => exact ⟨hslots, hslots.dequeue hq h⟩

end Task

/-! ## The run -/

/-- The invariant of a run, as far as slots go. -/
structure SlotInv (c : Config) (x : Chain) (es : List Event) (s : Load) : Prop where
  flow : Flow c x (Slots c x es) s
  tasks : ∀ t ∈ s.tasks, TaskInv c x es t.addrHash t.root s.view t.state
  fans : ∀ a k, Event.fan a k ∈ es → 0 < c.splitAfter

namespace SlotInv

variable {s s' : Load} {ev : Option Event} {rows : List LoadRow}

/-- The appended rows keep the order of slots and the queue honest. -/
theorem emits (h : SlotInv c x es s) (hacc : AccInv c x es s) (hem : Emits c x s ev rows) :
    Along BlOp.run (Slots c x es) s.view (rows.map (LoadRow.op c.height)) := by
  have hview : Slots c x es s.view := h.flow.at_view
  have hgen := (hacc.emits hem).1
  cases hem with
  | nothing => exact hview
  | @segment i b w claims hphase hstep =>
    obtain ⟨-, ⟨-, rows, v, hw⟩ | ⟨-, hnil, -⟩⟩ := hstep.sends
    · have hseg := hacc.segs i
      rw [hw] at hseg
      obtain ⟨l, hrows, hl, -⟩ := hseg.sends
      refine hrows.along hl.1 hview ?_ ?_ ?_
      · exact fun e hash blob hr he => he.code hr
      · exact fun e a root hr he => he.queue hr
      · exact fun e acc hacc' _ hqueue he => he.account hl.1 hacc' hqueue
    · rw [hnil]
      exact hview
  | @work t b st ht hstep => exact (h.tasks t ht).along hstep (hacc.queue.tasks t ht).1 hview
  | sweep hrows =>
    refine Along.of_keeps (G := fun op => ∃ hash blob, Genuine c x (.code hash blob) ∧
      op = (LoadRow.code hash blob).op c.height) hview ?_ ?_
    · intro op hop
      obtain ⟨r, hr, rfl⟩ := List.mem_map.mp hop
      obtain ⟨hash, blob, rfl, hblob⟩ := mem_sweepRows hrows hr
      exact ⟨hash, blob, hblob, rfl⟩
    · rintro e op ⟨hash, blob, hr, rfl⟩ he
      exact he.code hr

/-- What is in the view stays there. -/
theorem keep (hfl : Flows c x s s' rows) (hgen : ∀ r ∈ rows, Genuine c x r)
    (hq : QueueRow c x a root) (hm : m ∈ (x.trie root a).list) (hs : SlotStored c x s.view a m) :
    SlotStored c x s'.view a m := by
  refine (hs.foldl hq hm fun op hop => ?_).agree hq hm hfl.view
  obtain ⟨r, hr, rfl⟩ := List.mem_map.mp hop
  exact ⟨r, hgen r hr, rfl⟩

theorem resumable (h : SlotInv c x es s) (hag : c.noStorageResume = true ∨ Agreed es)
    (hq : QueueRow c x a root) : Resumable c x es a root s.db s.view where
  queue := hq
  slots := h.flow.now
  exact := h.flow.exact
  agreed := hag
  fans k := h.fans a k
  ahead _ hm hs := hs.foldl hq hm h.flow.genuine

theorem tasks_step (h : SlotInv c x es s) (hacc : AccInv c x es s)
    (hag : c.noStorageResume = true ∨ Agreed es) (hstep : Step c x s ev s')
    (hkeep : ∀ a root, QueueRow c x a root → ∀ m ∈ (x.trie root a).list,
      SlotStored c x s.view a m → SlotStored c x s'.view a m) :
    ∀ t ∈ s'.tasks, TaskInv c x (es ++ ev.toList) t.addrHash t.root s'.view t.state := by
  have hold : ∀ t ∈ s.tasks, TaskInv c x (es ++ ev.toList) t.addrHash t.root s'.view t.state :=
    fun t ht => (h.tasks t ht).mono (fun ev' hev => by simp [hev])
      (hkeep _ _ (hacc.queue.tasks t ht).1)
  cases hstep with
  | @task row left last hphase hlimit =>
    intro t ht
    rcases List.mem_append.mp ht with ht | ht
    · exact hold t ht
    · obtain rfl := List.mem_singleton.mp ht
      exact ⟨rfl, rfl⟩
  | @work before after t out ev st hphase htasks hroom hstep =>
    have ht : t ∈ s.tasks := by simp [htasks]
    have hq := (hacc.queue.tasks t ht).1
    intro t' ht'
    rcases List.mem_append.mp ht' with hin | hin
    · exact hold t' (by simp [htasks, hin])
    · rcases List.mem_cons.mp hin with rfl | hin
      · refine (h.tasks t ht).step hstep (h.resumable hag hq) ?_ (hkeep _ _ hq)
        rintro b rfl m r hr hslot hm
        have hfl : Flows c x s { s with
            tasks := before ++ { t with state := st } :: after
            writes := s.writes ++ [b] } b.apply := by
          refine .emit h.flow.height rfl rfl (s.rows_send b ?_)
          cases hp : s.phase <;> rw [hp] at hphase <;> first | rfl | cases hphase
        have hgen := (hacc.emits (.work ht hstep)).1
        obtain ⟨hr', hfix⟩ := genuine_slot hq hm hslot
        exact ⟨r, hslot, (has_of_mem_rows hgen hr hfix).agree hr' hfl.view⟩
      · exact hold t' (by simp [htasks, hin])
  | @applied b _ _ _ =>
    have hmark : (s.mark b.final).tasks = s.tasks := by cases b.final <;> rfl
    rw [hmark]
    exact hold
  | @fenced b _ _ _ _ =>
    have hmark : ((s.mark b.final).flush).tasks = s.tasks := by cases b.final <;> rfl
    rw [hmark]
    exact hold
  | _ => exact hold

/-- A giant is split only if its warm-up is capped. -/
theorem fans_step (h : SlotInv c x es s) (hstep : Step c x s ev s') :
    ∀ a k, Event.fan a k ∈ es ++ ev.toList → 0 < c.splitAfter := by
  intro a k hfan
  rcases List.mem_append.mp hfan with hfan | hfan
  · exact h.fans a k hfan
  · obtain rfl : ev = some (.fan a k) := by simpa using hfan
    cases hstep with
    | @work before after t out ev st hphase htasks hroom hstep =>
      have ht := h.tasks t (by simp [htasks])
      generalize t.state = st₀ at hstep ht
      cases hstep with
      | fan hsplit => exact ht.1

theorem step (h : SlotInv c x es s) (hacc : AccInv c x es s)
    (hag : c.noStorageResume = true ∨ Agreed es) (hstep : Step c x s ev s') :
    SlotInv c x (es ++ ev.toList) s' := by
  have hes : ∀ ev' ∈ es, ev' ∈ es ++ ev.toList := fun ev' hev => by simp [hev]
  obtain ⟨rows, hem, hfl⟩ := hstep.flows h.flow.height
  have hgen := (hacc.emits hem).1
  exact {
    flow := hfl.flow _ (Slots.unmeta _) (h.flow.imp fun e he => he.mono hes) hgen
      ((h.emits hacc hem).imp fun e he => he.mono hes)
    tasks := h.tasks_step hacc hag hstep fun a root hq m hm => keep hfl hgen hq hm
    fans := h.fans_step hstep }

end SlotInv

/-! ## Any number of runs -/

theorem Agreed.mono {es' : List Event} (h : Agreed es') (hsub : ∀ ev ∈ es, ev ∈ es') : Agreed es :=
  fun a k k' hk hk' => h a k k' (hsub _ hk) (hsub _ hk')

/-- A run begins with nothing on its way and no task. -/
theorem beginRun_idle {db : Env} {h : Handle} {s : Load} (hbegin : beginRun c h db = .ok s) :
    Agree db s.db ∧ s.ops = [] ∧ s.tasks = [] := by
  unfold beginRun at hbegin
  split at hbegin
  · cases hbegin
  · rename_i bl db' h' hnew
    obtain ⟨rfl, hdb, -⟩ := newBaseline_ok hnew
    have hag : Agree db db' := by
      rcases hdb with rfl | rfl
      · exact Agree.refl _
      · exact Agree.put_meta db (r := .genesis) rfl _
    dsimp only at hbegin
    split at hbegin
    · rw [← Except.ok.inj hbegin]
      exact ⟨hag, rfl, rfl⟩
    · split at hbegin
      · cases hbegin
      · rw [← Except.ok.inj hbegin]
        exact ⟨hag, rfl, rfl⟩

/-- The invariant, under a run or between two, while all splits of a giant agree. -/
theorem Reached.slots {site : Site} (h : Reached c x es site)
    (hag : c.noStorageResume = true ∨ Agreed es) :
    Slots c x es site.db ∧ (∀ a k, Event.fan a k ∈ es → 0 < c.splitAfter) ∧
      ∀ s, site = .running s → SlotInv c x es s := by
  induction h with
  | fresh =>
    exact ⟨Slots.empty, fun a k hfan => by simp at hfan, fun s hs => by cases hs⟩
  | @begin_ es db s hreach h hbegin ih =>
    obtain ⟨hslots, hfans, -⟩ := ih hag
    obtain ⟨hdb, hops, htasks⟩ := beginRun_idle hbegin
    have hacc : AccInv c x es s := (Reached.begin_ hreach h hbegin).inv
    have hslots' : Slots c x es s.db := Slots.unmeta es _ _ hdb hslots
    refine ⟨hslots', hfans, fun s' hs => ?_⟩
    obtain rfl := Site.running.inj hs
    refine ⟨{ hacc.flow with along := ?_ }, fun t ht => ?_, hfans⟩
    · rw [hops]
      exact hslots'
    · rw [htasks] at ht
      simp at ht
  | @step es s s' ev hreach hstep ih =>
    have hag' : c.noStorageResume = true ∨ Agreed es :=
      hag.imp_right fun h => h.mono fun ev' hev => by simp [hev]
    have hinv := ((ih hag').2.2 s rfl).step hreach.inv hag' hstep
    refine ⟨hinv.flow.now, hinv.fans, fun s₁ hs => ?_⟩
    obtain rfl := Site.running.inj hs
    exact hinv
  | cut _ ih =>
    obtain ⟨hslots, hfans, -⟩ := ih hag
    exact ⟨hslots, hfans, fun s hs => by cases hs⟩

end Flatstate.Sync
