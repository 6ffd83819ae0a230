import Flatstate.Mem.State
import Flatstate.Store.Build

set_option autoImplicit false

/-!
# Mem: layers are diffs, the base and the side buffers are pins

A layer says about a key exactly what its batch says (`newLayer_post`).  The base
map and the side buffers hold pins: values of keys read from the store at some
height.  Merging a buffer keeps pins, and `Map.Apply` is the batch's diff on the
pinned keys.

`PinsLag` is the one invariant of a tip view: every pinned value is the value of
its key at some height at or above the view's finalized height.  Every operation
of the view keeps it, and every read returns the layers over such a value
(`knownAccount_sees`, `knownSlot_sees`).
-/

namespace Flatstate.Mem

open Foundation Schema Capture Store

/-! ## Layers -/

/-- What a layer says about a key. -/
def Layer.post (l : Layer) : Diff Val
  | .account a => l.account a
  | .slot a s => l.slot a s

theorem Layer.account_congr {l l' : Layer} {a : Address} (h1 : l'.accounts a = l.accounts a)
    (h2 : l'.destructed a = l.destructed a) : l'.account a = l.account a := by
  rw [Layer.account, Layer.account, h1, h2]

theorem Layer.slot_congr {l l' : Layer} {a : Address} {s : Hash}
    (h1 : l'.slots a s = l.slots a s) (h2 : l'.destructed a = l.destructed a) :
    l'.slot a s = l.slot a s := by
  rw [Layer.slot, Layer.slot, h1, h2]

/-- Setting one slot leaves the others. -/
theorem update_slots_of_ne (f : Address → Hash → Option Hash) {a a' : Address} {s s' : Hash}
    (v : Option Hash) (h : ¬ (a' = a ∧ s' = s)) :
    Function.update f a (Function.update (f a) s v) a' s' = f a' s' := by
  by_cases ha : a' = a
  · subst ha
    rw [Function.update_self, Function.update_of_ne (fun hs => h ⟨rfl, hs⟩)]
  · rw [Function.update_of_ne ha]

/-- An op leaves what the layer says about the keys it does not touch. -/
theorem Layer.addOp_post_of_none (l : Layer) {op : Op} {k : Key} (h : op.post k = none) :
    (l.addOp op).post k = l.post k := by
  cases k with
  | account a' =>
    cases op with
    | account a acct =>
      have ha : a' ≠ a := by rintro rfl; simp [Op.post] at h
      exact Layer.account_congr (Function.update_of_ne ha _ _) rfl
    | destruct a =>
      have ha : a' ≠ a := by rintro rfl; simp [Key.addr] at h
      exact Layer.account_congr (Function.update_of_ne ha _ _) (Function.update_of_ne ha _ _)
    | _ => rfl
  | slot a' s' =>
    cases op with
    | slot a s _ | deleteSlot a s =>
      have has : ¬ (a' = a ∧ s' = s) := by rintro ⟨rfl, rfl⟩; simp [Op.post] at h
      exact Layer.slot_congr (update_slots_of_ne _ _ has) rfl
    | destruct a =>
      have ha : a' ≠ a := by rintro rfl; simp [Key.addr] at h
      refine Layer.slot_congr ?_ (Function.update_of_ne ha _ _)
      simp [Layer.addOp, ha]
    | _ => rfl

/-- An op sets what the layer says about the keys it touches. -/
theorem Layer.addOp_post_of_some (l : Layer) {op : Op} {k : Key} {v : Val k}
    (h : op.post k = some v) : (l.addOp op).post k = some v := by
  cases op with
  | destruct a =>
    have ha : k.addr = a := by
      by_contra hne
      simp [hne] at h
    obtain rfl : Val.gone k = v := by simpa [ha] using h
    subst ha
    cases k <;> simp [Layer.addOp, Layer.post, Layer.account, Layer.slot, Key.addr, Val.gone]
  | account a acct =>
    cases k with
    | account a' =>
      obtain ⟨rfl, rfl⟩ : a' = a ∧ some acct = v := by simpa [Op.post] using h
      simp [Layer.addOp, Layer.post, Layer.account]
    | slot a' s' => simp [Op.post] at h
  | slot a s w =>
    cases k with
    | account a' => simp [Op.post] at h
    | slot a' s' =>
      obtain ⟨⟨rfl, rfl⟩, rfl⟩ : (a' = a ∧ s' = s) ∧ w = v := by simpa [Op.post] using h
      simp [Layer.addOp, Layer.post, Layer.slot]
  | deleteSlot a s =>
    cases k with
    | account a' => simp [Op.post] at h
    | slot a' s' =>
      obtain ⟨⟨rfl, rfl⟩, rfl⟩ : (a' = a ∧ s' = s) ∧ Hash.zero = v := by simpa [Op.post] using h
      simp [Layer.addOp, Layer.post, Layer.slot]
  | code c w => cases k <;> simp [Op.post] at h

theorem Layer.addOp_post (l : Layer) (op : Op) (k : Key) :
    (l.addOp op).post k = (op.post k).or (l.post k) := by
  cases h : op.post k with
  | none => rw [Layer.addOp_post_of_none l h, Option.none_or]
  | some v => rw [Layer.addOp_post_of_some l h, Option.some_or]

theorem foldl_addOp_post (l : Layer) (hl : l.post = Diff.empty) (ops : List Op) (k : Key) :
    (ops.foldl Layer.addOp l).post k = postOf ops k := by
  induction ops using List.reverseRecOn with
  | nil => rw [List.foldl_nil, hl]; rfl
  | append_singleton ops op ih =>
    rw [List.foldl_append, List.foldl_cons, List.foldl_nil, Layer.addOp_post, ih, postOf_concat]

/-- A layer says about every key what its batch says. -/
theorem newLayer_post (b : Batch) : (newLayer b).post = b.diff := by
  funext k
  refine foldl_addOp_post _ ?_ b.ops k
  funext k
  cases k <;> rfl

theorem Layer.addOp_batch (l : Layer) (op : Op) : (l.addOp op).batch = l.batch := by
  cases op <;> rfl

@[simp] theorem newLayer_batch (b : Batch) : (newLayer b).batch = b := by
  have h : ∀ (ops : List Op) (l : Layer), (ops.foldl Layer.addOp l).batch = l.batch := by
    intro ops
    induction ops with
    | nil => intro l; rfl
    | cons op ops ih => intro l; rw [List.foldl_cons, ih, Layer.addOp_batch]
  exact h b.ops _

/-- The lookup through the layers, for any key. -/
def look (layers : List Layer) : Diff Val
  | .account a => lookAccount layers a
  | .slot a s => lookSlot layers a s

theorem look_eq_stack (bs : List Batch) : look (bs.map newLayer) = Diff.stack (bs.map Batch.diff) := by
  induction bs using List.reverseRecOn with
  | nil =>
    funext k
    cases k <;> rfl
  | append_singleton bs b ih =>
    funext k
    rw [List.map_append, List.map_append, List.map_singleton, List.map_singleton,
      Diff.stack_concat, ← ih, ← newLayer_post]
    cases k with
    | account a =>
      simp only [look, lookAccount, List.reverse_append, List.reverse_singleton,
        List.singleton_append, List.findSome?_cons, Diff.upon, Layer.post]
      cases (newLayer b).account a <;> rfl
    | slot a s =>
      simp only [look, lookSlot, List.reverse_append, List.reverse_singleton,
        List.singleton_append, List.findSome?_cons, Diff.upon, Layer.post]
      cases (newLayer b).slot a s <;> rfl

/-! ## Pins -/

/-- The values an entry knows, of keys of its address. -/
def Entry.pins (e : Entry) : Diff Val
  | .account _ => some e.toSchema
  | .slot _ s => e.storage s

/-- The values the base map knows. -/
def Map.pins (m : Map) : Diff Val := fun k => (m.accounts k.addr).bind (fun e => e.pins k)

/-- The values a side buffer knows. -/
def SideBuffer.pins (sb : SideBuffer) : Diff Val
  | .account a => sb.accounts a
  | .slot a s => sb.slots a s

theorem Map.pins_set (m : Map) (a : Address) (e : Entry) (k : Key) :
    (m.set a e).pins k = if k.addr = a then e.pins k else m.pins k := by
  by_cases ha : k.addr = a
  · simp [Map.set, Map.pins, ha]
  · simp [Map.set, Map.pins, ha]

/-- An op on the entry of its address is the op's diff on the known keys. -/
theorem Entry.pins_applyOp (e : Entry) {op : Op} {k : Key} (h : op.addr? = some k.addr) :
    (e.applyOp op).pins k = (e.pins k).map (fun v => (op.post k).getD v) := by
  cases k with
  | account a' =>
    cases op with
    | account a acct =>
      obtain rfl : a = a' := by simpa [Op.addr?, Key.addr] using h
      simp [Entry.applyOp, Entry.pins, Op.post, fromSchema, Entry.toSchema]
    | slot a s v =>
      have hs : (e.setKnown s v).toSchema = e.toSchema := by
        rw [Entry.setKnown]; split <;> rfl
      simp [Entry.applyOp, Entry.pins, Op.post, hs]
    | deleteSlot a s =>
      have hs : (e.setKnown s Hash.zero).toSchema = e.toSchema := by
        rw [Entry.setKnown]; split <;> rfl
      simp [Entry.applyOp, Entry.pins, Op.post, hs]
    | destruct a =>
      obtain rfl : a = a' := by simpa [Op.addr?, Key.addr] using h
      simp [Entry.applyOp, Entry.pins, Key.addr, Val.gone, Entry.toSchema, Entry.absent]
    | code c v => simp [Op.addr?] at h
  | slot a' s' =>
    have hset : ∀ s v, (e.setKnown s v).storage s' =
        (e.storage s').map (fun w => if s' = s then v else w) := by
      intro s v
      rw [Entry.setKnown]
      by_cases hs : s' = s
      · subst hs
        cases he : e.storage s' <;> simp [he]
      · cases he : e.storage s <;> simp [hs]
    cases op with
    | account a acct => simp [Entry.applyOp, Entry.pins, Op.post, fromSchema]
    | slot a s _ | deleteSlot a s =>
      obtain rfl : a = a' := by simpa [Op.addr?, Key.addr] using h
      simp only [Entry.applyOp, Entry.pins, hset, Op.post, true_and]
      cases e.storage s' with
      | none => rfl
      | some w => by_cases hs : s' = s <;> simp [hs]
    | destruct a =>
      obtain rfl : a = a' := by simpa [Op.addr?, Key.addr] using h
      simp [Entry.applyOp, Entry.pins, Key.addr, Val.gone]
    | code c v => simp [Op.addr?] at h

/-- An op touches keys of its own address only. -/
theorem post_of_addr_ne {op : Op} {k : Key} (h : op.addr? ≠ some k.addr) : op.post k = none := by
  cases op with
  | code c v => cases k <;> rfl
  | destruct a =>
    have ha : k.addr ≠ a := fun hka => h (by rw [hka]; rfl)
    simp [ha]
  | account a acct =>
    have ha : k.addr ≠ a := fun hka => h (by rw [hka]; rfl)
    cases k with
    | account a' => simp [Op.post, show ¬ a' = a from ha]
    | slot a' s' => rfl
  | slot a _ _ | deleteSlot a _ =>
    have ha : k.addr ≠ a := fun hka => h (by rw [hka]; rfl)
    cases k with
    | account a' => rfl
    | slot a' s' => simp [Op.post, show ¬ a' = a from ha]

/-- An op on the base is its diff on the pinned keys. -/
theorem Map.pins_applyOp (m : Map) (op : Op) :
    (m.applyOp op).pins = Diff.applyPinned op.post m.pins := by
  funext k
  rw [Map.applyOp, Diff.applyPinned]
  by_cases ha : op.addr? = some k.addr
  · rw [ha]
    cases he : m.accounts k.addr with
    | none => simp [Map.pins, he]
    | some e =>
      have hpins : m.pins k = e.pins k := by simp [Map.pins, he]
      have hset := (Map.pins_set m k.addr (e.applyOp op) k).trans (if_pos rfl)
      rw [hpins, ← Entry.pins_applyOp e ha, ← hset]
      dsimp only
      rw [he]
  · have hpost := post_of_addr_ne ha
    have hid : (m.pins k).map (fun v => (op.post k).getD v) = m.pins k := by simp [hpost]
    rw [hid]
    cases hop : op.addr? with
    | none => rfl
    | some addr =>
      have hne : k.addr ≠ addr := fun h => ha (by rw [hop, h])
      dsimp only
      split
      · rfl
      · rw [Map.pins_set, if_neg hne]

/-- `Map.Apply` is the batch's diff on the pinned keys. -/
theorem Map.pins_apply (m : Map) (b : Batch) :
    (m.apply b).pins = Diff.applyPinned b.diff m.pins := by
  rw [Map.apply, Batch.diff_eq]
  induction b.ops using List.reverseRecOn with
  | nil =>
    funext k
    simp [Diff.applyPinned]
  | append_singleton ops op ih =>
    rw [List.foldl_append, List.foldl_cons, List.foldl_nil, Map.pins_applyOp, ih]
    funext k
    simp only [Diff.applyPinned, postOf_concat, Option.map_map]
    congr 1
    funext v
    cases op.post k <;> rfl

/-! ## Draining the side buffers -/

/-- An entry that learns slots; what it knows of a slot already stays. -/
def Entry.learn (e : Entry) (slots : Hash → Option Hash) : Entry :=
  { e with storage := fun s => (e.storage s).or (slots s) }

/-- An address without an entry gets the fetched one, and an entry learns the slots. -/
theorem drain_accounts (m : Map) (sb : SideBuffer) (a : Address) :
    (m.drain sb).accounts a =
      ((m.accounts a).or ((sb.accounts a).map Entry.ofFetched)).map
        (fun e => e.learn (sb.slots a)) := by
  have hacc : (m.drainAccounts sb).accounts a =
      (m.accounts a).or ((sb.accounts a).map Entry.ofFetched) := by
    cases hsb : sb.accounts a <;> cases hm : m.accounts a <;>
      simp [Map.drainAccounts, Map.pinAccount, Map.set, hsb, hm]
  have hslots : ∀ m : Map, (m.drainSlots sb).accounts a =
      (m.accounts a).map (fun e => e.learn (sb.slots a)) := by
    intro m
    cases hm : m.accounts a with
    | none => simp [Map.drainSlots, hm]
    | some e =>
      simp only [Map.drainSlots, hm, Option.map_some, Option.some.injEq, Entry.learn,
        Entry.mk.injEq, true_and]
      funext s
      cases hsb : sb.slots a s <;> cases hst : e.storage s <;>
        simp [Map.pinSlot, Map.set, hm, hst]
  rw [← hacc]
  exact hslots (m.drainAccounts sb)

theorem drain_code (m : Map) (sb : SideBuffer) (c : Hash) :
    (m.drain sb).code c = (m.code c).or (sb.code c) := by
  have hcode : ∀ m : Map, (m.drainCode sb).code c = (m.code c).or (sb.code c) := by
    intro m
    cases hsb : sb.code c <;> cases hm : m.code c <;> simp [Map.drainCode, Map.pinCode, hsb, hm]
  exact hcode ((m.drainAccounts sb).drainSlots sb)

/-- Draining a buffer pins nothing but what the base or the buffer knew. -/
theorem pins_drain {m : Map} {sb : SideBuffer} {k : Key} {v : Val k}
    (h : (m.drain sb).pins k = some v) : m.pins k = some v ∨ sb.pins k = some v := by
  rw [Map.pins, drain_accounts] at h
  rw [Map.pins]
  cases hm : m.accounts k.addr with
  | some e =>
    rw [hm] at h
    cases k with
    | account a => exact Or.inl h
    | slot a s => exact (Option.or_eq_some_iff.mp h).imp_right And.right
  | none =>
    -- a new entry: it knows the account and the slots of the buffer
    rw [hm] at h
    cases hsb : sb.accounts k.addr with
    | none => simp [hsb] at h
    | some w =>
      rw [hsb] at h
      right
      cases k with
      | account a => cases w <;> exact hsb.trans h
      | slot a s => cases w <;> exact h

/-! ## Lagging views -/

/-- Every pin of the view, in the base or in a side buffer, is the value of its key
at some height from `F` on. -/
structure PinsLag (ds : List (Diff Val)) (σ : Capture.State) (F : Nat) (st : State) : Prop where
  base : Diff.Lags ds σ F st.base.pins
  buffers : ∀ sb ∈ st.buffers, Diff.Lags ds σ F sb.pins

section PinsLag

variable {ds : List (Diff Val)} {σ : Capture.State} {F : Nat} {st : State}

theorem Lags.new (ds : List (Diff Val)) (σ : Capture.State) (F : Nat) :
    Diff.Lags ds σ F SideBuffer.new.pins := by
  intro k v h
  cases k <;> cases h

theorem PinsLag.new (ds : List (Diff Val)) (σ : Capture.State) (F : Nat) (f : Option UInt64) :
    PinsLag ds σ F (State.new f) := by
  refine ⟨?_, by simp [State.new]⟩
  intro k v h
  cases h

theorem PinsLag.register (h : PinsLag ds σ F st) :
    PinsLag ds σ F (st.register SideBuffer.new) := by
  refine ⟨h.base, fun sb hsb => ?_⟩
  rcases List.mem_append.mp hsb with hsb | hsb
  · exact h.buffers sb hsb
  · rw [List.mem_singleton.mp hsb]
    exact Lags.new ds σ F

/-- The store commits a block. -/
theorem PinsLag.append (h : PinsLag ds σ F st) (es : List (Diff Val)) :
    PinsLag (ds ++ es) σ F st :=
  ⟨h.base.append es, fun sb hsb => (h.buffers sb hsb).append es⟩

theorem PinsLag.lockAndDrain (h : PinsLag ds σ F st) : PinsLag ds σ F st.lockAndDrain := by
  refine ⟨?_, fun sb hsb => ?_⟩
  · have hfold : ∀ (sbs : List SideBuffer) (m : Map), Diff.Lags ds σ F m.pins →
        (∀ sb ∈ sbs, Diff.Lags ds σ F sb.pins) → Diff.Lags ds σ F (sbs.foldl Map.drain m).pins := by
      intro sbs
      induction sbs with
      | nil => exact fun m hm _ => hm
      | cons sb sbs ih =>
        intro m hm hsbs
        refine ih (m.drain sb) (fun k v hv => ?_) (fun sb' h' => hsbs sb' (by simp [h']))
        rcases pins_drain hv with hv | hv
        · exact hm k v hv
        · exact hsbs sb (by simp) k v hv
    exact hfold st.buffers st.base h.base h.buffers
  · obtain ⟨_, -, rfl⟩ := List.mem_map.mp hsb
    exact Lags.new ds σ F

theorem PinsLag.push (h : PinsLag ds σ F st) (b : Batch) : PinsLag ds σ F (st.push b) :=
  ⟨h.base, h.buffers⟩

theorem PinsLag.applyBlock (h : PinsLag ds σ F st) (b : Batch) : PinsLag ds σ F (st.applyBlock b) :=
  h.lockAndDrain.push b

theorem PinsLag.preferenceReset (h : PinsLag ds σ F st) (bs : List Batch) :
    PinsLag ds σ F (st.preferenceReset bs) := by
  have hfold : ∀ (bs : List Batch) (st : State), PinsLag ds σ F st →
      PinsLag ds σ F (bs.foldl State.push st) := by
    intro bs
    induction bs with
    | nil => exact fun st h => h
    | cons b bs ih => exact fun st h => ih (st.push b) (h.push b)
  exact hfold bs _ ⟨h.lockAndDrain.base, h.lockAndDrain.buffers⟩

/-- What a successful `State.Finalize` does. -/
structure Folds (st : State) (b : Batch) (st' : State) : Prop where
  layers : st.layers = newLayer b :: st'.layers
  base : st'.base = st.lockAndDrain.base.apply b
  buffers : st'.buffers = st.lockAndDrain.buffers
  finalized : st'.finalized = b.block
  tip : st'.tip = if st'.layers.isEmpty then b.hash else st.tip
  tipBlock : st'.tipBlock = st.tipBlock
  tipTime : st'.tipTime = st.tipTime

/-- `State.Finalize` succeeds exactly for the number and the hash of the oldest layer. -/
theorem finalize_oldest {b : Batch} {rest : List Layer} (hl : st.layers = newLayer b :: rest) :
    (st.finalize b.block b.hash).1 = .ok () ∧ Folds st b (st.finalize b.block b.hash).2 ∧
      (st.finalize b.block b.hash).2.layers = rest := by
  have hl' : st.lockAndDrain.layers = newLayer b :: rest := hl
  simp only [State.finalize, hl', newLayer_batch, ne_eq, not_true_eq_false, if_false]
  exact ⟨trivial, ⟨hl, rfl, rfl, rfl, rfl, rfl, rfl⟩, trivial⟩

/-- Folding the block of height `F + 1` into the base moves the view one height up. -/
theorem PinsLag.fold (h : PinsLag ds σ F st) {b : Batch} (hb : ds[F]? = some b.diff) {st' : State}
    (hf : Folds st b st') : PinsLag ds σ (F + 1) st' := by
  refine ⟨?_, fun sb hsb => ?_⟩
  · rw [hf.base, Map.pins_apply]
    exact h.lockAndDrain.base.advance hb
  · rw [hf.buffers] at hsb
    obtain ⟨_, -, rfl⟩ := List.mem_map.mp hsb
    exact Lags.new ds σ (F + 1)

theorem layers_applyBlock (st : State) (b : Batch) :
    (st.applyBlock b).layers = st.layers ++ [newLayer b] := rfl

theorem layers_preferenceReset (st : State) (bs : List Batch) :
    (st.preferenceReset bs).layers = bs.map newLayer := by
  have hfold : ∀ (bs : List Batch) (st : State),
      (bs.foldl State.push st).layers = st.layers ++ bs.map newLayer := by
    intro bs
    induction bs with
    | nil => intro st; simp
    | cons b bs ih => intro st; rw [List.foldl_cons, ih]; simp [State.push]
  exact hfold bs _

theorem mem_modify {α : Type} {l : List α} {i : Nat} {f : α → α} {x : α} (h : x ∈ l.modify i f) :
    x ∈ l ∨ ∃ y ∈ l, x = f y := by
  obtain ⟨n, hn⟩ := List.mem_iff_getElem?.mp h
  rw [List.getElem?_modify] at hn
  obtain ⟨y, hy, hxy⟩ := Option.map_eq_some_iff.mp hn
  have hmem := List.mem_of_getElem? hy
  split at hxy
  · exact Or.inr ⟨y, hmem, hxy.symm⟩
  · exact Or.inl (hxy ▸ hmem)

theorem PinsLag.putAccount (h : PinsLag ds σ F st) (i : Nat) {a : Address} {v : Option Account}
    (hv : ∃ j, F ≤ j ∧ j ≤ ds.length ∧ v = Diff.height ds σ j (.account a)) :
    PinsLag ds σ F (st.putAccount i a v) := by
  refine ⟨h.base, fun sb hsb => ?_⟩
  rcases mem_modify hsb with hsb | ⟨sb0, hsb0, rfl⟩
  · exact h.buffers sb hsb
  · intro k w hw
    cases k with
    | account a' =>
      by_cases ha : a' = a
      · subst ha
        obtain rfl : v = w := by simpa [SideBuffer.pins] using hw
        exact hv
      · refine h.buffers sb0 hsb0 (.account a') w ?_
        simpa [SideBuffer.pins, ha] using hw
    | slot a' s' => exact h.buffers sb0 hsb0 (.slot a' s') w hw

theorem PinsLag.putSlot (h : PinsLag ds σ F st) (i : Nat) {a : Address} {s v : Hash}
    (hv : ∃ j, F ≤ j ∧ j ≤ ds.length ∧ v = Diff.height ds σ j (.slot a s)) :
    PinsLag ds σ F (st.putSlot i a s v) := by
  refine ⟨h.base, fun sb hsb => ?_⟩
  rcases mem_modify hsb with hsb | ⟨sb0, hsb0, rfl⟩
  · exact h.buffers sb hsb
  · intro k w hw
    cases k with
    | account a' => exact h.buffers sb0 hsb0 (.account a') w hw
    | slot a' s' =>
      by_cases has : a' = a ∧ s' = s
      · obtain ⟨rfl, rfl⟩ := has
        obtain rfl : v = w := by simpa [SideBuffer.pins] using hw
        exact hv
      · refine h.buffers sb0 hsb0 (.slot a' s') w ?_
        exact (update_slots_of_ne sb0.slots (some v) has).symm.trans hw

theorem PinsLag.buffer (h : PinsLag ds σ F st) (i : Nat) : Diff.Lags ds σ F (st.buffer i).pins := by
  rw [State.buffer, List.getD_eq_getElem?_getD]
  cases hi : st.buffers[i]? with
  | none => exact Lags.new ds σ F
  | some sb => exact h.buffers sb (List.mem_of_getElem? hi)

/-! ## What a read returns -/

section Layers

variable (keccak : Bytes → Hash) (h : Handle) (env : Env) (st : State) (i : Nat) (a : Address)

/-! Reads touch nothing but side buffers. -/

theorem account_snd : ∃ bufs, (st.account keccak h env i a).2 = { st with buffers := bufs } := by
  rw [State.account]
  split
  · exact ⟨st.buffers, rfl⟩
  · split <;> exact ⟨_, rfl⟩

theorem slotFetch_snd (s : Hash) :
    ∃ bufs, (st.slotFetch keccak h env i a s).2 = { st with buffers := bufs } := by
  rw [State.slotFetch]
  split
  · exact ⟨st.buffers, rfl⟩
  · split <;> exact ⟨_, rfl⟩

theorem accountFetch_snd :
    ∃ bufs, (st.accountFetch keccak h env i a).2 = { st with buffers := bufs } := by
  rw [State.accountFetch]
  split <;> exact ⟨_, rfl⟩

end Layers

variable {keccak : Bytes → Hash} {h : Handle} {env : Env} {ls : List Batch} {i : Nat}

/-- What is known of a key without the store. -/
def State.known (st : State) (i : Nat) : (k : Key) → Option (Val k)
  | .account a => st.knownAccount i a
  | .slot a s => st.knownSlot i a s

/-- What a read of a key returns unless its second store read fails. -/
def State.peek (keccak : Bytes → Hash) (h : Handle) (env : Env) (st : State) (i : Nat) (k : Key) :
    Except Err (Val k) :=
  match st.known i k with
  | some v => .ok v
  | none => readLatest keccak h env k

theorem account_fst (st : State) (i : Nat) (a : Address) :
    (st.account keccak h env i a).1 = st.peek keccak h env i (.account a) := by
  rw [State.account, State.peek, State.known]
  cases st.knownAccount i a with
  | some v => rfl
  | none =>
    rw [readLatest]
    cases getAccount keccak h env a Latest <;> rfl

theorem slotFetch_fst (st : State) (i : Nat) (a : Address) (s : Hash) :
    (st.slotFetch keccak h env i a s).1.map Prod.fst = st.peek keccak h env i (.slot a s) := by
  rw [State.slotFetch, State.peek, State.known]
  cases st.knownSlot i a s with
  | some w => rfl
  | none =>
    rw [readLatest]
    cases getSlot keccak h env a s Latest <;> rfl

/-- The value of a slot read comes from its first store read; the second can only fail. -/
theorem slot_fst (env' : Env) (st : State) (i : Nat) (a : Address) (s : Hash) :
    (st.slot keccak h env env' i a s).1 = st.peek keccak h env i (.slot a s) ∨
      ∃ e, readLatest keccak h env' (.account a) = .error e ∧
        (st.slot keccak h env env' i a s).1 = .error e := by
  have hfst : (st.slotFetch keccak h env i a s).1.map Prod.fst = _ := slotFetch_fst st i a s
  rw [State.slot]
  cases hf : st.slotFetch keccak h env i a s with
  | mk r st1 =>
    rw [hf] at hfst
    cases r with
    | error e => exact Or.inl hfst
    | ok p =>
      obtain ⟨w, n⟩ := p
      cases n with
      | false => exact Or.inl hfst
      | true =>
        dsimp only
        rw [State.accountFetch]
        cases hg : getAccount keccak h env' a Latest with
        | error e => exact Or.inr ⟨e, hg, rfl⟩
        | ok v => exact Or.inl hfst

/-- The value of a key that the layers leave alone, as some height from `F` on has it. -/
def Sees (ds : List (Diff Val)) (σ : Capture.State) (F : Nat) (ls : List Batch) (k : Key)
    (v : Val k) : Prop :=
  ∃ j, F ≤ j ∧ j ≤ ds.length ∧
    v = (Diff.stack (ls.map Batch.diff) k).getD (Diff.height ds σ j k)

theorem sees_of_look (hF : F ≤ ds.length) {k : Key} {v : Val k}
    (hl : look (ls.map newLayer) k = some v) : Sees ds σ F ls k v := by
  refine ⟨F, Nat.le_refl _, hF, ?_⟩
  rw [← look_eq_stack, hl]
  rfl

theorem sees_of_height {k : Key} {v : Val k} (hl : look (ls.map newLayer) k = none)
    (hv : ∃ j, F ≤ j ∧ j ≤ ds.length ∧ v = Diff.height ds σ j k) : Sees ds σ F ls k v := by
  obtain ⟨j, h1, h2, rfl⟩ := hv
  refine ⟨j, h1, h2, ?_⟩
  rw [← look_eq_stack, hl]
  rfl

/-- A slot whose account does not exist is zero, at every height. -/
theorem slot_zero_of_absent {a : Address} (s : Hash)
    (hno : ∀ j, j ≤ ds.length → NoOrphans (Diff.height ds σ j))
    (hv : ∃ j, F ≤ j ∧ j ≤ ds.length ∧ (none : Option Account) = Diff.height ds σ j (.account a)) :
    ∃ j, F ≤ j ∧ j ≤ ds.length ∧ Hash.zero = Diff.height ds σ j (.slot a s) := by
  obtain ⟨j, h1, h2, hnone⟩ := hv
  exact ⟨j, h1, h2, (hno j h2 a s hnone.symm).symm⟩

theorem knownAccount_sees (hp : PinsLag ds σ F st) (hls : st.layers = ls.map newLayer)
    (hF : F ≤ ds.length) {a : Address} {v : Option Account} (hk : st.knownAccount i a = some v) :
    Sees ds σ F ls (.account a) v := by
  rw [State.knownAccount] at hk
  cases hl : lookAccount st.layers a with
  | some w =>
    rw [hl] at hk
    rw [hls] at hl
    rw [← Option.some.inj hk]
    exact sees_of_look hF hl
  | none =>
    rw [hl] at hk
    have hl' : look (ls.map newLayer) (.account a) = none := by rw [← hls]; exact hl
    apply sees_of_height hl'
    cases hb : st.base.accounts a with
    | some e =>
      rw [hb] at hk
      refine hp.base (.account a) v ?_
      rw [← Option.some.inj hk]
      simp [Map.pins, Key.addr, hb, Entry.pins]
    | none =>
      rw [hb] at hk
      exact hp.buffer i (.account a) v hk

/-- A base account that does not exist answers for its slots because no height has slots
without their account. -/
theorem knownSlot_sees (hp : PinsLag ds σ F st) (hls : st.layers = ls.map newLayer)
    (hF : F ≤ ds.length) (hno : ∀ j, j ≤ ds.length → NoOrphans (Diff.height ds σ j)) {a : Address}
    {s v : Hash} (hk : st.knownSlot i a s = some v) : Sees ds σ F ls (.slot a s) v := by
  rw [State.knownSlot] at hk
  cases hl : lookSlot st.layers a s with
  | some w =>
    rw [hl] at hk
    rw [hls] at hl
    rw [← Option.some.inj hk]
    exact sees_of_look hF hl
  | none =>
    rw [hl] at hk
    have hl' : look (ls.map newLayer) (.slot a s) = none := by rw [← hls]; exact hl
    apply sees_of_height hl'
    have hbuf : (st.buffer i).slots a s = some v →
        ∃ j, F ≤ j ∧ j ≤ ds.length ∧ v = Diff.height ds σ j (.slot a s) :=
      fun hv => hp.buffer i (.slot a s) v hv
    cases hb : st.base.accounts a with
    | none =>
      rw [hb] at hk
      exact hbuf hk
    | some e =>
      rw [hb] at hk
      dsimp only at hk
      cases hpres : e.present with
      | true =>
        rw [hpres, if_pos rfl] at hk
        cases hst : e.storage s with
        | none =>
          rw [hst] at hk
          exact hbuf hk
        | some w =>
          rw [hst] at hk
          refine hp.base (.slot a s) v ?_
          rw [← Option.some.inj hk]
          simpa [Map.pins, Key.addr, hb, Entry.pins] using hst
      | false =>
        rw [hpres, if_neg (by simp)] at hk
        rw [← Option.some.inj hk]
        refine slot_zero_of_absent s hno (hp.base (.account a) none ?_)
        simp [Map.pins, Key.addr, hb, Entry.pins, Entry.toSchema, hpres]

theorem look_of_known_none {k : Key} (hk : st.known i k = none) : look st.layers k = none := by
  cases k with
  | account a =>
    show lookAccount st.layers a = none
    cases hl : lookAccount st.layers a with
    | none => rfl
    | some v => simp [State.known, State.knownAccount, hl] at hk
  | slot a s =>
    show lookSlot st.layers a s = none
    cases hl : lookSlot st.layers a s with
    | none => rfl
    | some v => simp [State.known, State.knownSlot, hl] at hk

/-- The store has the newest height's value of a key. -/
def Answers (keccak : Bytes → Hash) (h : Handle) (env : Env) (τ : Capture.State) (k : Key) : Prop :=
  ∀ v, readLatest keccak h env k = .ok v → v = τ k

/-- The store's value is that of the newest height. -/
theorem Answers.at_height {k : Key} {v : Val k} (hs : Answers keccak h env (Diff.applyAll ds σ) k)
    (hF : F ≤ ds.length) (hg : readLatest keccak h env k = .ok v) :
    ∃ j, F ≤ j ∧ j ≤ ds.length ∧ v = Diff.height ds σ j k :=
  ⟨ds.length, hF, Nat.le_refl _, by rw [Diff.height_length]; exact hs v hg⟩

/-- A read returns the layers over the value at some height from `F` on. -/
theorem peek_sees (hp : PinsLag ds σ F st) (hls : st.layers = ls.map newLayer)
    (hF : F ≤ ds.length) (hno : ∀ j, j ≤ ds.length → NoOrphans (Diff.height ds σ j)) {k : Key}
    {v : Val k} (hs : st.known i k = none → Answers keccak h env (Diff.applyAll ds σ) k)
    (hr : st.peek keccak h env i k = .ok v) : Sees ds σ F ls k v := by
  rw [State.peek] at hr
  cases hk : st.known i k with
  | some w =>
    rw [hk] at hr
    obtain rfl := Except.ok.inj hr
    cases k with
    | account a => exact knownAccount_sees hp hls hF hk
    | slot a s => exact knownSlot_sees hp hls hF hno hk
  | none =>
    rw [hk] at hr
    exact sees_of_height (by rw [← hls]; exact look_of_known_none hk) ((hs hk).at_height hF hr)

/-! Reads pin values at such heights. -/

theorem PinsLag.account (hp : PinsLag ds σ F st) (hF : F ≤ ds.length) {a : Address}
    (hs : st.known i (.account a) = none →
      Answers keccak h env (Diff.applyAll ds σ) (.account a)) :
    PinsLag ds σ F (st.account keccak h env i a).2 := by
  rw [State.account]
  cases hk : st.knownAccount i a with
  | some v => exact hp
  | none =>
    cases hg : getAccount keccak h env a Latest with
    | error e => exact hp
    | ok v => exact hp.putAccount i ((hs hk).at_height hF hg)

theorem PinsLag.slotFetch (hp : PinsLag ds σ F st) (hF : F ≤ ds.length) {a : Address} {s : Hash}
    (hs : st.known i (.slot a s) = none →
      Answers keccak h env (Diff.applyAll ds σ) (.slot a s)) :
    PinsLag ds σ F (st.slotFetch keccak h env i a s).2 := by
  rw [State.slotFetch]
  cases hk : st.knownSlot i a s with
  | some v => exact hp
  | none =>
    cases hg : getSlot keccak h env a s Latest with
    | error e => exact hp
    | ok v => exact hp.putSlot i ((hs hk).at_height hF hg)

theorem PinsLag.accountFetch (hp : PinsLag ds σ F st) (hF : F ≤ ds.length) {a : Address}
    (hs : Answers keccak h env (Diff.applyAll ds σ) (.account a)) :
    PinsLag ds σ F (st.accountFetch keccak h env i a).2 := by
  rw [State.accountFetch]
  cases hg : getAccount keccak h env a Latest with
  | error e => exact hp
  | ok v => exact hp.putAccount i (hs.at_height hF hg)

end PinsLag

end Flatstate.Mem
