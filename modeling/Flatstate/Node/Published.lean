import Flatstate.Node.Tracker

set_option autoImplicit false

/-!
# Node: the tracker and the sink agree (`node/tracker.go` over `node/sink.go`)

The tracker and the sink each keep the published stack, the sink in three places (tip
view, bus, published batches).  `Published` says that they are one chain of hashes on the
finalized block.  The batches themselves may differ, since the tracker compares by hash;
all that is used is that a hash determines number and parent.
-/

namespace Flatstate.Node

open Foundation Schema Capture Store Tipbus

/-! ## What is published -/

/-- The hash of a tagged batch determines its number and its parent, whose number is one
less. -/
structure Determines (Tag : Batch → Prop) (num : Hash → Nat) (par : Hash → Hash) : Prop where
  block : ∀ b, Tag b → b.block.toNat = num b.hash
  parent : ∀ b, Tag b → b.parent = par b.hash
  succ : ∀ b, Tag b → num b.hash = num b.parent + 1

/-- The tracker and the sink agree: every batch is a tagged one, the stack is a chain on
the finalized block, and the sink has the same chain by hash, each block published. -/
structure Published (Tag : Batch → Prop) (num : Hash → Nat) (t : Tracker) (s : Sink) : Prop where
  finalized : t.finalizedHeight.toNat = num t.finalizedHash
  table : ∀ h b, t.table.get h = some b → b.hash = h ∧ Tag b ∧ t.finalizedHeight < b.block
  linked : Linked t.finalizedHash t.finalizedHeight.toNat t.stack
  stack : ∀ b ∈ t.stack, Tag b
  layers : s.st.layers = s.bus.layers.map Mem.newLayer
  layersTag : ∀ b ∈ s.bus.layers, Tag b
  same : s.bus.layers.map Batch.hash = t.stack.map Batch.hash
  pendingTag : ∀ h b, s.pending h = some b → b.hash = h ∧ Tag b ∧ t.finalizedHeight < b.block
  pending : ∀ b ∈ s.bus.layers, s.pending b.hash ≠ none

section Published

variable {Tag : Batch → Prop} {num : Hash → Nat} {t : Tracker} {s : Sink}

/-- A sink between two blocks of the backfill. -/
structure Rest (s : Sink) : Prop where
  layers : s.st.layers = []
  bus : s.bus.layers = []
  pending : ∀ h, s.pending h = none

/-- A tracker that knows no block above the finalized one, on a sink at rest. -/
structure AtRest (t : Tracker) (s : Sink) : Prop where
  table : ∀ h, t.table.get h = none
  stack : t.stack = []
  sink : Rest s

theorem Rest.new {s : Sink} (h : Rest s) (height : UInt64) (hash : Hash) :
    AtRest (newTracker height hash) s :=
  ⟨fun _ => rfl, rfl, h⟩

theorem AtRest.published (h : AtRest t s) (hn : t.finalizedHeight.toNat = num t.finalizedHash) :
    Published Tag num t s where
  finalized := hn
  table k b hb := by
    rw [h.table k] at hb
    cases hb
  linked := by
    rw [h.stack]
    trivial
  stack b hb := by
    rw [h.stack] at hb
    cases hb
  layers := by
    rw [h.sink.layers, h.sink.bus]
    rfl
  layersTag b hb := by
    rw [h.sink.bus] at hb
    cases hb
  same := by rw [h.sink.bus, h.stack]
  pendingTag k b hb := by
    rw [h.sink.pending k] at hb
    cases hb
  pending b hb := by
    rw [h.sink.bus] at hb
    cases hb

theorem Published.verified (h : Published Tag num t s) {b : Batch} (hb : Tag b) :
    Published Tag num (t.verified b) s := by
  rw [Tracker.verified]
  split
  · exact h
  · rename_i hlt
    refine { h with table := fun k b' hk => ?_ }
    dsimp only at hk ⊢
    rw [Table.get_set] at hk
    split at hk
    · rename_i heq
      obtain rfl := Option.some.inj hk
      exact ⟨heq.symm, hb, UInt64.not_le.mp hlt⟩
    · exact h.table k b' hk

theorem pendingTag_resetPending {preferred : List Batch} (hT : ∀ b ∈ preferred, Tag b) {h : Hash}
    {b : Batch} (hp : resetPending preferred h = some b) : b.hash = h ∧ Tag b := by
  have hgen : ∀ (preferred : List Batch) (p : Hash → Option Batch), (∀ b ∈ preferred, Tag b) →
      (∀ h b, p h = some b → b.hash = h ∧ Tag b) → ∀ h b,
      preferred.foldl (fun (q : Hash → Option Batch) b => Function.update q b.hash (some b)) p h = some b →
      b.hash = h ∧ Tag b := by
    intro preferred
    induction preferred with
    | nil => exact fun p _ hp => hp
    | cons b0 bs ih =>
      intro p hT hp
      rw [List.forall_mem_cons] at hT
      refine ih _ hT.2 (fun h b hb => ?_)
      dsimp only at hb
      by_cases hh : h = b0.hash
      · subst hh
        rw [Function.update_self] at hb
        obtain rfl := Option.some.inj hb
        exact ⟨rfl, hT.1⟩
      · rw [Function.update_of_ne hh] at hb
        exact hp h b hb
  exact hgen preferred _ hT (fun h b hb => by cases hb) h b hp

theorem resetPending_ne_none {preferred : List Batch} {b : Batch} (hb : b ∈ preferred) :
    resetPending preferred b.hash ≠ none := by
  have hgen : ∀ (preferred : List Batch) (p : Hash → Option Batch) (h : Hash),
      (p h ≠ none ∨ ∃ b ∈ preferred, b.hash = h) →
      preferred.foldl (fun (q : Hash → Option Batch) b => Function.update q b.hash (some b)) p h ≠ none := by
    intro preferred
    induction preferred with
    | nil =>
      rintro p h (hp | ⟨b, hb, -⟩)
      · exact hp
      · cases hb
    | cons b0 bs ih =>
      intro p h hor
      refine ih _ h ?_
      dsimp only
      by_cases hh : h = b0.hash
      · left
        rw [hh, Function.update_self]
        simp
      · rw [Function.update_of_ne hh]
        rcases hor with hp | ⟨b, hb, hbh⟩
        · exact Or.inl hp
        · rcases List.mem_cons.mp hb with rfl | hm
          · exact absurd hbh.symm hh
          · exact Or.inr ⟨b, hm, hbh⟩
  exact hgen preferred _ b.hash (Or.inr ⟨b, hb, rfl⟩)

/-- Publishing another stack. -/
theorem Published.reset (h : Published Tag num t s) {chain : List Batch} {bus : Bus}
    (hl : Linked t.finalizedHash t.finalizedHeight.toNat chain) (hT : ∀ b ∈ chain, Tag b)
    (hbus : bus.layers = chain) :
    Published Tag num { t with stack := chain }
      ⟨s.env, s.st.preferenceReset chain, bus, resetPending chain⟩ where
  finalized := h.finalized
  table := h.table
  linked := hl
  stack := hT
  layers := by
    dsimp only
    rw [hbus]
    exact Mem.layers_preferenceReset s.st chain
  layersTag b hb := hT b (by rwa [← hbus])
  same := congrArg (List.map Batch.hash) hbus
  pendingTag k b hk := by
    have habove : ∀ b ∈ chain, Tag b ∧ t.finalizedHeight < b.block := fun b hb =>
      ⟨hT b hb, UInt64.lt_iff_toNat_lt.mpr (hl.lt hb)⟩
    exact pendingTag_resetPending habove hk
  pending b hb := resetPending_ne_none (by rwa [← hbus])

/-- Publishing one more block. -/
theorem Published.block (h : Published Tag num t s) {c : List Batch} {b : Batch} {bus : Bus}
    (hl : Linked t.finalizedHash t.finalizedHeight.toNat (c ++ [b]))
    (hT : ∀ b' ∈ c ++ [b], Tag b') (hsame : c.map Batch.hash = t.stack.map Batch.hash)
    (hbus : bus.layers = s.bus.layers ++ [b]) :
    Published Tag num { t with stack := c ++ [b] }
      ⟨s.env, s.st.applyBlock b, bus, Function.update s.pending b.hash (some b)⟩ where
  finalized := h.finalized
  table := h.table
  linked := hl
  stack := hT
  layers := by
    dsimp only
    rw [Mem.layers_applyBlock, h.layers, hbus, List.map_append]
    rfl
  layersTag b' hb' := by
    dsimp only at hb'
    rw [hbus] at hb'
    rcases List.mem_append.mp hb' with hm | hm
    · exact h.layersTag b' hm
    · obtain rfl := List.mem_singleton.mp hm
      exact hT b' (by simp)
  same := by
    dsimp only
    rw [hbus, List.map_append, List.map_append, h.same, hsame]
  pendingTag k b' hk := by
    dsimp only at hk
    by_cases hkb : k = b.hash
    · subst hkb
      rw [Function.update_self] at hk
      obtain rfl := Option.some.inj hk
      exact ⟨rfl, hT b (by simp), UInt64.lt_iff_toNat_lt.mpr (hl.lt (by simp))⟩
    · rw [Function.update_of_ne hkb] at hk
      exact h.pendingTag k b' hk
  pending b' hb' := by
    dsimp only
    by_cases hkb : b'.hash = b.hash
    · rw [hkb, Function.update_self]
      simp
    · rw [Function.update_of_ne hkb]
      dsimp only at hb'
      rw [hbus] at hb'
      rcases List.mem_append.mp hb' with hm | hm
      · exact h.pending b' hm
      · exact absurd (congrArg Batch.hash (List.mem_singleton.mp hm)) hkb

/-- A path in the table is a chain of tagged batches on the finalized block. -/
theorem Published.linked_path {par : Hash → Hash} (h : Published Tag num t s)
    (hd : Determines Tag num par) {hash : Hash} {es : List (Hash × Batch)}
    (hp : t.table.Path Batch.parent t.finalizedHash hash es) :
    Linked t.finalizedHash t.finalizedHeight.toNat (es.map Prod.snd).reverse ∧
      (∀ b ∈ (es.map Prod.snd).reverse, Tag b) ∧
      ((es.map Prod.snd).reverse.getLast?.map Batch.hash).getD t.finalizedHash = hash ∧
      num hash = t.finalizedHeight.toNat + es.length := by
  induction hp with
  | root => exact ⟨trivial, by simp, rfl, h.finalized.symm⟩
  | @step k b es hk hv hp ih =>
    obtain ⟨hl, hT, hlast, hnum⟩ := ih
    obtain ⟨rfl, hb, -⟩ := h.table k b hv
    have hsucc := hd.succ b hb
    have hblock := hd.block b hb
    rw [List.map_cons, List.reverse_cons]
    refine ⟨linked_concat hl hlast.symm ?_, ?_, by simp, ?_⟩
    · rw [List.length_reverse, List.length_map]
      dsimp only
      omega
    · intro b' hm
      rcases List.mem_append.mp hm with hm | hm
      · exact hT b' hm
      · obtain rfl := List.mem_singleton.mp hm
        exact hb
    · rw [List.length_cons]
      omega

/-- `chainTo` from a hash with a path. -/
theorem Published.chainTo {par : Hash → Hash} (h : Published Tag num t s)
    (hd : Determines Tag num par) {hash : Hash} {es : List (Hash × Batch)}
    (hp : t.table.Path Batch.parent t.finalizedHash hash es) :
    t.chainTo hash = .ok (es.map Prod.snd).reverse := by
  refine chainTo_path hp (fun k b b' hb hb' => ?_)
  obtain ⟨rfl, hT, -⟩ := h.table k b hb
  obtain ⟨hh', hT', -⟩ := h.table _ b' hb'
  have h1 := hd.block b hT
  have h2 := hd.block b' hT'
  have h3 := hd.succ b hT
  rw [hh'] at h2
  omega

/-- `Tracker.Head` of a hash with a path succeeds, or the bus could not commit. -/
theorem Published.head {par : Hash → Hash} (h : Published Tag num t s)
    (hd : Determines Tag num par) {hash : Hash} {es : List (Hash × Batch)}
    (hp : t.table.Path Batch.parent t.finalizedHash hash es) :
    (∃ stack s', t.head s hash = (.ok (), { t with stack := stack }, s') ∧ s'.env = s.env ∧
      Published Tag num { t with stack := stack } s') ∨
    ∃ t' s', t.head s hash = (.error (.sink (.bus .txn)), t', s') := by
  obtain ⟨hl, hT, -, -⟩ := h.linked_path hd hp
  rcases head_cases s (h.chainTo hd hp) with
    hsame | ⟨c, b, hc, hsame, -, hres⟩ | ⟨-, hres⟩ | hres
  · exact Or.inl ⟨t.stack, s, hsame, rfl, h⟩
  · obtain ⟨-, bus, hbus, hs⟩ := block_cases s b
    rw [hc] at hres hl hT
    rw [hs] at hres
    exact Or.inl ⟨_, _, hres, rfl, h.block hl hT hsame hbus⟩
  · obtain ⟨-, bus, hbus, hs⟩ := preferenceReset_cases s (es.map Prod.snd).reverse
    rw [hs] at hres
    exact Or.inl ⟨_, _, hres, rfl, h.reset hl hT hbus⟩
  · exact Or.inr hres

/-- The oldest published block, in the tracker and in the sink. -/
theorem Published.oldest {par : Hash → Hash} (h : Published Tag num t s)
    (hd : Determines Tag num par) {block : UInt64} {hash : Hash}
    (hhead : t.stack.head?.map Batch.hash = some hash) (hblock : block.toNat = num hash) :
    ∃ b stack l rest, t.stack = b :: stack ∧ s.bus.layers = l :: rest ∧ b.hash = hash ∧
      l.hash = hash ∧ b.block = block ∧ l.block = block ∧
      rest.map Batch.hash = stack.map Batch.hash := by
  obtain ⟨b, stack, hstack⟩ : ∃ b stack, t.stack = b :: stack := by
    cases hs : t.stack with
    | nil => simp [hs] at hhead
    | cons b stack => exact ⟨b, stack, rfl⟩
  obtain rfl : b.hash = hash := by simpa [hstack] using hhead
  obtain ⟨l, rest, hbus⟩ : ∃ l rest, s.bus.layers = l :: rest := by
    have hsame := h.same
    cases hs : s.bus.layers with
    | nil => simp [hs, hstack] at hsame
    | cons l rest => exact ⟨l, rest, rfl⟩
  have hsame := h.same
  rw [hbus, hstack, List.map_cons, List.map_cons, List.cons.injEq] at hsame
  obtain ⟨hlh, hrest⟩ := hsame
  -- the layer, the stack and the argument agree on the number, by the hash
  have hlT : Tag l := h.layersTag l (by simp [hbus])
  have hbT : Tag b := h.stack b (by simp [hstack])
  refine ⟨b, stack, l, rest, hstack, hbus, rfl, hlh, ?_, ?_, hrest⟩
  · refine UInt64.toNat_inj.mp ?_
    rw [hblock]
    exact hd.block b hbT
  · refine UInt64.toNat_inj.mp ?_
    rw [hblock, ← hlh]
    exact hd.block l hlT

/-- Finalizing the oldest published block. -/
theorem Published.finalize {par : Hash → Hash} (h : Published Tag num t s)
    (hd : Determines Tag num par) {block : UInt64} {hash : Hash}
    (hhead : t.stack.head?.map Batch.hash = some hash) (hblock : block.toNat = num hash) :
    Clean (s.finalize none block hash).1 ∧
      (∃ b, Tag b ∧ b.hash = hash ∧
        (s.finalize none block hash).2.env = setFinalized (writeBlock s.env b) block) ∧
      Published Tag num (t.finalized block hash) (s.finalize none block hash).2 := by
  obtain ⟨b0, stack, l, rest, hstack, hbus, rfl, hlh, hb0b, hlb, hrest⟩ :=
    h.oldest hd hhead hblock
  have hlinked := h.linked
  rw [hstack] at hlinked
  obtain ⟨-, -, hlinked⟩ := hlinked
  have hlT : Tag l := h.layersTag l (by simp [hbus])
  obtain ⟨p, hp⟩ := Option.ne_none_iff_exists'.mp (h.pending l (by simp [hbus]))
  obtain ⟨hph, hpT, -⟩ := h.pendingTag _ p hp
  have hpb : p.block = l.block := by
    refine UInt64.toNat_inj.mp ?_
    rw [hd.block p hpT, hd.block l hlT, hph]
  have hst := h.layers
  rw [hbus] at hst
  obtain ⟨hclean, bus, hbus', hs⟩ := finalize_cases hst hbus hp hpb
  rw [hlb, hlh] at hclean hs
  rw [hb0b] at hlinked
  refine ⟨hclean, ⟨p, hpT, hph.trans hlh, by rw [hs]⟩, ?_⟩
  have hlayers := (Mem.finalize_oldest hst).2.2
  rw [hlb, hlh] at hlayers
  rw [hs]
  exact {
    finalized := hblock
    table := fun k b hk => by
      dsimp only [Tracker.finalized] at hk ⊢
      rw [Table.get_keep, Option.filter_eq_some_iff] at hk
      obtain ⟨hk, hlt⟩ := hk
      obtain ⟨h1, h2, -⟩ := h.table k b hk
      exact ⟨h1, h2, UInt64.not_le.mp (by simpa using hlt)⟩
    linked := by
      dsimp only [Tracker.finalized]
      rw [hstack]
      exact hlinked
    stack := fun b hb => h.stack b (List.mem_of_mem_tail hb)
    layers := by
      dsimp only
      rw [hlayers, hbus']
    layersTag := fun b hb => h.layersTag b (by
      dsimp only at hb
      rw [hbus'] at hb
      simp [hbus, hb])
    same := by
      dsimp only [Tracker.finalized]
      rw [hbus', hstack, hrest]
      rfl
    pendingTag := fun k b hk => by
      dsimp only at hk
      rw [Option.filter_eq_some_iff] at hk
      obtain ⟨hk, hlt⟩ := hk
      obtain ⟨h1, h2, -⟩ := h.pendingTag k b hk
      have hle : ¬ b.block ≤ block := by simpa using hlt
      exact ⟨h1, h2, UInt64.not_le.mp hle⟩
    pending := fun b hb => by
      dsimp only at hb ⊢
      rw [hbus'] at hb
      obtain ⟨q, hq⟩ := Option.ne_none_iff_exists'.mp (h.pending b (by simp [hbus, hb]))
      obtain ⟨hqh, hqT, -⟩ := h.pendingTag _ q hq
      -- a published block above the oldest one stays: its number is that of its hash
      have hlt : block < q.block := by
        obtain ⟨x, hx, hxh⟩ : ∃ x ∈ stack, x.hash = b.hash := by
          have hm : b.hash ∈ rest.map Batch.hash := List.mem_map_of_mem hb
          rw [hrest] at hm
          exact List.mem_map.mp hm
        have hxT : Tag x := h.stack x (by simp [hstack, hx])
        have hxlt := hlinked.lt hx
        rw [UInt64.lt_iff_toNat_lt, hd.block q hqT, hqh, ← hxh, ← hd.block x hxT]
        exact hxlt
      simp [hq, hlt] }

/-- What `Tracker.Accepted` comes to: the block is final, the store has a tagged batch of
that hash, and all agree again; or the bus could not commit. -/
def Accepts (Tag : Batch → Prop) (num : Hash → Nat) (t : Tracker) (s : Sink) (block : UInt64)
    (hash : Hash) : Prop :=
  (∃ stack s' b', Tag b' ∧ b'.hash = hash ∧
    t.accepted s block hash =
      (.ok (), ({ t with stack := stack } : Tracker).finalized block hash, s') ∧
    s'.env = setFinalized (writeBlock s.env b') block ∧
    Published Tag num (({ t with stack := stack } : Tracker).finalized block hash) s') ∨
  ∃ t' s', t.accepted s block hash = (.error (.sink (.bus .txn)), t', s')

/-- Once the stack starts with the block, `Sink.Finalize` has what it checks. -/
theorem Published.accepts_of_publish {par : Hash → Hash} (hd : Determines Tag num par)
    {block : UInt64} {hash : Hash} {stack : List Batch} {s1 : Sink}
    (hpub : t.publishAccepted s block hash = (.ok (), { t with stack := stack }, s1))
    (henv : s1.env = s.env) (h1 : Published Tag num { t with stack := stack } s1)
    (hhead : stack.head?.map Batch.hash = some hash) (hblock : block.toNat = num hash) :
    Accepts Tag num t s block hash := by
  obtain ⟨hclean, ⟨b', hT', hh', hw⟩, h2⟩ := h1.finalize hd hhead hblock
  rw [henv] at hw
  rw [Accepts, Tracker.accepted, hpub]
  dsimp only
  cases hf : s1.finalize none block hash with
  | mk r s2 =>
    rw [hf] at hclean hw h2
    rcases hclean with hok | herr
    · dsimp only at hok
      subst hok
      exact Or.inl ⟨stack, s2, b', hT', hh', rfl, hw, h2⟩
    · dsimp only at herr
      subst herr
      exact Or.inr ⟨_, _, rfl⟩

/-- `Tracker.Accepted` of a child of the finalized block that was verified. -/
theorem Published.accepted {par : Hash → Hash} (h : Published Tag num t s)
    (hd : Determines Tag num par) {block : UInt64} {hash : Hash} {b : Batch}
    (hb : t.table.get hash = some b) (hpar : b.parent = t.finalizedHash)
    (hblock : block.toNat = num hash) : Accepts Tag num t s block hash := by
  by_cases hhead : t.stack.head?.map Batch.hash = some hash
  · refine accepts_of_publish hd ?_ rfl h hhead hblock
    rw [Tracker.publishAccepted, if_pos hhead]
  · obtain ⟨hbh, hbT, -⟩ := h.table hash b hb
    have hpub : t.publishAccepted s block hash =
        sinkCall { t with stack := [b] } (s.preferenceReset none [b]) := by
      rw [Tracker.publishAccepted, if_neg hhead, hb]
      dsimp only
      rw [if_neg (not_not.mpr hpar)]
    obtain ⟨hclean, bus, hbus, hs⟩ := preferenceReset_cases s [b]
    rcases sinkCall_cases { t with stack := [b] } hclean with ⟨-, hcall⟩ | hcall
    · have hl : Linked t.finalizedHash t.finalizedHeight.toNat [b] := by
        refine ⟨hpar, ?_, trivial⟩
        rw [hd.block b hbT, hd.succ b hbT, hpar, h.finalized]
      refine accepts_of_publish hd (hpub.trans hcall) (by rw [hs]) ?_ (by simp [hbh]) hblock
      rw [hs]
      exact h.reset hl (by simpa using hbT) hbus
    · right
      rw [Tracker.accepted, hpub, hcall]
      exact ⟨_, _, rfl⟩

/-! ## The top of the stack -/

/-- The newest published block, or the finalized one. -/
def Tracker.top (t : Tracker) : Hash := (t.stack.getLast?.map Batch.hash).getD t.finalizedHash

theorem top_of_hashes {t t' : Tracker} (hs : t'.stack.map Batch.hash = t.stack.map Batch.hash)
    (hf : t'.finalizedHash = t.finalizedHash) : t'.top = t.top := by
  rw [Tracker.top, Tracker.top, ← List.getLast?_map, ← List.getLast?_map, hs, hf]

/-- After `Tracker.Head` the top is the hash it was given. -/
theorem Published.head_top {par : Hash → Hash} (h : Published Tag num t s)
    (hd : Determines Tag num par) {hash : Hash} {es : List (Hash × Batch)}
    (hp : t.table.Path Batch.parent t.finalizedHash hash es) {t' : Tracker} {s' : Sink}
    (hok : t.head s hash = (.ok (), t', s')) : t'.top = hash := by
  obtain ⟨-, -, hlast, -⟩ := h.linked_path hd hp
  have hchain : ({ t with stack := (es.map Prod.snd).reverse } : Tracker).top = hash := hlast
  have hstack : ∀ r, sinkCall { t with stack := (es.map Prod.snd).reverse } r = (.ok (), t', s') →
      t'.top = hash := by
    intro r hr
    have hsnd := sinkCall_snd { t with stack := (es.map Prod.snd).reverse } r
    rw [hr] at hsnd
    rw [(Prod.mk.inj hsnd).1]
    exact hchain
  rw [Tracker.head, h.chainTo hd hp] at hok
  dsimp only at hok
  split at hok
  · rename_i hsame
    obtain rfl : t = t' := (Prod.mk.inj (Prod.mk.inj hok).2).1
    have htop : ({ t with stack := (es.map Prod.snd).reverse } : Tracker).top = t.top :=
      top_of_hashes (sameChain_iff.mp hsame) rfl
    exact htop.symm.trans hchain
  · split at hok
    · split at hok
      · rename_i hext _ hnone
        rw [List.getLast?_eq_none_iff.mp hnone] at hext
        simp at hext
      · exact hstack _ hok
    · exact hstack _ hok

/-- After `Tracker.Accepted` the top is what it was if the block was the oldest published
one, and the block itself otherwise. -/
theorem accepted_top {t' : Tracker} {s' : Sink} {block : UInt64} {hash : Hash}
    (hok : t.accepted s block hash = (.ok (), t', s')) :
    (t.stack.head?.map Batch.hash = some hash ∧ t'.top = t.top) ∨
      (t.stack.head?.map Batch.hash ≠ some hash ∧ t'.top = hash) := by
  have hfinal : ∀ t1 s1, t.publishAccepted s block hash = (.ok (), t1, s1) →
      t' = t1.finalized block hash := by
    intro t1 s1 hpub
    rw [Tracker.accepted, hpub] at hok
    dsimp only at hok
    split at hok
    · cases hok
    · exact (Prod.mk.inj (Prod.mk.inj hok).2).1.symm
  by_cases hhead : t.stack.head?.map Batch.hash = some hash
  · refine .inl ⟨hhead, ?_⟩
    rw [hfinal t s (by rw [Tracker.publishAccepted, if_pos hhead])]
    cases hs : t.stack with
    | nil => simp [hs] at hhead
    | cons b rest =>
      obtain rfl : b.hash = hash := by simpa [hs] using hhead
      rw [Tracker.top, Tracker.top, Tracker.finalized, hs, List.tail_cons, List.getLast?_cons]
      cases rest.getLast? <;> rfl
  · refine .inr ⟨hhead, ?_⟩
    cases hpub : t.publishAccepted s block hash with
    | mk res ts =>
      obtain ⟨t1, s1⟩ := ts
      cases res with
      | error e =>
        rw [Tracker.accepted, hpub] at hok
        cases hok
      | ok u =>
        have hstack : ∃ b, t1.stack = [b] := by
          rw [Tracker.publishAccepted, if_neg hhead] at hpub
          split at hpub
          · cases hpub
          · rename_i b _
            split at hpub
            · cases hpub
            · have hsnd := sinkCall_snd { t with stack := [b] } (s.preferenceReset none [b])
              rw [hpub] at hsnd
              exact ⟨b, by rw [(Prod.mk.inj hsnd).1]⟩
        obtain ⟨b, hb⟩ := hstack
        rw [hfinal t1 s1 hpub, Tracker.top, Tracker.finalized, hb]
        rfl

/-! ## One block after another -/

/-- A block verified and accepted right away, as the backfill does. -/
theorem AtRest.accepted (h : AtRest t s) {b : Batch} (hpar : b.parent = t.finalizedHash)
    (hlt : t.finalizedHeight < b.block) (hfin : t.finalizedHeight.toNat = num t.finalizedHash)
    (hnum : b.block.toNat = num b.hash) (hsucc : num b.hash = num t.finalizedHash + 1) :
    (∃ t' s', (t.verified b).accepted s b.block b.hash = (.ok (), t', s') ∧ AtRest t' s' ∧
      t'.finalizedHeight = b.block ∧ t'.finalizedHash = b.hash ∧
      s'.env = setFinalized (writeBlock s.env b) b.block) ∨
    ∃ t' s', (t.verified b).accepted s b.block b.hash = (.error (.sink (.bus .txn)), t', s') := by
  have hd : Determines (· = b) num (fun _ => t.finalizedHash) :=
    ⟨fun _ hx => hx ▸ hnum, fun _ hx => hx ▸ hpar, fun _ hx => by rw [hx, hpar, hsucc]⟩
  have hver : t.verified b = { t with table := t.table.set b.hash b } := by
    rw [Tracker.verified, if_neg (UInt64.not_le.mpr hlt)]
  have hrest : Published (· = b) num t s := h.published hfin
  have hpub := hrest.verified (b := b) rfl
  have hget : (t.verified b).table.get b.hash = some b := by
    rw [hver]
    exact Table.get_set_self _ _ _
  have hhash : (t.verified b).finalizedHash = t.finalizedHash := by rw [hver]
  rcases hpub.accepted hd hget (hpar.trans hhash.symm) hnum with
    ⟨stack, s', b', rfl, -, hres, henv, hpub'⟩ | hbus
  · left
    refine ⟨_, s', hres, ?_, rfl, rfl, henv⟩
    -- what would be left is the block itself, and it is not above itself
    have hgone : ∀ {x : Batch}, x = b' → ¬ b'.block < x.block := by
      rintro x rfl
      exact UInt64.lt_irrefl _
    have hstack := List.eq_nil_iff_forall_not_mem.mpr (fun x hx =>
      hgone (hpub'.stack x hx) (UInt64.lt_iff_toNat_lt.mpr (hpub'.linked.lt hx)))
    have hbus : s'.bus.layers = [] := by
      have hsame := hpub'.same
      rw [hstack] at hsame
      exact List.map_eq_nil_iff.mp hsame
    refine ⟨fun k => ?_, hstack, ?_, hbus, fun k => ?_⟩
    · cases hk : (Tracker.finalized { t.verified b' with stack := stack } b'.block b'.hash).table.get k with
      | none => rfl
      | some x =>
        obtain ⟨-, hx, hx'⟩ := hpub'.table k x hk
        exact absurd hx' (hgone hx)
    · rw [hpub'.layers, hbus]
      rfl
    · cases hk : s'.pending k with
      | none => rfl
      | some x =>
        obtain ⟨-, hx, hx'⟩ := hpub'.pendingTag k x hk
        exact absurd hx' (hgone hx)
  · exact Or.inr hbus

/-- A block that is not above the finalized one is not recorded, and then not known. -/
theorem AtRest.accepted_stale (h : AtRest t s) {b : Batch} (hle : b.block ≤ t.finalizedHeight)
    (block : UInt64) :
    (t.verified b).accepted s block b.hash = (.error (.unknownAccepted block b.hash), t, s) := by
  rw [Tracker.verified, if_pos hle, Tracker.accepted, Tracker.publishAccepted, h.stack, h.table]
  rfl

end Published

end Flatstate.Node
