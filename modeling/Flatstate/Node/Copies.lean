import Flatstate.Node.Calls
import Flatstate.Node.Writer

set_option autoImplicit false

/-!
# Node: the copies of the unfinalized stack

The published stack is kept by the tracker, by the tip view, by the bus and, under its
hashes, by the sink.  The calls of the sink change the last three alike, so they are
always the fold of these calls.  The tracker's own copy has the same hashes; it has the
same batches as long as no hash is verified with two of them.
-/

namespace Flatstate.Node

open Foundation Schema Capture Store Tipbus

/-! ## Sink calls as data -/

/-- A call of `capture.Sink`. -/
inductive Call where
  | block (b : Batch)
  | preferenceReset (preferred : List Batch)
  | finalize (block : UInt64) (hash : Hash)

/-- What a call makes of the unfinalized stack. -/
def Call.fold (stack : List Batch) : Call → List Batch
  | block b => stack ++ [b]
  | preferenceReset preferred => preferred
  | finalize _ _ => stack.tail

def Sink.perform (s : Sink) : Call → Except NodeErr Unit × Sink
  | .block b => s.block none b
  | .preferenceReset preferred => s.preferenceReset none preferred
  | .finalize block hash => s.finalize none block hash

/-- Calls one after the other, up to the first that fails. -/
def Sink.performAll (s : Sink) : List Call → Except NodeErr Unit × Sink
  | [] => (.ok (), s)
  | c :: cs =>
    match s.perform c with
    | (.error e, s) => (.error e, s)
    | (.ok (), s) => s.performAll cs

/-- The sink calls of `Tracker.Head`. -/
def Tracker.headCalls (t : Tracker) (hash : Hash) : List Call :=
  match t.chainTo hash with
  | .error _ => []
  | .ok chain =>
    if sameChain chain t.stack then []
    else if chain.length = t.stack.length + 1 ∧ sameChain (chain.take t.stack.length) t.stack then
      chain.getLast?.toList.map .block
    else [.preferenceReset chain]

/-- The sink calls of `Tracker.Accepted`. -/
def Tracker.acceptCalls (t : Tracker) (block : UInt64) (hash : Hash) : List Call :=
  if t.stack.head?.map Batch.hash = some hash then [.finalize block hash]
  else
    match t.table.get hash with
    | none => []
    | some b => [.preferenceReset [b], .finalize block hash]

section Perform

variable {t t' : Tracker} {s s' : Sink}

theorem performAll_append {cs cs' : List Call} (h : s.performAll cs = (.ok (), s')) :
    s.performAll (cs ++ cs') = s'.performAll cs' := by
  induction cs generalizing s with
  | nil =>
    obtain ⟨-, rfl⟩ := Prod.mk.inj h
    rfl
  | cons c cs ih =>
    rw [Sink.performAll] at h
    rw [List.cons_append, Sink.performAll]
    cases hc : s.perform c with
    | mk r s1 =>
      rw [hc] at h
      cases r with
      | error e => cases h
      | ok u => exact ih h

theorem sinkCall_ok {r : Except NodeErr Unit × Sink} (h : sinkCall t r = (.ok (), t', s')) :
    r = (.ok (), s') := by
  obtain ⟨res, s1⟩ := r
  cases res with
  | error e => cases h
  | ok u =>
    obtain ⟨-, h⟩ := Prod.mk.inj h
    obtain ⟨-, rfl⟩ := Prod.mk.inj h
    rfl

theorem performAll_singleton {c : Call} (h : s.perform c = (.ok (), s')) :
    s.performAll [c] = (.ok (), s') := by
  rw [Sink.performAll, h]
  rfl

/-- A head that succeeds makes its calls. -/
theorem head_performs {hash : Hash} (h : t.head s hash = (.ok (), t', s')) :
    s.performAll (t.headCalls hash) = (.ok (), s') := by
  rw [Tracker.head] at h
  rw [Tracker.headCalls]
  cases hc : t.chainTo hash with
  | error e =>
    rw [hc] at h
    cases h
  | ok chain =>
    rw [hc] at h
    dsimp only at h ⊢
    split at h
    · rename_i hsame
      rw [if_pos hsame]
      cases h
      rfl
    · rename_i hsame
      rw [if_neg hsame]
      split at h
      · rename_i hext
        rw [if_pos hext]
        cases hlast : chain.getLast? with
        | none =>
          rw [hlast] at h
          cases h
          rfl
        | some b =>
          rw [hlast] at h
          exact performAll_singleton (sinkCall_ok h)
      · rename_i hext
        rw [if_neg hext]
        exact performAll_singleton (sinkCall_ok h)

/-- The parts of an acceptance that succeeds. -/
theorem accepted_ok {block : UInt64} {hash : Hash}
    (h : t.accepted s block hash = (.ok (), t', s')) :
    ∃ t1 s1, t.publishAccepted s block hash = (.ok (), t1, s1) ∧
      s1.finalize none block hash = (.ok (), s') ∧ t' = t1.finalized block hash := by
  rw [Tracker.accepted] at h
  rcases hp : t.publishAccepted s block hash with ⟨res, t1, s1⟩
  rw [hp] at h
  cases res with
  | error e => cases h
  | ok u =>
    dsimp only at h
    rcases hf : s1.finalize none block hash with ⟨res, s2⟩
    rw [hf] at h
    cases res with
    | error e => cases h
    | ok u =>
      cases h
      exact ⟨t1, s1, rfl, hf, rfl⟩

/-- An acceptance that succeeds makes its calls. -/
theorem accepted_performs {block : UInt64} {hash : Hash}
    (h : t.accepted s block hash = (.ok (), t', s')) :
    s.performAll (t.acceptCalls block hash) = (.ok (), s') := by
  obtain ⟨t1, s1, hp, hf, -⟩ := accepted_ok h
  rw [Tracker.publishAccepted] at hp
  rw [Tracker.acceptCalls]
  split at hp
  · rename_i hhead
    rw [if_pos hhead]
    cases hp
    exact performAll_singleton hf
  · rename_i hhead
    rw [if_neg hhead]
    cases hb : t.table.get hash with
    | none =>
      rw [hb] at hp
      cases hp
    | some b =>
      rw [hb] at hp
      dsimp only at hp
      split at hp
      · cases hp
      · have hcall : s.preferenceReset none [b] = (.ok (), s1) := sinkCall_ok hp
        have hreset : s.perform (.preferenceReset [b]) = (.ok (), s1) := hcall
        dsimp only
        rw [Sink.performAll, hreset]
        exact performAll_singleton hf

/-- What a finalization that succeeds leaves on the bus and among the published blocks. -/
theorem finalize_ok {block : UInt64} {hash : Hash}
    (h : s.finalize none block hash = (.ok (), s')) :
    (∃ b, s.finalizeCheck block hash = .ok b) ∧ s'.bus.layers = s.bus.layers.tail ∧
      s'.pending = (fun h => (s.pending h).filter (fun p => ¬ p.block ≤ block)) ∧
      (Live s → Live s') := by
  rw [Sink.finalize] at h
  cases hc : s.finalizeCheck block hash with
  | error e =>
    rw [hc] at h
    cases h
  | ok b =>
    rw [hc] at h
    dsimp only at h
    have hsnd := finalizeFold_snd (s := s.finalizeWrite b) block hash
    rcases hf : (s.finalizeWrite b).finalizeFold block hash with ⟨res, s1⟩
    rw [hf] at h hsnd
    cases res with
    | error e => cases h
    | ok u =>
      dsimp only at h hsnd
      have hok : ((s1.finalizeMark block).finalizePublish none block hash).1 = .ok () := by rw [h]
      dsimp only [Sink.finalizePublish] at hok
      obtain ⟨hpub, hs⟩ := published_ok hok
      have hs' : s' = ((s1.finalizeMark block).finalizePublish none block hash).2 := by rw [h]
      have hbus : (s1.finalizeMark block).bus = s.bus := by
        rw [hsnd]
        rfl
      have hpend : (s1.finalizeMark block).pending = s.pending := by
        rw [hsnd]
        rfl
      dsimp only [Sink.finalizePublish] at hs'
      rw [hs] at hs'
      rw [← hbus, ← hpend, Live, Live, ← hbus, hs']
      refine ⟨⟨b, rfl⟩, publishFinalize_layers hpub, rfl, ?_⟩
      rintro ⟨evs, hcar⟩
      exact ⟨_, (hcar.publishFinalize hpub).1⟩

/-- The bus's copy is the fold of the calls. -/
theorem perform_layers {c : Call} (h : s.perform c = (.ok (), s')) :
    s'.bus.layers = c.fold s.bus.layers := by
  have hs' : s' = (s.perform c).2 := by rw [h]
  cases c with
  | block b =>
    obtain ⟨-, bus, hbus, hs⟩ := block_cases s b
    rw [hs', Sink.perform, hs]
    exact hbus
  | preferenceReset preferred =>
    obtain ⟨-, bus, hbus, hs⟩ := preferenceReset_cases s preferred
    rw [hs', Sink.perform, hs]
    exact hbus
  | finalize block hash => exact (finalize_ok h).2.1

theorem performAll_layers {cs : List Call} (h : s.performAll cs = (.ok (), s')) :
    s'.bus.layers = cs.foldl Call.fold s.bus.layers := by
  induction cs generalizing s with
  | nil =>
    obtain ⟨-, rfl⟩ := Prod.mk.inj h
    rfl
  | cons c cs ih =>
    rw [Sink.performAll] at h
    rcases hc : s.perform c with ⟨res, s1⟩
    rw [hc] at h
    cases res with
    | error e => cases h
    | ok u => rw [ih h, perform_layers hc, List.foldl_cons]

end Perform

/-! ## The published blocks -/

/-- Every published block is a layer. -/
def Only (s : Sink) : Prop := ∀ h b, s.pending h = some b → ∃ l ∈ s.bus.layers, l.hash = h

section Only

variable {Tag : Batch → Prop} {num : Hash → Nat} {par : Hash → Hash} {t : Tracker} {s s' : Sink}

theorem Only.block (h : Only s) (b : Batch) : Only (s.block none b).2 := by
  obtain ⟨-, bus, hbus, hs⟩ := block_cases s b
  rw [hs]
  intro k p hp
  dsimp only at hp ⊢
  rw [hbus]
  by_cases hk : k = b.hash
  · exact ⟨b, by simp, hk.symm⟩
  · rw [Function.update_of_ne hk] at hp
    obtain ⟨l, hl, hlk⟩ := h k p hp
    exact ⟨l, List.mem_append_left _ hl, hlk⟩

theorem only_preferenceReset (s : Sink) (preferred : List Batch) :
    Only (s.preferenceReset none preferred).2 := by
  obtain ⟨-, bus, hbus, hs⟩ := preferenceReset_cases s preferred
  rw [hs]
  intro k p hp
  dsimp only at hp ⊢
  rw [hbus]
  have hmem : ∀ b ∈ preferred, (fun b => b ∈ preferred) b := fun b hb => hb
  obtain ⟨hph, hp⟩ := pendingTag_resetPending hmem hp
  exact ⟨p, hp, hph⟩

/-- A finalization forgets the oldest block, whose number is not above its own. -/
theorem Only.finalize (h : Only s) (hp : Published Tag num t s) (hd : Determines Tag num par)
    {block : UInt64} {hash : Hash} (hhead : t.stack.head?.map Batch.hash = some hash)
    (hblock : block.toNat = num hash) (hok : s.finalize none block hash = (.ok (), s')) :
    Only s' := by
  obtain ⟨-, hlayers, hpending, -⟩ := finalize_ok hok
  obtain ⟨-, -, l0, rest, -, hbus, -, hlh, -, -, -⟩ := hp.oldest hd hhead hblock
  intro k p hk
  rw [hpending] at hk
  dsimp only at hk
  rw [Option.filter_eq_some_iff] at hk
  obtain ⟨hk, hlt⟩ := hk
  obtain ⟨l, hl, hlk⟩ := h k p hk
  rw [hlayers, hbus, List.tail_cons]
  rw [hbus] at hl
  rcases List.mem_cons.mp hl with rfl | hl
  · obtain ⟨hph, hpT, -⟩ := hp.pendingTag k p hk
    have heq : p.block = block := by
      refine UInt64.toNat_inj.mp ?_
      rw [hblock, hd.block p hpT, hph, ← hlk, hlh]
    simp [heq] at hlt
  · exact ⟨l, hl, hlk⟩

/-- Calls that finalize nothing. -/
theorem Only.performAll (h : Only s) {cs : List Call} (hcs : ∀ block hash, .finalize block hash ∉ cs)
    (hok : s.performAll cs = (.ok (), s')) : Only s' := by
  induction cs generalizing s with
  | nil =>
    obtain ⟨-, rfl⟩ := Prod.mk.inj hok
    exact h
  | cons c cs ih =>
    rw [Sink.performAll] at hok
    rcases hc : s.perform c with ⟨res, s1⟩
    rw [hc] at hok
    cases res with
    | error e => cases hok
    | ok u =>
      refine ih ?_ (fun block hash hm => hcs block hash (List.mem_cons_of_mem c hm)) hok
      have hs1 : s1 = (s.perform c).2 := by rw [hc]
      cases c with
      | block b =>
        rw [hs1]
        exact h.block b
      | preferenceReset preferred =>
        rw [hs1]
        exact only_preferenceReset s preferred
      | finalize block hash => exact absurd List.mem_cons_self (hcs block hash)

theorem finalize_not_mem_headCalls (t : Tracker) (hash : Hash) (block : UInt64) (h : Hash) :
    Call.finalize block h ∉ t.headCalls hash := by
  rw [Tracker.headCalls]
  split
  · simp
  · split
    · simp
    · split
      · simp
      · simp

end Only

/-! ## Runs -/

/-- The tracker, its sink and the sink calls made, after calls that return no error; `Tag`
holds of the batches verified. -/
inductive CallRun (Tag : Batch → Prop) (start : UInt64) (root : Hash) (s₀ : Sink) :
    Tracker → Sink → List Call → Prop where
  | init : CallRun Tag start root s₀ (newTracker start root) s₀ []
  | verified {t : Tracker} {s : Sink} {cs : List Call} {b : Batch}
      (hr : CallRun Tag start root s₀ t s cs) (hb : Tag b) :
      CallRun Tag start root s₀ (t.verified b) s cs
  | head {t t' : Tracker} {s s' : Sink} {cs : List Call} {hash : Hash}
      (hr : CallRun Tag start root s₀ t s cs) (hok : t.head s hash = (.ok (), t', s')) :
      CallRun Tag start root s₀ t' s' (cs ++ t.headCalls hash)
  | accepted {t t' : Tracker} {s s' : Sink} {cs : List Call} {block : UInt64} {hash : Hash}
      (hr : CallRun Tag start root s₀ t s cs)
      (hok : t.accepted s block hash = (.ok (), t', s')) :
      CallRun Tag start root s₀ t' s' (cs ++ t.acceptCalls block hash)

/-- What holds after every call. -/
structure CallInv (Tag : Batch → Prop) (num : Hash → Nat) (s₀ : Sink) (t : Tracker) (s : Sink)
    (cs : List Call) : Prop where
  published : Published Tag num t s
  live : Live s
  only : Only s
  performed : s₀.performAll cs = (.ok (), s)

section Runs

variable {Tag : Batch → Prop} {num : Hash → Nat} {par : Hash → Hash} {start : UInt64} {root : Hash}
  {s₀ s s' : Sink} {t t' : Tracker} {cs : List Call}

theorem CallInv.verified (h : CallInv Tag num s₀ t s cs) {b : Batch} (hb : Tag b) :
    CallInv Tag num s₀ (t.verified b) s cs :=
  { h with published := h.published.verified hb }

theorem CallInv.head (h : CallInv Tag num s₀ t s cs) (hd : Determines Tag num par) {hash : Hash}
    (hok : t.head s hash = (.ok (), t', s')) :
    CallInv Tag num s₀ t' s' (cs ++ t.headCalls hash) := by
  have hres := h.published.tracked_head hd h.live hash
  have hcalls := head_performs hok
  have honly := h.only.performAll (finalize_not_mem_headCalls t hash) hcalls
  rw [hok] at hres
  cases hres with
  | done hp hk hl _ => exact ⟨hp, hl, honly, (performAll_append h.performed).trans hcalls⟩

theorem only_publishAccepted (h : Only s) {block : UInt64} {hash : Hash}
    (hok : t.publishAccepted s block hash = (.ok (), t', s')) : Only s' := by
  rw [Tracker.publishAccepted] at hok
  split at hok
  · cases hok
    exact h
  · cases hb : t.table.get hash with
    | none =>
      rw [hb] at hok
      cases hok
    | some b =>
      rw [hb] at hok
      dsimp only at hok
      split at hok
      · cases hok
      · have hcall : s.preferenceReset none [b] = (.ok (), s') := sinkCall_ok hok
        have honly := only_preferenceReset s [b]
        rw [hcall] at honly
        exact honly

theorem CallInv.accepted (h : CallInv Tag num s₀ t s cs) (hd : Determines Tag num par)
    {block : UInt64} {hash : Hash} (hok : t.accepted s block hash = (.ok (), t', s')) :
    CallInv Tag num s₀ t' s' (cs ++ t.acceptCalls block hash) := by
  obtain ⟨t1, s1, hpub, hfin, rfl⟩ := accepted_ok hok
  have hres := h.published.tracked_accept hd h.live block hash
  have honly := only_publishAccepted h.only hpub
  rw [hpub] at hres
  cases hres with
  | done hp hk hl hhead =>
    obtain ⟨⟨b, hc⟩, -, -, hlive⟩ := finalize_ok hfin
    obtain ⟨-, -, -, -, -, hblock⟩ := hp.check hd hhead hc
    obtain ⟨-, -, hp'⟩ := hp.finalize hd hhead hblock
    rw [hfin] at hp'
    exact ⟨hp', hlive hl, honly.finalize hp hd hhead hblock hfin,
      (performAll_append h.performed).trans (accepted_performs hok)⟩

theorem CallRun.inv (hd : Determines Tag num par) (hroot : num root = start.toNat)
    (h0 : Rest s₀) (hl : Live s₀) (hr : CallRun Tag start root s₀ t s cs) :
    CallInv Tag num s₀ t s cs := by
  induction hr with
  | init =>
    refine ⟨(h0.new start root).published hroot.symm, hl, fun h b hb => ?_, rfl⟩
    rw [h0.pending] at hb
    cases hb
  | verified hr hb ih => exact ih.verified hb
  | head hr hok ih => exact ih.head hd hok
  | accepted hr hok ih => exact ih.accepted hd hok

end Runs

/-! ## Agreement -/

/-- The copies of the unfinalized stack are one list: a chain on the finalized block, and
the fold of the calls `cs` that took the sink from `s₀` to `s`. -/
structure Agree (s₀ : Sink) (t : Tracker) (s : Sink) (cs : List Call) : Prop where
  view : s.st.batches = t.stack
  bus : s.bus.layers = t.stack
  pending : ∀ h, s.pending h ≠ none ↔ h ∈ t.stack.map Batch.hash
  linked : Linked t.finalizedHash t.finalizedHeight.toNat t.stack
  above : ∀ b ∈ t.stack, t.finalizedHeight < b.block
  performed : s₀.performAll cs = (.ok (), s)
  calls : t.stack = cs.foldl Call.fold []
  /-- the walk of every further head ends -/
  walks : ∀ hash, t.chainTo hash ≠ .error .endless

section Agree

variable {Tag : Batch → Prop} {num : Hash → Nat} {par : Hash → Hash} {start : UInt64} {root : Hash}
  {s₀ s : Sink} {t : Tracker} {cs : List Call}

/-- The copies have the same hashes, whatever was verified. -/
theorem CallInv.hashes (h : CallInv Tag num s₀ t s cs) (h0 : Rest s₀) :
    s.st.batches = s.bus.layers ∧ s.bus.layers = cs.foldl Call.fold [] ∧
      s.bus.layers.map Batch.hash = t.stack.map Batch.hash ∧
      ∀ k, s.pending k ≠ none ↔ k ∈ t.stack.map Batch.hash := by
  refine ⟨Mem.batches_of_layers h.published.layers, ?_, h.published.same, fun k => ?_⟩
  · have hl := performAll_layers h.performed
    rwa [h0.bus] at hl
  · rw [← h.published.same, List.mem_map]
    constructor
    · intro hk
      obtain ⟨p, hp⟩ := Option.ne_none_iff_exists'.mp hk
      exact h.only k p hp
    · rintro ⟨l, hl, rfl⟩
      exact h.published.pending l hl

/-- Batches that are told apart by their hashes. -/
theorem eq_of_map_hash (hone : ∀ b b', Tag b → Tag b' → b.hash = b'.hash → b = b')
    {bs bs' : List Batch} (hb : ∀ b ∈ bs, Tag b) (hb' : ∀ b ∈ bs', Tag b)
    (h : bs.map Batch.hash = bs'.map Batch.hash) : bs = bs' := by
  induction bs generalizing bs' with
  | nil => exact (List.map_eq_nil_iff.mp h.symm).symm
  | cons b bs ih =>
    cases bs' with
    | nil => simp at h
    | cons b' bs' =>
      rw [List.map_cons, List.map_cons, List.cons.injEq] at h
      rw [List.forall_mem_cons] at hb hb'
      rw [hone b b' hb.1 hb'.1 h.1, ih hb.2 hb'.2 h.2]

theorem CallInv.agree (h : CallInv Tag num s₀ t s cs) (h0 : Rest s₀)
    (hd : Determines Tag num par)
    (hone : ∀ b b', Tag b → Tag b' → b.hash = b'.hash → b = b') : Agree s₀ t s cs := by
  obtain ⟨hview, hcalls, hsame, hpending⟩ := h.hashes h0
  have hbus := eq_of_map_hash hone h.published.layersTag h.published.stack hsame
  refine ⟨hview.trans hbus, hbus, hpending, h.published.linked, fun b hb => ?_, h.performed,
    hbus.symm.trans hcalls, fun hash hend => ?_⟩
  · exact UInt64.lt_iff_toNat_lt.mpr (h.published.linked.lt hb)
  · rcases chainTo_cases (h.published.numbers hd) hash with ⟨es, -, hok⟩ | ⟨u, hu⟩
    · rw [hok] at hend
      cases hend
    · rw [hu] at hend
      cases hend

end Agree

/-- In every run of calls that return no error, in which no hash is verified with two
batches, the copies of the unfinalized stack agree after each call. -/
theorem copies_agree {Tag : Batch → Prop} {num : Hash → Nat} {par : Hash → Hash} {start : UInt64}
    {root : Hash} {s₀ s : Sink} {t : Tracker} {cs : List Call} (hd : Determines Tag num par)
    (hroot : num root = start.toNat) (h0 : Rest s₀) (hl : Live s₀)
    (hone : ∀ b b', Tag b → Tag b' → b.hash = b'.hash → b = b')
    (hr : CallRun Tag start root s₀ t s cs) : Agree s₀ t s cs :=
  (hr.inv hd hroot h0 hl).agree h0 hd hone

/-! ### Two blocks, one of them verified again -/

namespace Sample

open Store.Sample

/-- A new sink over the finished baseline. -/
def idleSink : Sink := newSink finished.env (Mem.State.new none) openWriter

/-- Block 6 under the same hash, with other writes. -/
def block6' : Batch := { block6 with ops := [] }

/-- A child of block 6. -/
def block7 : Batch where
  block := 7
  hash := FixedBytes.ofNat 32 7
  parent := block6.hash
  time := 7000
  ops := []

def numbers (h : Hash) : Nat := if h = block7.hash then 7 else if h = block6.hash then 6 else 5

def parents (h : Hash) : Hash := if h = block7.hash then block6.hash else block6.parent

theorem determines_blocks :
    Determines (fun b => b = block6 ∨ b = block6' ∨ b = block7) numbers parents := by
  refine ⟨?_, ?_, ?_⟩
  all_goals
    rintro b (rfl | rfl | rfl) <;> decide

/-- Block 6 is verified and preferred. -/
def published6 : Except TrackErr Unit × Tracker × Sink :=
  ((newTracker 5 block6.parent).verified block6).head idleSink block6.hash

/-- Then a batch `b` of its hash and its child are verified, and the child is preferred. -/
def published7 (b : Batch) : Except TrackErr Unit × Tracker × Sink :=
  ((published6.2.1.verified b).verified block7).head published6.2.2 block7.hash

/-- The sink calls made so far. -/
def calls7 (b : Batch) : List Call :=
  ((newTracker 5 block6.parent).verified block6).headCalls block6.hash ++
    ((published6.2.1.verified b).verified block7).headCalls block7.hash

/-- A run that prefers block 7 on a batch `b` for block 6. -/
theorem published7_run (Tag : Batch → Prop) (h6 : Tag block6) (h7 : Tag block7) {b : Batch} (hb : Tag b)
    (hok : (published7 b).1 = .ok ()) :
    CallRun Tag 5 block6.parent idleSink (published7 b).2.1 (published7 b).2.2 (calls7 b) := by
  have hok6 : published6.1 = .ok () := by decide +kernel
  have h6' : ((newTracker 5 block6.parent).verified block6).head idleSink block6.hash =
      (.ok (), published6.2.1, published6.2.2) := by
    rw [← published6, ← hok6]
  have h7' : ((published6.2.1.verified b).verified block7).head published6.2.2 block7.hash =
      (.ok (), (published7 b).2.1, (published7 b).2.2) := by
    rw [← published7, ← hok]
  have hinit : CallRun Tag 5 block6.parent idleSink (newTracker 5 block6.parent) idleSink [] := .init
  have hrun6 := CallRun.head (.verified hinit h6) h6'
  exact .head (.verified (.verified hrun6 hb) h7) h7'

theorem idleSink_rest : Rest idleSink := ⟨rfl, rfl, fun _ => rfl⟩

theorem idleSink_live : Live idleSink := ⟨[], carries_openWriter⟩

end Sample

/-- The theorem at work: block 6 is verified twice with one batch. -/
theorem copies_agree_block7 :
    (Sample.published7 Store.Sample.block6).2.1.stack = [Store.Sample.block6, Sample.block7] ∧
      Agree Sample.idleSink (Sample.published7 Store.Sample.block6).2.1
        (Sample.published7 Store.Sample.block6).2.2 (Sample.calls7 Store.Sample.block6) := by
  have hd : Determines (fun b => b = Store.Sample.block6 ∨ b = Sample.block7) Sample.numbers
      Sample.parents := by
    have h := Sample.determines_blocks
    exact ⟨fun b hb => h.block b (hb.imp_right Or.inr), fun b hb => h.parent b (hb.imp_right Or.inr),
      fun b hb => h.succ b (hb.imp_right Or.inr)⟩
  have hone : ∀ b b', (b = Store.Sample.block6 ∨ b = Sample.block7) →
      (b' = Store.Sample.block6 ∨ b' = Sample.block7) → b.hash = b'.hash → b = b' := by
    rintro b b' (rfl | rfl) (rfl | rfl) h
    · rfl
    · exact absurd h (by decide)
    · exact absurd h (by decide)
    · rfl
  have hroot : Sample.numbers Store.Sample.block6.parent = (5 : UInt64).toNat := by decide
  have hr := Sample.published7_run (fun b => b = Store.Sample.block6 ∨ b = Sample.block7)
    (Or.inl rfl) (Or.inr rfl) (Or.inl rfl) (by decide +kernel)
  exact ⟨by decide +kernel,
    copies_agree hd hroot Sample.idleSink_rest Sample.idleSink_live hone hr⟩

/-- Block 6 is preferred, verified again with other writes, and then extended: the tracker's
stack has the new batch, the tip view and the bus keep the old one. -/
theorem copies_drift_apart :
    CallRun (fun b => b = Store.Sample.block6 ∨ b = Sample.block6' ∨ b = Sample.block7) 5
        Store.Sample.block6.parent Sample.idleSink (Sample.published7 Sample.block6').2.1
        (Sample.published7 Sample.block6').2.2 (Sample.calls7 Sample.block6') ∧
      (Sample.published7 Sample.block6').2.1.stack = [Sample.block6', Sample.block7] ∧
      (Sample.published7 Sample.block6').2.2.bus.layers = [Store.Sample.block6, Sample.block7] ∧
      ¬ Agree Sample.idleSink (Sample.published7 Sample.block6').2.1
        (Sample.published7 Sample.block6').2.2 (Sample.calls7 Sample.block6') := by
  have hstack : (Sample.published7 Sample.block6').2.1.stack = [Sample.block6', Sample.block7] := by
    decide +kernel
  have hbus : (Sample.published7 Sample.block6').2.2.bus.layers =
      [Store.Sample.block6, Sample.block7] := by
    decide +kernel
  refine ⟨?_, hstack, hbus, fun h => ?_⟩
  · exact Sample.published7_run _ (Or.inl rfl) (Or.inr (Or.inr rfl)) (Or.inr (Or.inl rfl))
      (by decide +kernel)
  · have heq := h.bus
    rw [hbus, hstack] at heq
    exact absurd heq (by decide)

end Flatstate.Node
